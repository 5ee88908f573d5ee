import Diversion.AllocNear
import Diversion.FreeBytes

/-!
# Coalescing

Whether free bytes that are next to each other are in one recorded range. `adoptRange` grows
only one of the ranges it touches and prefers the upper one, so that a returned block between
two free ranges is merged with one of them (`not_recombines_reclaimUp`). `AdoptsCleanly` says
when that does not matter, and exactly the histories of clean calls keep the ranges coalesced
(`recombines_iff`). As long as they are, a region all of which is free again serves what it
served when it was new.
-/

namespace Diversion

open Extent

namespace BoundedRangeAllocator

/-! ## Adopting -/

section Adopt

variable {ranges : List Range} {range : Range}

/-- A range that ends where `range` starts, or starts where it ends, is the only one there, and
they are not both. -/
structure AdoptsCleanly (ranges : List Range) (range : Range) : Prop where
  above : ∀ b ∈ ranges, b.start < b.stop → b.start = range.stop →
    (⟨range.stop, range.stop⟩ : Range) ∉ ranges
  below : ∀ b ∈ ranges, b.start < b.stop → b.stop = range.start →
    (⟨range.start, range.start⟩ : Range) ∉ ranges ∧ ∀ c ∈ ranges, c.start ≠ range.stop

instance : Decidable (AdoptsCleanly ranges range) :=
  decidable_of_iff
    ((∀ b ∈ ranges, b.start < b.stop → b.start = range.stop →
        (⟨range.stop, range.stop⟩ : Range) ∉ ranges) ∧
      ∀ b ∈ ranges, b.start < b.stop → b.stop = range.start →
        (⟨range.start, range.start⟩ : Range) ∉ ranges ∧ ∀ c ∈ ranges, c.start ≠ range.stop)
    ⟨fun h => ⟨h.1, h.2⟩, fun h => ⟨h.above, h.below⟩⟩

/-- A range that touches nothing has nothing to merge with. -/
theorem adoptsCleanly_of_not_touches (h : ¬Touches ranges range) : AdoptsCleanly ranges range :=
  ⟨fun b hb _ hstart => absurd ⟨b, hb, Or.inr hstart⟩ h,
    fun b hb _ hstop => absurd ⟨b, hb, Or.inl hstop⟩ h⟩

section Grow

variable {pre post : List Range} {old : Range}

/-- A range that is merged with the one above it. -/
theorem noAdjacent_growDown_iff (hchain : Chain (pre ++ old :: post))
    (hpos : range.start < range.stop) (hpre : ∀ r ∈ pre, r.stop ≤ range.start)
    (hold : old.start = range.stop) (hno : NoAdjacent (pre ++ old :: post)) :
    NoAdjacent (pre ++ ⟨range.start, old.stop⟩ :: post) ↔
      AdoptsCleanly (pre ++ old :: post) range := by
  obtain ⟨-, hrest, -⟩ := chain_append.1 hchain
  obtain ⟨hvalid, hpost, -⟩ := chain_cons.1 hrest
  have hlt : range.start < old.stop := hpos.trans_le (hold.ge.trans hvalid)
  have hmem : ∀ b, b ∈ pre ++ old :: post ↔ b ∈ pre ∨ b = old ∨ b ∈ post := by simp
  constructor
  · refine fun h => ⟨fun b hb hbpos hstart hempty => ?_, fun b hb hbpos hstop => ?_⟩
    · -- an empty range in the way is what was grown, which is then next to `b`
      have hstop : old.stop = range.stop := by
        rcases (hmem _).1 hempty with hmem | heq | hmem
        · exact absurd (hpre _ hmem) (Nat.not_le.2 hpos)
        · rw [← heq]
        · exact le_antisymm (hpost _ hmem) (hold.ge.trans hvalid)
      have hb' : b ∈ post := by
        rcases (hmem b).1 hb with hb | rfl | hb
        · have := hpre b hb
          omega
        · omega
        · exact hb
      exact h ⟨range.start, old.stop⟩ (by simp) b (by simp [hb']) hlt hbpos
        (hstop.trans hstart.symm)
    · have hb' : b ∈ pre := by
        rcases (hmem b).1 hb with hb | rfl | hb
        · exact hb
        · omega
        · have := hpost b hb
          omega
      exact absurd hstop (h b (by simp [hb']) ⟨range.start, old.stop⟩ (by simp) hbpos hlt)
  · intro hclean b hb c hc hbpos hcpos heq
    simp only [List.mem_append, List.mem_cons] at hb hc
    have hbelow : ∀ b, b ∈ pre ∨ b ∈ post → b.start < b.stop → b.stop ≠ range.start :=
      fun b hb hbpos hstop => (hclean.below b ((hmem b).2 (hb.imp_right Or.inr)) hbpos hstop).2 old
        (by simp) hold
    rcases hb with hb | rfl | hb <;> rcases hc with hc | rfl | hc
    · exact hno b (by simp [hb]) c (by simp [hc]) hbpos hcpos heq
    · exact hbelow b (Or.inl hb) hbpos heq
    · exact hno b (by simp [hb]) c (by simp [hc]) hbpos hcpos heq
    · have := hpre c hc
      simp only at heq
      omega
    · simp only at heq
      omega
    · -- either `old` was next to `c` already, or it is an empty range in the way
      rcases hvalid.lt_or_eq with hold' | hold'
      · exact hno old (by simp) c (by simp [hc]) hold' hcpos heq
      · have : old = ⟨range.stop, range.stop⟩ := by
          rw [← hold]
          exact congrArg (Extent.mk old.start) hold'.symm
        exact hclean.above c (by simp [hc]) hcpos (heq.symm.trans (hold'.symm.trans hold))
          (this ▸ by simp)
    · exact hno b (by simp [hb]) c (by simp [hc]) hbpos hcpos heq
    · exact hbelow b (Or.inr hb) hbpos heq
    · exact hno b (by simp [hb]) c (by simp [hc]) hbpos hcpos heq

/-- A range that is merged with the one below it. -/
theorem noAdjacent_growUp_iff (hchain : Chain (pre ++ old :: post))
    (hpos : range.start < range.stop) (hpost : ∀ r ∈ post, range.stop ≤ r.start)
    (hold : old.stop = range.start) (habove : ∀ b ∈ pre ++ old :: post, b.start ≠ range.stop)
    (hno : NoAdjacent (pre ++ old :: post)) :
    NoAdjacent (pre ++ ⟨old.start, range.stop⟩ :: post) ↔
      AdoptsCleanly (pre ++ old :: post) range := by
  obtain ⟨-, hrest, hbefore⟩ := chain_append.1 hchain
  obtain ⟨hvalid, -, -⟩ := chain_cons.1 hrest
  have hlt : old.start < range.stop := hvalid.trans_lt (hold.trans_lt hpos)
  have hmem : ∀ b, b ∈ pre ++ old :: post ↔ b ∈ pre ∨ b = old ∨ b ∈ post := by simp
  constructor
  · refine fun h => ⟨fun b hb _ hstart => absurd hstart (habove b hb),
      fun b hb hbpos hstop => ⟨fun hempty => ?_, habove⟩⟩
    have hstart : old.start = range.start := by
      rcases (hmem _).1 hempty with hmem | heq | hmem
      · exact le_antisymm (hvalid.trans hold.le) (hbefore _ hmem old (by simp))
      · rw [← heq]
      · exact absurd (hpost _ hmem) (Nat.not_le.2 hpos)
    have hb' : b ∈ pre := by
      rcases (hmem b).1 hb with hb | rfl | hb
      · exact hb
      · omega
      · have := hpost b hb
        omega
    exact h b (by simp [hb']) ⟨old.start, range.stop⟩ (by simp) hbpos hlt
      (hstop.trans hstart.symm)
  · intro hclean b hb c hc hbpos hcpos heq
    simp only [List.mem_append, List.mem_cons] at hb hc
    have hbelow : ∀ b, b ∈ pre ∨ b ∈ post → b.start < b.stop → b.stop ≠ old.start := by
      intro b hb hbpos heq
      have hb' := (hmem b).2 (hb.imp_right Or.inr)
      rcases hvalid.lt_or_eq with hold' | hold'
      · exact hno b hb' old (by simp) hbpos hold' heq
      · have : old = ⟨range.start, range.start⟩ := by
          rw [← hold]
          exact congrArg (Extent.mk · old.stop) hold'
        exact (hclean.below b hb' hbpos (heq.trans (hold'.trans hold))).1 (this ▸ by simp)
    rcases hb with hb | rfl | hb <;> rcases hc with hc | rfl | hc
    · exact hno b (by simp [hb]) c (by simp [hc]) hbpos hcpos heq
    · exact hbelow b (Or.inl hb) hbpos heq
    · exact hno b (by simp [hb]) c (by simp [hc]) hbpos hcpos heq
    · exact habove c (by simp [hc]) heq.symm
    · exact absurd heq hlt.ne'
    · exact habove c (by simp [hc]) heq.symm
    · exact hno b (by simp [hb]) c (by simp [hc]) hbpos hcpos heq
    · exact hbelow b (Or.inr hb) hbpos heq
    · exact hno b (by simp [hb]) c (by simp [hc]) hbpos hcpos heq

/-- A range of its own. -/
theorem noAdjacent_insert (huntouched : ¬Touches (pre ++ post) range)
    (hpos : range.start < range.stop) (hno : NoAdjacent (pre ++ post)) :
    NoAdjacent (pre ++ range :: post) := by
  have hmem : ∀ b ∈ pre ++ range :: post, b = range ∨ b ∈ pre ++ post := by
    simp only [List.mem_append, List.mem_cons]
    tauto
  intro b hb c hc hbpos hcpos heq
  rcases hmem b hb with hb' | hb' <;> rcases hmem c hc with hc' | hc'
  · rw [hb', hc'] at heq
    omega
  · exact huntouched ⟨c, hc', Or.inr (hb' ▸ heq.symm)⟩
  · exact huntouched ⟨b, hb', Or.inl (hc' ▸ heq)⟩
  · exact hno b hb' c hc' hbpos hcpos heq

end Grow

/-- Any range : neighbours stay apart just where it is adopted cleanly. -/
theorem noAdjacent_insertRange_iff (hchain : Chain ranges)
    (hapart : ∀ r ∈ ranges, r.Apart range) (hpos : range.start < range.stop)
    (hno : NoAdjacent ranges) :
    NoAdjacent (insertRange ranges range) ↔ AdoptsCleanly ranges range := by
  obtain ⟨pre, post, rfl, hpre, hpost, hcases⟩ := insertRange_cases hchain hapart hpos
  rcases hcases with ⟨next, post', rfl, hnext, heq⟩ | ⟨pre', prev, rfl, hprev, habove, heq⟩ |
    ⟨huntouched, -, heq⟩ | ⟨huntouched, -, heq⟩ <;> rw [heq]
  · exact noAdjacent_growDown_iff hchain hpos hpre hnext.symm hno
  · rw [List.append_assoc, List.singleton_append] at *
    exact noAdjacent_growUp_iff hchain hpos hpost hprev habove hno
  · exact iff_of_true (noAdjacent_insert huntouched hpos hno)
      (adoptsCleanly_of_not_touches huntouched)
  · exact iff_of_true hno (adoptsCleanly_of_not_touches huntouched)

end Adopt

/-! ## Allocating -/

section Alloc

variable {a a' : BoundedRangeAllocator} {live : List Range} {A : Set ℕ} {layout : Layout}
  {ptr minAddr maxAddr : ℕ} {start stop : Bound} {r block : Range} {pieces : List Range}

theorem noAdjacent_singleton (r : Range) : NoAdjacent [r] := by
  intro b hb c hc hbpos hcpos heq
  obtain rfl := List.mem_singleton.1 hb
  obtain rfl := List.mem_singleton.1 hc
  omega

/-- The block is between the pieces. -/
theorem noAdjacent_cut (hstart : 0 < r.start) (hr : r.start ≤ isizeMax + 1)
    (hmin : minAddr ≤ isizeMax + 1) (h : cut layout minAddr maxAddr r = some (pieces, block)) :
    NoAdjacent pieces := by
  have hsize := layout.size_pos
  obtain ⟨hroom, heq | heq | ⟨addr, haddr, hlt, heq⟩⟩ := cut_cases hstart hr hmin h <;>
    obtain ⟨rfl, -⟩ := Prod.mk.inj heq
  · exact noAdjacent_singleton _
  · exact noAdjacent_singleton _
  · split_ifs
    · intro b hb c hc hbpos hcpos heq
      simp only [List.cons_append, List.nil_append, List.mem_cons, List.not_mem_nil, or_false]
        at hb hc
      rcases hb with rfl | rfl <;> rcases hc with rfl | rfl <;> simp only at heq hbpos hcpos <;>
        omega
    · exact noAdjacent_singleton _

/-- An allocation leaves no neighbours. -/
theorem noAdjacent_allocNear (hinv : History.Inv a live A) (hno : NoAdjacent a.ranges)
    (h : a.allocNear layout ptr start stop = some (a', block)) : NoAdjacent a'.ranges := by
  obtain ⟨pre, r, post, pieces, minAddr, maxAddr, hsplit, rfl, hlt, hcut⟩ := allocNear_spec h
  have hr : r ∈ a.ranges := by simp [hsplit]
  obtain ⟨hstart, hstart'⟩ := hinv.start_bounds hr
  have hmin : minAddr ≤ isizeMax + 1 := hlt.le.trans hinv.maxAddr_le
  have hchain := hinv.chain
  rw [hsplit] at hchain hno
  exact hno.replace hchain (noAdjacent_cut hstart hstart' hmin hcut)
    (cut_spec hstart hstart' hmin hcut).pieces_within

end Alloc

/-! ## Serving again -/

section Serve

variable {a a₀ : BoundedRangeAllocator} {live live₀ : List Range} {A A₀ : Set ℕ}
  {layout : Layout} {ptr : ℕ} {start stop : Bound} {range : Range}

/-- What an allocator serves is served by one with longer ranges. -/
theorem allocNear_isSome_of_within (hinv : History.Inv a live A) (hinv₀ : History.Inv a₀ live₀ A₀)
    (hranges : ∀ r ∈ a₀.ranges, ∃ r' ∈ a.ranges, r.Within r') (hmax : a₀.maxAddr ≤ a.maxAddr)
    (h : (a₀.allocNear layout ptr start stop).isSome) :
    (a.allocNear layout ptr start stop).isSome := by
  obtain ⟨⟨a₀', block⟩, h⟩ := Option.isSome_iff_exists.1 h
  simp only [allocNear, allocLayoutInsideBounds, Option.bind_eq_bind, Option.bind_eq_some_iff] at h
  obtain ⟨least, hleast, greatest, hgreatest, h⟩ := h
  have hlt (a : BoundedRangeAllocator) : min (saturatingAddSigned ptr greatest)
      (a.maxAddr - layout.size) < wordSize :=
    (min_le_left _ _).trans_lt (saturatingAddSigned_lt _ _)
  have hclamp : min (saturatingAddSigned ptr greatest) (a₀.maxAddr - layout.size) ≤
      min (saturatingAddSigned ptr greatest) (a.maxAddr - layout.size) :=
    min_le_min le_rfl (Nat.sub_le_sub_right hmax _)
  obtain ⟨r, hr, hbelow, hroom, hlow, hhigh⟩ := room_of_allocLayoutBetween hinv₀ (hlt a₀) h
  obtain ⟨r', hr', hwithin⟩ := hranges r hr
  simp only [allocNear, allocLayoutInsideBounds, hleast, hgreatest, Option.bind_eq_bind,
    Option.bind_some]
  exact allocLayoutBetween_isSome hinv (hlt a) hr'
    (hwithin.1.trans_lt (hbelow.trans_le (Align.down_mono hclamp)))
    ⟨hroom.aligned, hwithin.1.trans hroom.start_le, hroom.le_stop.trans hwithin.2⟩ hlow
    (hhigh.trans hclamp)

/-- An allocator that has adopted one region. -/
def fresh (range : Range) : BoundedRangeAllocator :=
  zeroed.adoptRange range

/-- A fresh allocator owns what it was given. -/
theorem inv_fresh (hvalid : range.start ≤ range.stop)
    (haddr : ∀ x ∈ range.toSet, 0 < x ∧ x ≤ isizeMax) :
    History.Inv (fresh range) [] range.toSet := by
  rcases hvalid.lt_or_eq with hpos | hempty
  · exact History.inv_zeroed.adoptRange hpos (by simp) subset_rfl haddr
      (by simp [zeroed]) (by simp)
  · have : range.toSet = covered [] := by
      rw [toSet, hempty, Set.Ico_self, covered_nil]
    rw [fresh, History.adoptRange_of_empty hempty, this]
    exact History.inv_zeroed

theorem mem_fresh (hpos : range.start < range.stop) {r : Range} (hr : r ∈ (fresh range).ranges) :
    r = range := by
  rw [fresh, adoptRange, if_neg hpos.ne] at hr
  simpa [Grown, zeroed] using grown_of_mem_insertRange chain_nil (by simp) hpos hr

end Serve

end BoundedRangeAllocator

namespace History

open BoundedRangeAllocator

/-- Adopted bytes that are neither live nor free. -/
def forgotten (s : History) : Set ℕ :=
  covered s.adopted \ (covered s.live ∪ s.alloc.free)

/-- All blocks of a region were reclaimed and none of its bytes were forgotten. -/
structure Reclaimed (s : History) (region : Slice) : Prop where
  adopted : region.range ∈ s.adopted
  not_live : ∀ b ∈ s.live, Disjoint b.toSet region.range.toSet
  not_forgotten : Disjoint s.forgotten region.range.toSet

/-- Free bytes in a row are in one recorded range, and regions serve again what they served. -/
structure Recombines (s : History) : Prop where
  coalesced : Coalesced s.alloc.ranges
  not_adjacent : NoAdjacent s.alloc.ranges
  serves : ∀ region, s.Reclaimed region → ∀ layout ptr start stop,
    ((fresh region.range).allocNear layout ptr start stop).isSome →
      (s.alloc.allocNear layout ptr start stop).isSome

/-- A call that adopts a range, if it is not empty, does so cleanly. -/
def CallsCleanly (s : History) : Call → Prop
  | .adoptRange slice => slice.range.start < slice.range.stop →
      AdoptsCleanly s.alloc.ranges slice.range
  | .reclaim i offset len => 0 < len → ∀ block, s.live[i]? = some block →
      AdoptsCleanly s.alloc.ranges ⟨block.start + offset, block.start + offset + len⟩
  | .allocNear .. => True

section Recombine

variable {s t : History} {call : Call} {calls : List Call} {region : Slice}

/-- A region that was given back is free. -/
theorem Reclaimed.subset_free (h : s.Reclaimed region) : region.range.toSet ⊆ s.alloc.free := by
  intro x hx
  by_contra hfree
  refine Set.disjoint_left.1 h.not_forgotten ⟨⟨_, h.adopted, hx⟩, ?_⟩ hx
  rintro (⟨b, hb, hxb⟩ | hx')
  · exact Set.disjoint_left.1 (h.not_live b hb) hxb hx
  · exact hfree hx'

/-- A region that is part of one recorded range serves what it served. -/
theorem Reclaimed.serves {A : Set ℕ} (h : s.Reclaimed region) (hinv : Inv s.alloc s.live A)
    (hco : Coalesced s.alloc.ranges) {layout : Layout} {ptr : ℕ} {start stop : Bound}
    (hfresh : ((fresh region.range).allocNear layout ptr start stop).isSome) :
    (s.alloc.allocNear layout ptr start stop).isSome := by
  have hinv₀ := inv_fresh region.valid fun x hx => by
    have := region.start_pos
    have := region.stop_le
    have := hx.1
    have := hx.2
    omega
  rcases region.valid.lt_or_eq with hpos | hempty
  · obtain ⟨r, hr, hwithin⟩ := hco region.range hpos h.subset_free
    refine allocNear_isSome_of_within hinv hinv₀ (fun r' hr' => ⟨r, hr, ?_⟩) ?_ hfresh
    · exact mem_fresh hpos hr' ▸ hwithin
    · have hmax : (fresh region.range).maxAddr = region.range.stop := by
        simp only [fresh, adoptRange, if_neg hpos.ne]
        exact if_pos (Nat.zero_lt_of_lt hpos)
      exact hmax.trans_le (hwithin.2.trans (hinv.bounds r hr).2.2)
  · rw [fresh, adoptRange_of_empty hempty] at hfresh hinv₀
    exact allocNear_isSome_of_within hinv hinv₀ (by simp [BoundedRangeAllocator.zeroed])
      (Nat.zero_le _) hfresh

/-- Regions recombine just where no ranges are neighbours. -/
theorem recombines_iff_noAdjacent {A : Set ℕ} (hinv : Inv s.alloc s.live A) :
    s.Recombines ↔ NoAdjacent s.alloc.ranges := by
  refine ⟨fun h => h.not_adjacent, fun h => ?_⟩
  have hco := hinv.chain.coalesced_iff.2 h
  exact ⟨hco, h, fun _ hregion _ _ _ _ => hregion.serves hinv hco⟩

/-- A call keeps the ranges apart if and only if it is clean. -/
theorem noAdjacent_step_iff (hinv : Inv s.alloc s.live (covered s.adopted))
    (hno : NoAdjacent s.alloc.ranges) (hstep : step s call = some t) :
    NoAdjacent t.alloc.ranges ↔ CallsCleanly s call := by
  cases call with
  | adoptRange slice =>
    simp only [step] at hstep
    split_ifs at hstep with hnew
    obtain rfl := Option.some.inj hstep
    rcases slice.valid.lt_or_eq with hpos | hempty
    · have hapart : ∀ r ∈ s.alloc.ranges, r.Apart slice.range := fun r hr =>
        hinv.apart_of_disjoint hr hpos
          (disjoint_covered.2 fun r hr => (separate_iff.1 (hnew r hr)).symm)
      simp only [CallsCleanly, adoptRange, if_neg hpos.ne, hpos, forall_const]
      exact noAdjacent_insertRange_iff hinv.chain hapart hpos hno
    · rw [adoptRange_of_empty hempty]
      exact iff_of_true hno fun hpos => absurd hempty hpos.ne
  | reclaim i offset len =>
    simp only [step] at hstep
    cases hi : s.live[i]? with
    | none => simp [hi] at hstep
    | some block =>
      simp only [hi] at hstep
      split_ifs at hstep with hpart
      obtain rfl := Option.some.inj hstep
      rcases Nat.eq_zero_or_pos len with rfl | hlen
      · rw [BoundedRangeAllocator.reclaim, adoptRange_of_empty rfl]
        exact iff_of_true hno fun h => absurd h (lt_irrefl _)
      · have hwithin : Within ⟨block.start + offset, block.start + offset + len⟩ block :=
          ⟨Nat.le_add_right _ _, hpart⟩
        have hpos : block.start + offset < block.start + offset + len := by omega
        simp only [CallsCleanly, hi, Option.some.injEq, forall_eq', hlen, forall_const,
          BoundedRangeAllocator.reclaim, adoptRange, if_neg hpos.ne]
        exact noAdjacent_insertRange_iff hinv.chain (fun r hr =>
          (hwithin.apart (hinv.free r hr block (List.mem_of_getElem? hi)).symm).symm) hpos hno
  | allocNear layout ptr start stop =>
    simp only [step] at hstep
    refine iff_of_true ?_ trivial
    cases halloc : s.alloc.allocNear layout ptr start stop with
    | none =>
      rw [halloc] at hstep
      exact Option.some.inj hstep ▸ hno
    | some result =>
      obtain ⟨a', block⟩ := result
      rw [halloc] at hstep
      obtain rfl := Option.some.inj hstep
      exact noAdjacent_allocNear hinv hno halloc

/-- Exactly the histories of clean calls recombine what they get back, at all times. -/
theorem recombines_iff (hrun : Transition.run step zeroed calls = some s) :
    Transition.Throughout step Recombines zeroed calls ↔
      Transition.Meets step CallsCleanly zeroed calls := by
  refine Transition.throughout_iff_meets
    (I := fun s : History => Inv s.alloc s.live (covered s.adopted))
    (fun _ _ _ => inv_step) (fun s call t hinv hs hstep => ?_) inv_zeroed ?_ hrun
  · rw [recombines_iff_noAdjacent (inv_step hinv hstep)]
    exact noAdjacent_step_iff hinv hs.not_adjacent hstep
  · refine (recombines_iff_noAdjacent inv_zeroed).2 ?_
    simp [NoAdjacent, zeroed, BoundedRangeAllocator.zeroed]

end Recombine

/-! ## A page and two blocks -/

theorem page_start_pos : 0 < 0x10000 := by
  decide

theorem page_valid : 0x10000 ≤ 0x11000 := by
  decide

theorem page_stop_le : 0x11000 ≤ isizeMax + 1 := by
  decide

/-- The memory of the example, one page. -/
def page : Slice :=
  ⟨⟨0x10000, 0x11000⟩, page_start_pos, page_valid, page_stop_le⟩

/-- 16 bytes. -/
def bytes16 : Layout :=
  ⟨16, 1, Layout.twoWords.size_pos, exists_eq_pow 0, by decide⟩

/-- The rest of the page but 8 bytes. -/
def bytes4088 : Layout :=
  ⟨4088, 8, by decide, Layout.twoWords.align_pow, by decide⟩

/-- Two blocks from the start of the page. -/
def allocTwo : List Call :=
  [.adoptRange page, .allocNear bytes16 0x10000 .unbounded .unbounded,
    .allocNear bytes16 0x10000 .unbounded .unbounded]

/-- The upper block, which touches what is left of the page, is reclaimed first. -/
def reclaimDown : List Call :=
  allocTwo ++ [.reclaim 0 0 16, .reclaim 0 0 16]

/-- The lower block is reclaimed first. The upper one is then between two free ranges. -/
def reclaimUp : List Call :=
  allocTwo ++ [.reclaim 1 0 16, .reclaim 0 0 16]

/-- The page in two free ranges. -/
def pageInTwo : History :=
  ⟨⟨[⟨0x10000, 0x10010⟩, ⟨0x10010, 0x11000⟩], 0x10001, 0x11000⟩, [⟨0x10000, 0x11000⟩], []⟩

/-- All of the page is free again, but not in one range : a request that it served is refused. -/
theorem not_recombines_reclaimUp :
    Transition.run step zeroed reclaimUp = some pageInTwo ∧ pageInTwo.Reclaimed page ∧
      ((fresh page.range).allocNear bytes4088 0x10000 .unbounded .unbounded).isSome ∧
      pageInTwo.alloc.allocNear bytes4088 0x10000 .unbounded .unbounded = none ∧
      ¬Transition.Throughout step Recombines zeroed reclaimUp := by
  have hrun : Transition.run step zeroed reclaimUp = some pageInTwo := by
    decide +kernel
  refine ⟨hrun, ⟨by decide, by simp [pageInTwo], ?_⟩, by decide +kernel, by decide +kernel,
    fun h => ?_⟩
  · rw [Set.disjoint_left]
    rintro x ⟨⟨r, hr, hx⟩, hx'⟩ -
    obtain rfl := List.mem_singleton.1 hr
    refine hx' (Or.inr ?_)
    rcases Nat.lt_or_ge x 0x10010 with hlt | hge
    · exact ⟨⟨0x10000, 0x10010⟩, by simp [pageInTwo], hx.1, hlt⟩
    · exact ⟨⟨0x10010, 0x11000⟩, by simp [pageInTwo], hge, hx.2⟩
  · exact (h.last hrun).not_adjacent ⟨0x10000, 0x10010⟩ (by simp [pageInTwo])
      ⟨0x10010, 0x11000⟩ (by simp [pageInTwo]) (by decide) (by decide) rfl

/-- Two blocks given back from the upper one down. -/
theorem recombines_reclaimDown :
    Transition.Throughout step Recombines zeroed reclaimDown ↔
      Transition.Meets step CallsCleanly zeroed reclaimDown :=
  recombines_iff (show Transition.run step zeroed reclaimDown =
    some ⟨⟨[⟨0x10000, 0x11000⟩], 0x10001, 0x11000⟩, [⟨0x10000, 0x11000⟩], []⟩ by decide +kernel)

end History

end Diversion
