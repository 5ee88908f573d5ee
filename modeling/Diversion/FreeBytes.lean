import Diversion.AllocatorHistory

/-!
# The bytes the allocator has

What each call of a history does to the set of free bytes, those of the recorded ranges.
Adopting adds the range (`covered_insertRange`) unless it is small and touches nothing. An
allocation removes the block, and what `allocSplit` forgets in front of it (`covered_cut`).
No call moves any other byte (`accounts_of_run`).
-/

namespace Diversion

open Extent

namespace BoundedRangeAllocator

/-- The bytes of the recorded ranges. -/
def free (a : BoundedRangeAllocator) : Set ℕ :=
  covered a.ranges

/-! ## Adopting -/

section Adopt

variable {a : BoundedRangeAllocator} {ranges : List Range} {range : Range}

/-- A range that is too small to be recorded and that no recorded one can take in. -/
def Drops (ranges : List Range) (range : Range) : Prop :=
  range.stop - range.start < minRangeLen ∧ ¬Touches ranges range

theorem covered_insertRange (hchain : Chain ranges) (hapart : ∀ r ∈ ranges, r.Apart range)
    (hpos : range.start < range.stop) :
    (¬Drops ranges range → covered (insertRange ranges range) = covered ranges ∪ range.toSet) ∧
      (Drops ranges range → insertRange ranges range = ranges) := by
  obtain ⟨pre, post, rfl, -, -, hcases⟩ := insertRange_cases hchain hapart hpos
  rcases hcases with ⟨next, post', rfl, hnext, heq⟩ | ⟨pre', prev, rfl, hprev, -, heq⟩ |
    ⟨huntouched, hbig, heq⟩ | ⟨huntouched, hsmall, heq⟩
  · have hvalid := hchain.valid next (by simp)
    refine ⟨fun _ => ?_, fun h => absurd ⟨next, by simp, Or.inr hnext.symm⟩ h.2⟩
    rw [heq, covered_append, covered_cons, toSet_merge hnext hpos.le hvalid, covered_append,
      covered_cons]
    ac_rfl
  · have hvalid := hchain.valid prev (by simp)
    refine ⟨fun _ => ?_, fun h => absurd ⟨prev, by simp, Or.inl hprev⟩ h.2⟩
    rw [heq, covered_append, covered_cons, toSet_merge hprev hvalid hpos.le]
    simp only [covered_append, covered_cons, covered_nil, Set.union_empty]
    ac_rfl
  · refine ⟨fun _ => ?_, fun h => absurd h.1 (Nat.not_lt.2 hbig)⟩
    rw [heq, covered_append, covered_cons, covered_append]
    ac_rfl
  · exact ⟨fun h => absurd ⟨hsmall, huntouched⟩ h, fun _ => heq⟩

theorem free_adoptRange (hchain : Chain a.ranges) (hapart : ∀ r ∈ a.ranges, r.Apart range)
    (hpos : range.start < range.stop) :
    (¬Drops a.ranges range → (a.adoptRange range).free = a.free ∪ range.toSet) ∧
      (Drops a.ranges range → (a.adoptRange range).free = a.free) := by
  obtain ⟨hadds, hdrops⟩ := covered_insertRange hchain hapart hpos
  simp only [free, adoptRange, if_neg hpos.ne]
  exact ⟨hadds, fun h => by rw [hdrops h]⟩

end Adopt

/-! ## Allocating -/

section Alloc

variable {a a' : BoundedRangeAllocator} {layout : Layout} {minAddr maxAddr : ℕ}
  {r block : Range} {pieces : List Range}

/-- What is in front of a block from the inside of `r`, if it is too small for a range. -/
def forgotten (r block : Range) : Set ℕ :=
  {x | block.stop < r.stop ∧ block.start - r.start < minRangeLen ∧ r.start ≤ x ∧ x < block.start}

theorem covered_cut (hstart : 0 < r.start) (hr : r.start ≤ isizeMax + 1)
    (hmin : minAddr ≤ isizeMax + 1) (h : cut layout minAddr maxAddr r = some (pieces, block)) :
    covered pieces = r.toSet \ (block.toSet ∪ forgotten r block) := by
  have hsize := layout.size_pos
  obtain ⟨hroom, heq | heq | ⟨addr, haddr, hlt, heq⟩⟩ := cut_cases hstart hr hmin h <;>
    obtain ⟨rfl, rfl⟩ := Prod.mk.inj heq <;> ext x
  · simp only [covered_cons, covered_nil, toSet, forgotten, Set.union_empty,
      Set.mem_Ico, Set.mem_sdiff, Set.mem_union, Set.mem_ofPred_eq]
    omega
  · simp only [covered_cons, covered_nil, toSet, forgotten, Set.union_empty,
      Set.mem_Ico, Set.mem_sdiff, Set.mem_union, Set.mem_ofPred_eq]
    omega
  · have hend : r.start + (addr - r.start) = addr := by omega
    simp only [hend]
    split_ifs with hbig <;>
      simp only [covered_append, covered_cons, covered_nil, toSet, forgotten, Set.union_empty,
        Set.empty_union, Set.mem_Ico, Set.mem_sdiff, Set.mem_union, Set.mem_ofPred_eq] <;>
      omega

/-- An allocation takes the block and what is forgotten from one range, the only one they have
bytes in common with. -/
theorem free_allocNear {live : List Range} {A : Set ℕ} {ptr : ℕ} {start stop : Bound}
    (hinv : History.Inv a live A) (h : a.allocNear layout ptr start stop = some (a', block)) :
    ∃ r ∈ a.ranges, block.Within r ∧ a'.free = a.free \ (block.toSet ∪ forgotten r block) := by
  obtain ⟨pre, r, post, pieces, minAddr, maxAddr, hsplit, rfl, hlt, hcut⟩ := allocNear_spec h
  have hr : r ∈ a.ranges := by simp [hsplit]
  obtain ⟨hstart, hstart'⟩ := hinv.start_bounds hr
  have hmin : minAddr ≤ isizeMax + 1 := hlt.le.trans hinv.maxAddr_le
  have hwithin := (cut_spec hstart hstart' hmin hcut).within
  refine ⟨r, hr, hwithin, ?_⟩
  have hchain := hinv.chain
  rw [hsplit] at hchain
  obtain ⟨-, hrest, hbefore⟩ := chain_append.1 hchain
  have hafter := (chain_cons.1 hrest).2.1
  have htaken : block.toSet ∪ forgotten r block ⊆ r.toSet := by
    refine Set.union_subset hwithin.toSet_subset ?_
    rintro x ⟨hstop, -, hx, hx'⟩
    have := cut_stop_eq hcut
    exact ⟨hx, by omega⟩
  have hpre : Disjoint (covered pre) (block.toSet ∪ forgotten r block) :=
    (disjoint_covered.2 fun p hp =>
      Apart.disjoint (Or.inl (hbefore p hp r (by simp)))).mono_right htaken
  have hpost : Disjoint (covered post) (block.toSet ∪ forgotten r block) :=
    (disjoint_covered.2 fun p hp => Apart.disjoint (Or.inr (hafter p hp))).mono_right htaken
  simp only [free, hsplit, covered_append, covered_cons, covered_cut hstart hstart' hmin hcut,
    Set.union_sdiff_distrib, hpre.sdiff_eq_left, hpost.sdiff_eq_left]

end Alloc

end BoundedRangeAllocator

namespace History

open BoundedRangeAllocator

/-- Adopting a range that is not empty adds its bytes, or nothing if the range is dropped. -/
def Adopts (a : BoundedRangeAllocator) (range : Range) (a' : BoundedRangeAllocator) : Prop :=
  range.start < range.stop →
    (¬Drops a.ranges range → a'.free = a.free ∪ range.toSet) ∧
      (Drops a.ranges range → a'.free = a.free)

/-- What the call that leads from `s` to `t` does to the free bytes. -/
def Accounts (s t : History) : Call → Prop
  | .adoptRange slice => Adopts s.alloc slice.range t.alloc
  | .reclaim i offset len => ∀ block, s.live[i]? = some block →
      Adopts s.alloc ⟨block.start + offset, block.start + offset + len⟩ t.alloc
  | .allocNear layout ptr start stop =>
      (s.alloc.allocNear layout ptr start stop = none → t = s) ∧
        ∀ a' block, s.alloc.allocNear layout ptr start stop = some (a', block) →
          t.alloc = a' ∧ ∃ r ∈ s.alloc.ranges, block.Within r ∧
            a'.free = s.alloc.free \ (block.toSet ∪ forgotten r block)

/-- Every call after every history of calls moves the bytes it names, and no other ones. -/
theorem accounts_of_run {calls : List Call} {call : Call} {s t : History}
    (hrun : Transition.run step zeroed calls = some s) (hstep : step s call = some t) :
    Accounts s t call := by
  have hinv := inv_of_run hrun
  cases call with
  | adoptRange slice =>
    simp only [step] at hstep
    split_ifs at hstep with hnew
    obtain rfl := Option.some.inj hstep
    intro hpos
    refine free_adoptRange hinv.chain (fun r hr => hinv.apart_of_disjoint hr hpos ?_) hpos
    exact disjoint_covered.2 fun r hr => (separate_iff.1 (hnew r hr)).symm
  | reclaim i offset len =>
    intro block hi hpos
    simp only [step, hi] at hstep
    split_ifs at hstep with hpart
    obtain rfl := Option.some.inj hstep
    have hwithin : Within ⟨block.start + offset, block.start + offset + len⟩ block :=
      ⟨Nat.le_add_right _ _, hpart⟩
    exact free_adoptRange hinv.chain (fun r hr =>
      (hwithin.apart (hinv.free r hr block (List.mem_of_getElem? hi)).symm).symm) hpos
  | allocNear layout ptr start stop =>
    simp only [step] at hstep
    refine ⟨fun halloc => ?_, fun a' block halloc => ?_⟩
    · rw [halloc] at hstep
      exact (Option.some.inj hstep).symm
    · rw [halloc] at hstep
      obtain rfl := Option.some.inj hstep
      exact ⟨rfl, free_allocNear hinv halloc⟩

/-- Where `sampleCalls` ends. -/
def sampleEnd : History :=
  ⟨⟨[⟨0x10000, 0x103f8⟩, ⟨0x10410, 0x10418⟩, ⟨0x10440, 0x11000⟩], 0x10001, 0x11000⟩,
    [⟨0x10000, 0x11000⟩], [⟨0x103f8, 0x10400⟩, ⟨0x10400, 0x10410⟩, ⟨0x10418, 0x10440⟩]⟩

/-- Two bytes at `0x10442`. The two in front of them are forgotten. -/
def forgetful : Call :=
  .allocNear ⟨2, 2, by decide, ⟨1, rfl⟩, by decide⟩ 0x10442 (.included 0) (.included 0)

theorem accounts_forgetful :
    Accounts sampleEnd
      ⟨⟨[⟨0x10000, 0x103f8⟩, ⟨0x10410, 0x10418⟩, ⟨0x10444, 0x11000⟩], 0x10001, 0x11000⟩,
        [⟨0x10000, 0x11000⟩],
        [⟨0x10442, 0x10444⟩, ⟨0x103f8, 0x10400⟩, ⟨0x10400, 0x10410⟩, ⟨0x10418, 0x10440⟩]⟩
      forgetful :=
  accounts_of_run (show Transition.run step zeroed sampleCalls = some sampleEnd by decide +kernel)
    (by decide +kernel)

end History

end Diversion
