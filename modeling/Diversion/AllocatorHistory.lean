import Diversion.RangeAllocator

/-!
# Histories of the range allocator

A history of calls on an allocator that starts zeroed, with the memory it was given and the
blocks it handed out and not got back. What the exclusive `'static` borrows guarantee are
guards : adopted memory is new, and only (a part of) a live block is reclaimed.

`Inv` is kept by every call. Besides what `Sound` promises it says that every recorded
range, an empty one too, starts at or right behind a byte of adopted memory
(`Inv.anchored`). So new memory never has an empty range in it, and the search in
`adoptRange` splits the list where the new range belongs.
-/

namespace Diversion

open Extent BoundedRangeAllocator

/-- Memory to adopt. There is nothing at address 0 and nothing above `isize::MAX`. -/
structure Slice where
  range : Range
  start_pos : 0 < range.start
  valid : range.start ≤ range.stop
  stop_le : range.stop ≤ isizeMax + 1

/-- The allocator, what it was given and what it has handed out. -/
structure History where
  alloc : BoundedRangeAllocator
  adopted : List Range
  live : List Range
deriving DecidableEq

namespace History

/-- A fresh allocator. -/
def zeroed : History :=
  ⟨.zeroed, [], []⟩

/-- A call of the allocator with memory that is the caller's to give. -/
inductive Call where
  | adoptRange (slice : Slice)
  /-- Reclaim `len` bytes of a live block. -/
  | reclaim (block offset len : ℕ)
  | allocNear (layout : Layout) (ptr : ℕ) (start stop : Bound)

/-- What stays live of a block of which a part is reclaimed. -/
def remainder (block part : Range) : List Range :=
  [⟨block.start, part.start⟩, ⟨part.stop, block.stop⟩].filter fun r => r.start < r.stop

/-- `none` for a call that no caller may make. -/
def step (s : History) : Call → Option History
  | .adoptRange slice =>
    if ∀ r ∈ s.adopted, slice.range.Separate r then
      some { s with
        alloc := s.alloc.adoptRange slice.range
        adopted := slice.range :: s.adopted }
    else none
  | .reclaim i offset len =>
    match s.live[i]? with
    | some block =>
      let part : Range := ⟨block.start + offset, block.start + offset + len⟩
      if part.stop ≤ block.stop then
        some { s with
          alloc := s.alloc.reclaim part
          live := remainder block part ++ s.live.eraseIdx i }
      else none
    | none => none
  | .allocNear layout ptr start stop =>
    match s.alloc.allocNear layout ptr start stop with
    | some (alloc, block) => some { s with alloc, live := block :: s.live }
    | none => some s

/-- What holds of the recorded ranges and the live blocks at all times. -/
structure Sound (s : History) : Prop where
  sorted : s.alloc.ranges.Pairwise fun a b => a.start ≤ b.start
  valid : ∀ r ∈ s.alloc.ranges, r.start ≤ r.stop
  disjoint : s.alloc.ranges.Pairwise fun a b => Disjoint a.toSet b.toSet
  free : ∀ r ∈ s.alloc.ranges, ∀ b ∈ s.live, Disjoint r.toSet b.toSet
  live_disjoint : s.live.Pairwise fun a b => Disjoint a.toSet b.toSet
  live_adopted : ∀ b ∈ s.live, b.toSet ⊆ covered s.adopted
  empty_outside : ∀ r ∈ s.alloc.ranges, r.start = r.stop →
    ∀ b ∈ s.live ++ s.alloc.ranges, ¬(b.start < r.start ∧ r.start < b.stop)
  bounds : ∀ r ∈ s.alloc.ranges, 1 ≤ s.alloc.minAddr ∧ s.alloc.minAddr - 1 ≤ r.start ∧
    r.stop ≤ s.alloc.maxAddr

/-! ## The invariant -/

/-- `A` is the adopted memory. -/
structure Inv (a : BoundedRangeAllocator) (live : List Range) (A : Set ℕ) : Prop where
  chain : Chain a.ranges
  free : ∀ r ∈ a.ranges, ∀ b ∈ live, r.Apart b
  live_apart : live.Pairwise Apart
  live_pos : ∀ b ∈ live, b.start < b.stop
  live_subset : ∀ b ∈ live, b.toSet ⊆ A
  ranges_subset : ∀ r ∈ a.ranges, r.toSet ⊆ A
  anchored : ∀ r ∈ a.ranges, ∃ x ∈ A, x = r.start ∨ x + 1 = r.start
  bounds : ∀ r ∈ a.ranges, 1 ≤ a.minAddr ∧ a.minAddr ≤ r.start + 1 ∧ r.stop ≤ a.maxAddr
  minAddr_le : a.minAddr ≤ isizeMax + 1
  maxAddr_le : a.maxAddr ≤ isizeMax + 1
  addr : ∀ x ∈ A, 0 < x ∧ x ≤ isizeMax

section Inv

variable {a : BoundedRangeAllocator} {live live' : List Range} {A A' : Set ℕ}
  {r b range block : Range}

theorem inv_zeroed : Inv .zeroed [] (covered []) where
  chain := chain_nil
  free := by simp [BoundedRangeAllocator.zeroed]
  live_apart := List.Pairwise.nil
  live_pos := by simp
  live_subset := by simp
  ranges_subset := by simp [BoundedRangeAllocator.zeroed]
  anchored := by simp [BoundedRangeAllocator.zeroed]
  bounds := by simp [BoundedRangeAllocator.zeroed]
  minAddr_le := Nat.zero_le _
  maxAddr_le := Nat.zero_le _
  addr := by simp [covered]

theorem Inv.start_bounds (h : Inv a live A) (hr : r ∈ a.ranges) :
    0 < r.start ∧ r.start ≤ isizeMax + 1 := by
  obtain ⟨x, hx, hanchor⟩ := h.anchored r hr
  have := h.addr x hx
  omega

/-- Memory that is not adopted is apart from every recorded range. -/
theorem Inv.apart_of_disjoint (h : Inv a live A) (hr : r ∈ a.ranges)
    (hpos : range.start < range.stop) (hnew : Disjoint A range.toSet) : r.Apart range := by
  rw [Set.disjoint_left] at hnew
  rcases (h.chain.valid r hr).lt_or_eq with hlt | heq
  · refine Extent.apart_of_disjoint ?_ hlt hpos
    exact Set.disjoint_left.2 fun x hx => hnew (h.ranges_subset r hr hx)
  · -- an empty range is next to a byte of `A`, which is not in `range`
    obtain ⟨x, hx, hanchor⟩ := h.anchored r hr
    have hout : ¬(range.start ≤ x ∧ x < range.stop) := hnew hx
    unfold Apart
    omega

/-- The live blocks can be replaced with parts of them. -/
theorem Inv.of_parts (h : Inv a live A) (hpos : ∀ b ∈ live', b.start < b.stop)
    (hapart : live'.Pairwise Apart) (hwithin : ∀ b ∈ live', ∃ c ∈ live, b.Within c) :
    Inv a live' A :=
  { h with
    free := fun r hr b hb => by
      obtain ⟨c, hc, hbc⟩ := hwithin b hb
      exact (hbc.apart (h.free r hr c hc).symm).symm
    live_apart := hapart
    live_pos := hpos
    live_subset := fun b hb => by
      obtain ⟨c, hc, hbc⟩ := hwithin b hb
      exact hbc.toSet_subset.trans (h.live_subset c hc) }

/-! ## Adopting and reclaiming -/

/-- The bounds of the allocator take in an adopted range. -/
theorem adoptRange_bounds (hmin : a.minAddr ≤ isizeMax + 1) (hpos : range.start < range.stop)
    (hstop : range.stop ≤ isizeMax + 1) :
    1 ≤ (a.adoptRange range).minAddr ∧ (a.adoptRange range).minAddr ≤ range.start + 1 ∧
      range.stop ≤ (a.adoptRange range).maxAddr ∧ a.maxAddr ≤ (a.adoptRange range).maxAddr ∧
      (1 ≤ a.minAddr → (a.adoptRange range).minAddr ≤ a.minAddr) ∧
      ((a.adoptRange range).maxAddr = a.maxAddr ∨
        (a.adoptRange range).maxAddr = range.stop) := by
  have hne : range.start ≠ range.stop := hpos.ne
  rcases Nat.eq_zero_or_pos a.minAddr with hzero | hone
  · have hwrap : range.start < wrappingSub a.minAddr 1 := by
      rw [hzero]
      unfold wrappingSub wordSize isizeMax at *
      omega
    simp only [adoptRange, if_neg hne, if_pos hwrap]
    split_ifs <;> omega
  · have hsub : wrappingSub a.minAddr 1 = a.minAddr - 1 := by
      refine wrappingSub_eq hone ?_
      unfold isizeMax wordSize at *
      omega
    simp only [adoptRange, if_neg hne, hsub]
    split_ifs <;> omega

/-- Memory that is apart from the recorded ranges and the live blocks can be adopted. -/
theorem Inv.adoptRange (h : Inv a live A) (hpos : range.start < range.stop) (hsub : A ⊆ A')
    (hrange : range.toSet ⊆ A') (haddr : ∀ x ∈ A', 0 < x ∧ x ≤ isizeMax)
    (hranges : ∀ r ∈ a.ranges, r.Apart range) (hlive : ∀ b ∈ live, range.Apart b) :
    Inv (a.adoptRange range) live A' := by
  have hlast := haddr (range.stop - 1) (hrange ⟨by omega, by omega⟩)
  obtain ⟨hone, hmin, hmax, hmax', hmono, hmaxeq⟩ :=
    adoptRange_bounds h.minAddr_le hpos (by omega)
  have heq : (a.adoptRange range).ranges = insertRange a.ranges range := by
    rw [BoundedRangeAllocator.adoptRange, if_neg hpos.ne]
  have hgrown : ∀ r ∈ (a.adoptRange range).ranges, Grown a.ranges range r := fun r hr =>
    grown_of_mem_insertRange h.chain hranges hpos (heq ▸ hr)
  refine
    { chain := heq ▸ chain_insertRange h.chain hranges hpos
      free := fun r hr b hb => (hgrown r hr).apart (fun r hr => h.free r hr b hb) (hlive b hb)
        (h.live_pos b hb)
      live_apart := h.live_apart
      live_pos := h.live_pos
      live_subset := fun b hb => (h.live_subset b hb).trans hsub
      ranges_subset := fun r hr => (hgrown r hr).toSet_subset
        (fun r hr => (h.ranges_subset r hr).trans hsub) hrange
      anchored := fun r hr => ?_
      bounds := fun r hr => ?_
      minAddr_le := ?_
      maxAddr_le := ?_
      addr := haddr }
  · rcases (hgrown r hr).start_eq with hstart | ⟨old, hold, hstart⟩
    · exact ⟨range.start, hrange ⟨le_rfl, hpos⟩, Or.inl hstart.symm⟩
    · obtain ⟨x, hx, hanchor⟩ := h.anchored old hold
      exact ⟨x, hsub hx, hstart ▸ hanchor⟩
  · refine ⟨hone, ?_, ?_⟩
    · rcases (hgrown r hr).start_eq with hstart | ⟨old, hold, hstart⟩
      · omega
      · have := h.bounds old hold
        have := hmono this.1
        omega
    · rcases (hgrown r hr).stop_eq with hstop | ⟨old, hold, hstop⟩
      · omega
      · have := h.bounds old hold
        omega
  · omega
  · have := h.maxAddr_le
    omega

theorem adoptRange_of_empty (h : range.start = range.stop) : a.adoptRange range = a := by
  rw [BoundedRangeAllocator.adoptRange, if_pos h]

theorem mem_remainder (hb : b ∈ remainder block range) :
    b.start < b.stop ∧ (b = ⟨block.start, range.start⟩ ∨ b = ⟨range.stop, block.stop⟩) := by
  simpa [remainder, and_comm] using hb

/-- A live block is apart from the others. -/
theorem apart_of_mem_eraseIdx {i : ℕ} (h : live.Pairwise Apart) (hi : live[i]? = some block)
    (hb : b ∈ live.eraseIdx i) : block.Apart b := by
  obtain ⟨j, hji, hj⟩ := List.mem_eraseIdx_iff_getElem?.1 hb
  obtain ⟨hilt, rfl⟩ := List.getElem?_eq_some_iff.1 hi
  obtain ⟨hjlt, rfl⟩ := List.getElem?_eq_some_iff.1 hj
  rw [List.pairwise_iff_getElem] at h
  rcases Nat.lt_or_gt_of_ne hji with hlt | hgt
  · exact (h j i hjlt hilt hlt).symm
  · exact h i j hilt hjlt hgt

/-- A part of a live block can be reclaimed. -/
theorem Inv.reclaim {i : ℕ} (h : Inv a live A) (hi : live[i]? = some block)
    (hvalid : range.start ≤ range.stop) (hwithin : range.Within block) :
    Inv (a.reclaim range) (remainder block range ++ live.eraseIdx i) A := by
  have hblock := List.mem_of_getElem? hi
  have hother : ∀ b ∈ live.eraseIdx i, block.Apart b := fun b =>
    apart_of_mem_eraseIdx h.live_apart hi
  have hpart : ∀ b ∈ remainder block range, b.Within block ∧ range.Apart b := by
    intro b hb
    rcases (mem_remainder hb).2 with rfl | rfl
    · exact ⟨⟨le_rfl, hvalid.trans hwithin.2⟩, Or.inr le_rfl⟩
    · exact ⟨⟨hwithin.1.trans hvalid, le_rfl⟩, Or.inl le_rfl⟩
  have hrest : Inv a (remainder block range ++ live.eraseIdx i) A := by
    refine h.of_parts (fun b hb => ?_) ?_ fun b hb => ?_
    · rcases List.mem_append.1 hb with hb | hb
      · exact (mem_remainder hb).1
      · exact h.live_pos b (List.eraseIdx_subset hb)
    · refine List.pairwise_append.2 ⟨?_, h.live_apart.sublist (List.eraseIdx_sublist _ _), ?_⟩
      · exact List.Pairwise.filter _ (by simpa [Apart] using Or.inl hvalid)
      · exact fun b hb c hc => (hpart b hb).1.apart (hother c hc)
    · rcases List.mem_append.1 hb with hb | hb
      · exact ⟨block, hblock, (hpart b hb).1⟩
      · exact ⟨b, List.eraseIdx_subset hb, le_rfl, le_rfl⟩
  unfold BoundedRangeAllocator.reclaim
  rcases hvalid.lt_or_eq with hpos | hempty
  · refine hrest.adoptRange hpos subset_rfl
      (hwithin.toSet_subset.trans (h.live_subset block hblock)) h.addr
      (fun r hr => (hwithin.apart (h.free r hr block hblock).symm).symm) fun b hb => ?_
    rcases List.mem_append.1 hb with hb | hb
    · exact (hpart b hb).2
    · exact hwithin.apart (hother b hb)
  · rw [adoptRange_of_empty hempty]
    exact hrest

/-! ## Allocating -/

theorem Inv.allocNear {a' : BoundedRangeAllocator} {layout : Layout} {ptr : ℕ}
    {start stop : Bound} (h : Inv a live A)
    (halloc : a.allocNear layout ptr start stop = some (a', block)) :
    Inv a' (block :: live) A := by
  obtain ⟨pre, r, post, pieces, minAddr, maxAddr, hsplit, rfl, hlt, hcut⟩ := allocNear_spec halloc
  have hr : r ∈ a.ranges := by simp [hsplit]
  obtain ⟨hstart, hstart'⟩ := h.start_bounds hr
  have hspec := cut_spec hstart hstart' (hlt.le.trans h.maxAddr_le) hcut
  have hpos : block.start < block.stop := by
    have := hspec.stop_eq
    have := layout.size_pos
    omega
  have hblock : block.toSet ⊆ A :=
    hspec.within.toSet_subset.trans (h.ranges_subset r hr)
  have hchain := h.chain
  rw [hsplit] at hchain
  obtain ⟨-, hpost, hbetween⟩ := chain_append.1 hchain
  obtain ⟨-, hnext, -⟩ := chain_cons.1 hpost
  -- a range of the new list is an old one apart from the block, or a piece
  have hmem : ∀ p ∈ pre ++ (pieces ++ post),
      (p ∈ a.ranges ∧ p.Apart block) ∨ p ∈ pieces := by
    intro p hp
    simp only [List.mem_append] at hp
    rcases hp with hp | hp | hp
    · exact Or.inl ⟨by simp [hsplit, hp],
        Or.inl ((hbetween p hp r (by simp)).trans hspec.within.1)⟩
    · exact Or.inr hp
    · exact Or.inl ⟨by simp [hsplit, hp], Or.inr (hspec.within.2.trans (hnext p hp))⟩
  have hlive : ∀ p ∈ pieces, ∀ b ∈ live, p.Apart b := fun p hp b hb =>
    (hspec.pieces_within p hp).apart (h.free r hr b hb)
  refine
    { chain := hchain.replace hspec.chain hspec.pieces_within
      free := fun p hp b hb => ?_
      live_apart := List.pairwise_cons.2
        ⟨fun b hb => hspec.within.apart (h.free r hr b hb), h.live_apart⟩
      live_pos := fun b hb => (List.mem_cons.1 hb).elim (fun heq => heq ▸ hpos) (h.live_pos b)
      live_subset := fun b hb =>
        (List.mem_cons.1 hb).elim (fun heq => heq ▸ hblock) (h.live_subset b)
      ranges_subset := fun p hp => ?_
      anchored := fun p hp => ?_
      bounds := fun p hp => ?_
      minAddr_le := h.minAddr_le
      maxAddr_le := h.maxAddr_le
      addr := h.addr }
  · rcases List.mem_cons.1 hb with rfl | hb <;> rcases hmem p hp with ⟨hp, hapart⟩ | hp
    · exact hapart
    · exact hspec.apart p hp
    · exact h.free p hp b hb
    · exact hlive p hp b hb
  · rcases hmem p hp with ⟨hp, -⟩ | hp
    · exact h.ranges_subset p hp
    · exact (hspec.pieces_within p hp).toSet_subset.trans (h.ranges_subset r hr)
  · rcases hmem p hp with ⟨hp, -⟩ | hp
    · exact h.anchored p hp
    rcases hspec.start_eq p hp with heq | heq
    · rw [heq]
      exact h.anchored r hr
    · -- the last byte of the block
      exact ⟨block.stop - 1, hblock ⟨by omega, by omega⟩, Or.inr (by omega)⟩
  · rcases hmem p hp with ⟨hp, -⟩ | hp
    · exact h.bounds p hp
    · have hwithin := hspec.pieces_within p hp
      obtain ⟨hone, hmin, hmax⟩ := h.bounds r hr
      exact ⟨hone, hmin.trans (Nat.succ_le_succ hwithin.1), hwithin.2.trans hmax⟩

/-! ## Runs -/

theorem inv_step {s t : History} {call : Call} (h : Inv s.alloc s.live (covered s.adopted))
    (hstep : step s call = some t) : Inv t.alloc t.live (covered t.adopted) := by
  cases call with
  | adoptRange slice =>
    simp only [step] at hstep
    split_ifs at hstep with hnew
    obtain rfl := Option.some.inj hstep
    have hdisjoint : Disjoint (covered s.adopted) slice.range.toSet := by
      rw [Set.disjoint_left]
      rintro x ⟨r, hr, hx⟩ hx'
      exact Set.disjoint_left.1 (separate_iff.1 (hnew r hr)) hx' hx
    have hsub : covered s.adopted ⊆ covered (slice.range :: s.adopted) :=
      fun x ⟨r, hr, hx⟩ => ⟨r, List.mem_cons_of_mem _ hr, hx⟩
    have hrange : slice.range.toSet ⊆ covered (slice.range :: s.adopted) :=
      fun x hx => ⟨slice.range, by simp, hx⟩
    rcases slice.valid.lt_or_eq with hpos | hempty
    · refine h.adoptRange hpos hsub hrange ?_ (fun r hr => h.apart_of_disjoint hr hpos hdisjoint)
        fun b hb => ?_
      · rintro x ⟨r, hr, hx⟩
        rcases List.mem_cons.1 hr with rfl | hr
        · have := slice.start_pos
          have := slice.stop_le
          have := hx.1
          have := hx.2
          omega
        · exact h.addr x ⟨r, hr, hx⟩
      · refine (apart_of_disjoint ?_ (h.live_pos b hb) hpos).symm
        exact hdisjoint.mono_left (h.live_subset b hb)
    · -- an empty slice adds nothing
      have hcovered : covered (slice.range :: s.adopted) = covered s.adopted := by
        refine Set.Subset.antisymm ?_ hsub
        rintro x ⟨r, hr, hx⟩
        rcases List.mem_cons.1 hr with rfl | hr
        · exact absurd (hx.1.trans_lt hx.2) (by omega)
        · exact ⟨r, hr, hx⟩
      rw [adoptRange_of_empty hempty, hcovered]
      exact h
  | reclaim i offset len =>
    simp only [step] at hstep
    cases hi : s.live[i]? with
    | none => simp [hi] at hstep
    | some block =>
      simp only [hi] at hstep
      split_ifs at hstep with hpart
      obtain rfl := Option.some.inj hstep
      exact h.reclaim hi (Nat.le_add_right _ _) ⟨Nat.le_add_right _ _, hpart⟩
  | allocNear layout ptr start stop =>
    simp only [step] at hstep
    cases halloc : s.alloc.allocNear layout ptr start stop with
    | none =>
      rw [halloc] at hstep
      exact Option.some.inj hstep ▸ h
    | some result =>
      obtain ⟨a', block⟩ := result
      rw [halloc] at hstep
      obtain rfl := Option.some.inj hstep
      exact h.allocNear halloc

theorem Inv.sound {s : History} (h : Inv s.alloc s.live (covered s.adopted)) : Sound s where
  sorted := h.chain.starts_le
  valid := h.chain.valid
  disjoint := h.chain.apart.imp Apart.disjoint
  free := fun r hr b hb => (h.free r hr b hb).disjoint
  live_disjoint := h.live_apart.imp Apart.disjoint
  live_adopted := h.live_subset
  empty_outside := by
    rintro r hr hempty b hb ⟨hlt, hgt⟩
    have hapart : r = b ∨ r.Apart b := by
      rcases List.mem_append.1 hb with hb | hb
      · exact Or.inr (h.free r hr b hb)
      · exact h.chain.eq_or_apart hr hb
    rcases hapart with rfl | hapart
    · omega
    · unfold Apart at hapart
      omega
  bounds := by
    intro r hr
    have := h.bounds r hr
    omega

theorem inv_of_run {calls : List Call} {s : History}
    (h : Transition.run step zeroed calls = some s) : Inv s.alloc s.live (covered s.adopted) :=
  Transition.run_invariant_of_step
    (I := fun s : History => Inv s.alloc s.live (covered s.adopted)) (fun _ _ _ => inv_step)
    inv_zeroed h

/-- The recorded ranges and the live blocks are sound after every history of calls. -/
theorem sound_of_run {calls : List Call} {s : History}
    (h : Transition.run step zeroed calls = some s) : Sound s :=
  (inv_of_run h).sound

end Inv

/-- 64 bytes, aligned to 16. -/
def layout64 : Layout :=
  ⟨64, 16, by decide, exists_eq_pow 4, by decide⟩

/-- A page is adopted, two blocks are cut out of it, and parts of both are given back. -/
def sampleCalls : List Call :=
  [.adoptRange ⟨⟨0x10000, 0x11000⟩, by decide, by decide, by decide⟩,
    .allocNear layout64 0x10800 (.included (-0x400)) (.excluded 0x400),
    .allocNear ⟨24, 8, by decide, Layout.twoWords.align_pow, by decide⟩ 0x10800 .unbounded
      .unbounded,
    .reclaim 1 16 8, .reclaim 2 0 16]

theorem sound_sampleCalls : Sound
    { alloc :=
        { ranges := [⟨0x10000, 0x103f8⟩, ⟨0x10410, 0x10418⟩, ⟨0x10440, 0x11000⟩]
          minAddr := 0x10001
          maxAddr := 0x11000 }
      adopted := [⟨0x10000, 0x11000⟩]
      live := [⟨0x103f8, 0x10400⟩, ⟨0x10400, 0x10410⟩, ⟨0x10418, 0x10440⟩] } :=
  sound_of_run (show Transition.run step zeroed sampleCalls = _ by decide +kernel)

end History

end Diversion
