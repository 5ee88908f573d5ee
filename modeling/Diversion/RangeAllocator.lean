import Diversion.Word
import Diversion.Lib.Extent
import Diversion.Lib.PartitionPoint
import Diversion.Lib.Transition

/-!
# The range allocator

`BoundedRangeAllocator` (src/abi/src/context/process.rs) keeps the free parts of the memory
it was given as a list of ranges, sorted by address. `adoptRange` adds a range, growing one
that it touches if there is one; `allocNear` cuts a block out of the first range that has
room within the bounds. A range that is used up stays in the list as an empty one.
-/

namespace Diversion

open Extent PartitionPoint

/-- A range of addresses. -/
abbrev Range := Extent ℕ

/-- `std::alloc::Layout` of a type that is not zero-sized. -/
structure Layout where
  size : ℕ
  align : ℕ
  size_pos : 0 < size
  align_pow : ∃ k, align = 2 ^ k
  fits : (size + align - 1) / align * align ≤ isizeMax

/-- For the alignment of a layout. -/
theorem exists_eq_pow (k : ℕ) : ∃ j, 2 ^ k = 2 ^ j :=
  ⟨k, rfl⟩

/-- The layout of two words. -/
def Layout.twoWords : Layout where
  size := 16
  align := 8
  size_pos := by decide
  align_pow := exists_eq_pow 3
  fits := by decide

theorem Layout.align_le (layout : Layout) : layout.align ≤ isizeMax := by
  obtain ⟨k, hk⟩ := layout.align_pow
  have hpos : 0 < layout.align := hk ▸ Nat.two_pow_pos k
  have hone : 1 ≤ (layout.size + layout.align - 1) / layout.align := by
    rw [Nat.le_div_iff_mul_le hpos]
    have := layout.size_pos
    omega
  calc layout.align = 1 * layout.align := (Nat.one_mul _).symm
    _ ≤ (layout.size + layout.align - 1) / layout.align * layout.align :=
      Nat.mul_le_mul_right _ hone
    _ ≤ isizeMax := layout.fits

section Layout

variable {layout : Layout} {a : ℕ}

theorem Layout.align_pos (layout : Layout) : 0 < layout.align := by
  obtain ⟨k, hk⟩ := layout.align_pow
  exact hk ▸ Nat.two_pow_pos k

/-- The rounding down of the source. -/
theorem Layout.and_wrappingNeg_align (ha : a < wordSize) :
    a &&& wrappingNeg layout.align = Align.down a layout.align := by
  obtain ⟨k, hk⟩ := layout.align_pow
  have hle := layout.align_le
  rw [hk] at hle ⊢
  refine and_wrappingNeg_two_pow ha ?_
  by_contra hcon
  have := Nat.pow_le_pow_right (show 0 < 2 by decide) (Nat.not_lt.1 hcon)
  unfold isizeMax at hle
  omega

/-- An address that memory can have is rounded up without overflow. -/
theorem Layout.up_lt (ha : a ≤ isizeMax + 1) : Align.up a layout.align < wordSize := by
  have := Align.up_lt_add (x := a) layout.align_pos
  have := layout.align_le
  unfold isizeMax wordSize at *
  omega

theorem Layout.nextMultipleOf_align (ha : a ≤ isizeMax + 1) :
    nextMultipleOf a layout.align = Align.up a layout.align :=
  nextMultipleOf_eq layout.align_pos (layout.up_lt ha)

end Layout

/-- `std::ops::Bound<isize>`. -/
inductive Bound where
  | included (b : ℤ)
  | excluded (b : ℤ)
  | unbounded

/-- The least distance a start bound admits. -/
def Bound.least : Bound → Option ℤ
  | .excluded b => if b = isizeMax then none else some (b + 1)
  | .included b => some b
  | .unbounded => some (-(isizeMax : ℤ) - 1)

/-- The greatest distance an end bound admits. -/
def Bound.greatest : Bound → Option ℤ
  | .excluded b => if b = -(isizeMax : ℤ) - 1 then none else some (b - 1)
  | .included b => some b
  | .unbounded => some (isizeMax : ℤ)

/-- `BoundedRangeAllocator`. `minAddr` is one more than the lowest address, 0 if there is
none. -/
structure BoundedRangeAllocator where
  ranges : List Range
  minAddr : ℕ
  maxAddr : ℕ
deriving DecidableEq

namespace BoundedRangeAllocator

/-- `MIN_RANGE_LEN`, the size of a `usize`. -/
def minRangeLen : ℕ :=
  8

/-- The zeroed memory of a new process context. -/
def zeroed : BoundedRangeAllocator :=
  ⟨[], 0, 0⟩

/-- The list after a range was adopted. Index `index - 1` is out of bounds for `index` 0. -/
def insertRange (ranges : List Range) (range : Range) : List Range :=
  let index := partitionPoint (fun r => r.start < range.stop) ranges
  match ranges[index]?.filter fun next => next.start = range.stop with
  | some next =>
    -- grow downwards
    ranges.set index { next with start := range.start }
  | none =>
    match (if index = 0 then none else ranges[index - 1]?).filter
        fun prev => prev.stop = range.start with
    | some prev =>
      -- grow upwards
      ranges.set (index - 1) { prev with stop := range.stop }
    | none =>
      if minRangeLen ≤ range.stop - range.start then ranges.insertIdx index range else ranges

/-- `adopt_range`, with the bounds of all ranges. -/
def adoptRange (a : BoundedRangeAllocator) (range : Range) : BoundedRangeAllocator :=
  if range.start = range.stop then a
  else {
    ranges := insertRange a.ranges range
    minAddr := if range.start < wrappingSub a.minAddr 1 then range.start + 1 else a.minAddr
    maxAddr := if a.maxAddr < range.stop then range.stop else a.maxAddr }

/-- `reclaim` of a value that takes up the range. -/
def reclaim (a : BoundedRangeAllocator) (value : Range) : BoundedRangeAllocator :=
  a.adoptRange value

/-! ## Allocation -/

/-- What is left of a range, and the block at its start. -/
def allocFromStart (r : Range) (size : ℕ) : List Range × Range :=
  ([⟨r.start + size, r.stop⟩], ⟨r.start, r.start + size⟩)

/-- What is left of a range, and the block at its end. -/
def allocFromEnd (r : Range) (size : ℕ) : List Range × Range :=
  ([⟨r.start, r.stop - size⟩], ⟨r.stop - size, r.stop⟩)

/-- Split a range in three around a block at `addr`. What is in front of the block is
forgotten if it is small. -/
def allocSplit (r : Range) (addr size : ℕ) : List Range × Range :=
  let newLen := addr - r.start
  let newEnd := r.start + newLen
  ((if minRangeLen ≤ newLen then [⟨r.start, newEnd⟩] else []) ++ [⟨newEnd + size, r.stop⟩],
    ⟨newEnd, newEnd + size⟩)

/-- What is left of a range and the block that was cut out of it, if it has room. -/
def cut (layout : Layout) (minAddr maxAddr : ℕ) (r : Range) : Option (List Range × Range) :=
  let lowest := nextMultipleOf (max r.start minAddr) layout.align
  let highest := min (r.stop - layout.size) maxAddr &&& wrappingNeg layout.align
  if highest < lowest then none
  else if layout.align = 1 then
    if r.start = lowest then some (allocFromStart r layout.size)
    else if r.stop = highest + layout.size then some (allocFromEnd r layout.size)
    else some (allocSplit r lowest layout.size)
  else
    if r.stop = highest + layout.size then some (allocFromEnd r layout.size)
    else if r.start = lowest then some (allocFromStart r layout.size)
    else some (allocSplit r lowest layout.size)

/-- Probe the ranges from the lowest, up to the first one that begins at `maxAddr`. -/
def probe (layout : Layout) (minAddr maxAddr : ℕ) : List Range → Option (List Range × Range)
  | [] => none
  | r :: ranges =>
    if r.start < maxAddr then
      match cut layout minAddr maxAddr r with
      | some (pieces, block) => some (pieces ++ ranges, block)
      | none => (probe layout minAddr maxAddr ranges).map fun (ranges, block) =>
          (r :: ranges, block)
    else none

/-- `alloc_layout_between`, the lowest place between two addresses. -/
def allocLayoutBetween (a : BoundedRangeAllocator) (layout : Layout) (minAddr maxAddr : ℕ) :
    Option (BoundedRangeAllocator × Range) :=
  let minAddr := nextMultipleOf minAddr layout.align
  let maxAddr := maxAddr &&& wrappingNeg layout.align
  if maxAddr < minAddr ∨ a.maxAddr ≤ minAddr ∨ maxAddr ≤ wrappingSub a.minAddr 1 then none
  else
    let index := partitionPoint (fun r => r.stop ≤ minAddr) a.ranges
    (probe layout minAddr maxAddr (a.ranges.drop index)).map fun (ranges, block) =>
      ({ a with ranges := a.ranges.take index ++ ranges }, block)

/-- `alloc_layout_inside_bounds`, with the bounds relative to `addr`. -/
def allocLayoutInsideBounds (a : BoundedRangeAllocator) (layout : Layout) (addr : ℕ)
    (start stop : Bound) : Option (BoundedRangeAllocator × Range) := do
  let least ← start.least
  let greatest ← stop.greatest
  let minAddr := saturatingAddSigned addr least
  let maxAddr := min (saturatingAddSigned addr greatest) (a.maxAddr - layout.size)
  a.allocLayoutBetween layout minAddr maxAddr

/-- `alloc_near` of a type with the layout. -/
def allocNear (a : BoundedRangeAllocator) (layout : Layout) (ptr : ℕ) (start stop : Bound) :
    Option (BoundedRangeAllocator × Range) :=
  a.allocLayoutInsideBounds layout ptr start stop

/-! ## Adopting -/

section Adopt

variable {ranges : List Range} {range : Range}

theorem insertIdx_length_append {α : Type*} (pre post : List α) (a : α) :
    (pre ++ post).insertIdx pre.length a = pre ++ a :: post := by
  induction pre with
  | nil => rfl
  | cons b pre ih => simp [ih]

/-- A range of the list after `range` was adopted : an old one, the new one, or an old one
that `range` extends. -/
def Grown (ranges : List Range) (range r : Range) : Prop :=
  r ∈ ranges ∨ r = range ∨
    (∃ next ∈ ranges, range.stop = next.start ∧ r = ⟨range.start, next.stop⟩) ∨
    (∃ prev ∈ ranges, prev.stop = range.start ∧ r = ⟨prev.start, range.stop⟩)

/-- A recorded range ends where `range` starts, or starts where it ends. -/
def Touches (ranges : List Range) (range : Range) : Prop :=
  ∃ b ∈ ranges, b.stop = range.start ∨ b.start = range.stop

/-- The search splits the list at a range that is apart from all in it. -/
theorem exists_split (hchain : Chain ranges) (hapart : ∀ r ∈ ranges, r.Apart range) :
    ∃ pre post, ranges = pre ++ post ∧
      pre.length = partitionPoint (fun r => decide (r.start < range.stop)) ranges ∧
      (∀ r ∈ pre, r.stop ≤ range.start) ∧ ∀ r ∈ post, range.stop ≤ r.start := by
  have hmono : ranges.Pairwise fun a b =>
      decide (b.start < range.stop) = true → decide (a.start < range.stop) = true := by
    refine hchain.starts_le.imp fun {a b} hab hb => ?_
    simpa using hab.trans_lt (by simpa using hb)
  obtain ⟨hle, hpre, hpost⟩ := partitionPoint_spec hmono
  refine ⟨_, _, (List.take_append_drop _ ranges).symm, List.length_take_of_le hle,
    fun r hr => ?_, fun r hr => ?_⟩
  · have hlt := hpre r hr
    simp only [decide_eq_true_eq] at hlt
    rcases hapart r (List.mem_of_mem_take hr) with h | h
    · exact h
    · omega
  · simpa using hpost r hr

/-- A range that starts where `range` ends is the first one behind it. -/
theorem head_start_eq {pre post : List Range} {b : Range} (hchain : Chain (pre ++ post))
    (hpos : range.start < range.stop) (hpre : ∀ r ∈ pre, r.stop ≤ range.start)
    (hpost : ∀ r ∈ post, range.stop ≤ r.start) (hb : b ∈ pre ++ post)
    (hstart : b.start = range.stop) : ∃ next post', post = next :: post' ∧
      next.start = range.stop := by
  have hvalid := hchain.valid b hb
  rcases List.mem_append.1 hb with hb | hb
  · have := hpre b hb
    omega
  cases post with
  | nil => cases hb
  | cons next post' =>
    refine ⟨next, post', rfl, le_antisymm ?_ (hpost next (by simp))⟩
    rcases List.mem_cons.1 hb with rfl | hb
    · exact hstart.le
    · have := (List.pairwise_cons.1 (chain_append.1 hchain).2.1.starts_le).1 b hb
      omega

/-- A range that ends where `range` starts is the last one in front of it, or one that ends
there too is. -/
theorem last_stop_eq {pre post : List Range} {b : Range} (hchain : Chain (pre ++ post))
    (hpos : range.start < range.stop) (hpre : ∀ r ∈ pre, r.stop ≤ range.start)
    (hpost : ∀ r ∈ post, range.stop ≤ r.start) (hb : b ∈ pre ++ post)
    (hstop : b.stop = range.start) : ∃ pre' prev, pre = pre' ++ [prev] ∧
      prev.stop = range.start := by
  have hvalid := hchain.valid b hb
  rcases List.mem_append.1 hb with hb | hb
  · rcases List.eq_nil_or_concat pre with rfl | ⟨pre', prev, rfl⟩
    · cases hb
    rw [List.concat_eq_append] at *
    refine ⟨pre', prev, rfl, le_antisymm (hpre prev (by simp)) ?_⟩
    obtain ⟨-, hprev, hbetween⟩ := chain_append.1 (chain_append.1 hchain).1
    rcases List.mem_append.1 hb with hb | hb
    · have := hbetween b hb prev (by simp)
      have := hprev.valid prev (by simp)
      omega
    · obtain rfl := List.mem_singleton.1 hb
      exact hstop.ge
  · have := hpost b hb
    omega

/-- Adopting grows the range that starts where `range` ends, else the one that ends where it
starts. Without either it inserts a range that is big enough. -/
theorem insertRange_cases (hchain : Chain ranges) (hapart : ∀ r ∈ ranges, r.Apart range)
    (hpos : range.start < range.stop) :
    ∃ pre post, ranges = pre ++ post ∧
      (∀ r ∈ pre, r.stop ≤ range.start) ∧ (∀ r ∈ post, range.stop ≤ r.start) ∧
      ((∃ next post', post = next :: post' ∧ range.stop = next.start ∧
          insertRange ranges range = pre ++ ⟨range.start, next.stop⟩ :: post') ∨
        (∃ pre' prev, pre = pre' ++ [prev] ∧ prev.stop = range.start ∧
          (∀ b ∈ ranges, b.start ≠ range.stop) ∧
          insertRange ranges range = pre' ++ ⟨prev.start, range.stop⟩ :: post) ∨
        (¬Touches ranges range ∧ minRangeLen ≤ range.stop - range.start ∧
          insertRange ranges range = pre ++ range :: post) ∨
        (¬Touches ranges range ∧ range.stop - range.start < minRangeLen ∧
          insertRange ranges range = ranges)) := by
  obtain ⟨pre, post, rfl, hlen, hpre, hpost⟩ := exists_split hchain hapart
  refine ⟨pre, post, rfl, hpre, hpost, ?_⟩
  unfold insertRange
  rw [← hlen]
  simp only
  split
  · next next hnext =>
    obtain ⟨hget, heq⟩ := Option.filter_eq_some_iff.1 hnext
    obtain ⟨next', post', rfl⟩ : ∃ n p, post = n :: p := by
      cases post with
      | nil => simp at hget
      | cons n p => exact ⟨n, p, rfl⟩
    obtain rfl : next' = next := by simpa using hget
    exact Or.inl ⟨next', post', rfl, (by simpa using heq : _ = _).symm, by simp⟩
  · next hnext =>
    have hbelow : ∀ b ∈ pre ++ post, b.start ≠ range.stop := by
      intro b hb hstart
      obtain ⟨next, post', rfl, heq⟩ := head_start_eq hchain hpos hpre hpost hb hstart
      simp [Option.filter, heq] at hnext
    split
    · next prev hprev =>
      obtain ⟨hget, heq⟩ := Option.filter_eq_some_iff.1 hprev
      rcases List.eq_nil_or_concat pre with rfl | ⟨pre', prev', rfl⟩
      · simp at hget
      · obtain rfl : prev' = prev := by simpa using hget
        exact Or.inr (Or.inl ⟨pre', prev', by simp, (by simpa using heq), hbelow, by simp⟩)
    · next hprev =>
      have huntouched : ¬Touches (pre ++ post) range := by
        rintro ⟨b, hb, hstop | hstart⟩
        · obtain ⟨pre', prev, rfl, heq⟩ := last_stop_eq hchain hpos hpre hpost hb hstop
          simp [Option.filter, heq] at hprev
        · exact hbelow b hb hstart
      split_ifs with hbig
      · exact Or.inr (Or.inr (Or.inl ⟨huntouched, hbig, insertIdx_length_append pre post range⟩))
      · exact Or.inr (Or.inr (Or.inr ⟨huntouched, Nat.not_le.1 hbig, rfl⟩))

/-- Adopting keeps the list a chain. -/
theorem chain_insertRange (hchain : Chain ranges) (hapart : ∀ r ∈ ranges, r.Apart range)
    (hpos : range.start < range.stop) : Chain (insertRange ranges range) := by
  obtain ⟨pre, post, rfl, hpre, hpost, hcases⟩ := insertRange_cases hchain hapart hpos
  have hinsert : Chain (pre ++ range :: post) := hchain.insert hpos.le hpre hpost
  rcases hcases with ⟨next, post', rfl, -, heq⟩ | ⟨pre', prev, rfl, -, -, heq⟩ | ⟨-, -, heq⟩ |
    ⟨-, -, heq⟩ <;> rw [heq]
  · exact hinsert.merge
  · rw [List.append_assoc] at hinsert
    exact hinsert.merge
  · exact hinsert
  · exact hchain

theorem grown_of_mem_insertRange (hchain : Chain ranges) (hapart : ∀ r ∈ ranges, r.Apart range)
    (hpos : range.start < range.stop) {r : Range} (hr : r ∈ insertRange ranges range) :
    Grown ranges range r := by
  obtain ⟨pre, post, rfl, -, -, hcases⟩ := insertRange_cases hchain hapart hpos
  unfold Grown
  rcases hcases with ⟨next, post', rfl, hnext, heq⟩ | ⟨pre', prev, rfl, hprev, -, heq⟩ |
    ⟨-, -, heq⟩ | ⟨-, -, heq⟩ <;> rw [heq] at hr
  · rcases List.mem_append.1 hr with hr | hr
    · exact Or.inl (by simp [hr])
    rcases List.mem_cons.1 hr with rfl | hr
    · exact Or.inr (Or.inr (Or.inl ⟨next, by simp, hnext, rfl⟩))
    · exact Or.inl (by simp [hr])
  · rcases List.mem_append.1 hr with hr | hr
    · exact Or.inl (by simp [hr])
    rcases List.mem_cons.1 hr with rfl | hr
    · exact Or.inr (Or.inr (Or.inr ⟨prev, by simp, hprev, rfl⟩))
    · exact Or.inl (by simp [hr])
  · rcases List.mem_append.1 hr with hr | hr
    · exact Or.inl (by simp [hr])
    rcases List.mem_cons.1 hr with rfl | hr
    · exact Or.inr (Or.inl rfl)
    · exact Or.inl (by simp [hr])
  · exact Or.inl hr

/-- What is apart from the old ranges and the new one is apart from the list after. -/
theorem Grown.apart {r b : Range} (h : Grown ranges range r) (hranges : ∀ r ∈ ranges, r.Apart b)
    (hrange : range.Apart b) (hb : b.start < b.stop) : r.Apart b := by
  rcases h with h | rfl | ⟨next, hnext, heq, rfl⟩ | ⟨prev, hprev, heq, rfl⟩
  · exact hranges r h
  · exact hrange
  · exact hrange.merge (hranges next hnext) heq hb
  · exact (hranges prev hprev).merge hrange heq hb

theorem Grown.toSet_subset {r : Range} {A : Set ℕ} (h : Grown ranges range r)
    (hranges : ∀ r ∈ ranges, r.toSet ⊆ A) (hrange : range.toSet ⊆ A) : r.toSet ⊆ A := by
  rcases h with h | rfl | ⟨next, hnext, heq, rfl⟩ | ⟨prev, hprev, heq, rfl⟩
  · exact hranges r h
  · exact hrange
  · exact (toSet_merge_subset heq).trans (Set.union_subset hrange (hranges next hnext))
  · exact (toSet_merge_subset heq).trans (Set.union_subset (hranges prev hprev) hrange)

/-- A range starts where an old one or the new one did. -/
theorem Grown.start_eq {r : Range} (h : Grown ranges range r) :
    r.start = range.start ∨ ∃ old ∈ ranges, r.start = old.start := by
  rcases h with h | rfl | ⟨next, -, -, rfl⟩ | ⟨prev, hprev, -, rfl⟩
  · exact Or.inr ⟨r, h, rfl⟩
  · exact Or.inl rfl
  · exact Or.inl rfl
  · exact Or.inr ⟨prev, hprev, rfl⟩

theorem Grown.stop_eq {r : Range} (h : Grown ranges range r) :
    r.stop = range.stop ∨ ∃ old ∈ ranges, r.stop = old.stop := by
  rcases h with h | rfl | ⟨next, hnext, -, rfl⟩ | ⟨prev, -, -, rfl⟩
  · exact Or.inr ⟨r, h, rfl⟩
  · exact Or.inl rfl
  · exact Or.inr ⟨next, hnext, rfl⟩
  · exact Or.inl rfl

end Adopt

/-! ## Allocating -/

section Alloc

variable {layout : Layout} {minAddr maxAddr : ℕ} {r block : Range}
  {ranges ranges' pieces : List Range}

/-- What cutting a block out of a range does, whichever way it is cut. -/
structure CutFrom (r : Range) (size : ℕ) (pieces : List Range) (block : Range) : Prop where
  within : block.Within r
  stop_eq : block.stop = block.start + size
  chain : Chain pieces
  pieces_within : ∀ p ∈ pieces, p.Within r
  apart : ∀ p ∈ pieces, p.Apart block
  start_eq : ∀ p ∈ pieces, p.start = r.start ∨ p.start = block.stop

theorem cutFrom_start {size : ℕ} (h : r.start + size ≤ r.stop) :
    CutFrom r size (allocFromStart r size).1 (allocFromStart r size).2 := by
  refine ⟨⟨le_rfl, h⟩, rfl, chain_singleton h, ?_, ?_, ?_⟩ <;>
    intro p hp <;> obtain rfl := List.mem_singleton.1 hp
  · exact ⟨Nat.le_add_right _ _, le_rfl⟩
  · exact Or.inr le_rfl
  · exact Or.inr rfl

theorem cutFrom_end {size : ℕ} (h : r.start + size ≤ r.stop) :
    CutFrom r size (allocFromEnd r size).1 (allocFromEnd r size).2 := by
  have hlen : r.start ≤ r.stop - size := by omega
  have hstop : r.stop = r.stop - size + size := by omega
  refine ⟨⟨hlen, le_rfl⟩, hstop, chain_singleton hlen, ?_, ?_, ?_⟩ <;>
    intro p hp <;> obtain rfl := List.mem_singleton.1 hp
  · exact ⟨le_rfl, Nat.sub_le _ _⟩
  · exact Or.inl le_rfl
  · exact Or.inl rfl

theorem cutFrom_split {addr size : ℕ} (haddr : r.start ≤ addr) (h : addr + size ≤ r.stop) :
    CutFrom r size (allocSplit r addr size).1 (allocSplit r addr size).2 := by
  have hend : r.start + (addr - r.start) = addr := by omega
  have hrest : Chain [(⟨addr + size, r.stop⟩ : Range)] := chain_singleton h
  unfold allocSplit
  simp only [hend]
  have hpieces :
      Chain ((if minRangeLen ≤ addr - r.start then [(⟨r.start, addr⟩ : Range)] else []) ++
        [⟨addr + size, r.stop⟩]) := by
    split_ifs
    · exact chain_cons.2 ⟨haddr, by simp, hrest⟩
    · exact hrest
  have hmem : ∀ p ∈ (if minRangeLen ≤ addr - r.start then [(⟨r.start, addr⟩ : Range)] else []) ++
      [⟨addr + size, r.stop⟩], p = ⟨r.start, addr⟩ ∨ p = ⟨addr + size, r.stop⟩ := by
    intro p hp
    split_ifs at hp
    · simpa using hp
    · exact Or.inr (by simpa using hp)
  refine ⟨⟨haddr, h⟩, rfl, hpieces, ?_, ?_, ?_⟩ <;> intro p hp <;>
    rcases hmem p hp with rfl | rfl
  · exact ⟨le_rfl, by show addr ≤ r.stop; omega⟩
  · exact ⟨by show r.start ≤ addr + size; omega, le_rfl⟩
  · exact Or.inl le_rfl
  · exact Or.inr le_rfl
  · exact Or.inl rfl
  · exact Or.inr rfl

/-- The three ways a block is cut out of a range that has room for it. -/
theorem cut_cases (hstart : 0 < r.start) (hr : r.start ≤ isizeMax + 1)
    (hmin : minAddr ≤ isizeMax + 1) (h : cut layout minAddr maxAddr r = some (pieces, block)) :
    r.start + layout.size ≤ r.stop ∧
      ((pieces, block) = allocFromStart r layout.size ∨
        (pieces, block) = allocFromEnd r layout.size ∨
        ∃ addr, r.start ≤ addr ∧ addr + layout.size < r.stop ∧
          (pieces, block) = allocSplit r addr layout.size) := by
  have hlowest : max r.start minAddr ≤ nextMultipleOf (max r.start minAddr) layout.align := by
    refine le_nextMultipleOf ?_
    have := layout.align_le
    unfold isizeMax wordSize at *
    omega
  have hhighest : min (r.stop - layout.size) maxAddr &&& wrappingNeg layout.align ≤
      r.stop - layout.size := Nat.and_le_left.trans (min_le_left _ _)
  unfold cut at h
  simp only at h
  generalize nextMultipleOf (max r.start minAddr) layout.align = lowest at h hlowest
  generalize min (r.stop - layout.size) maxAddr &&& wrappingNeg layout.align = highest at h hhighest
  -- a range that begins behind address 0 has room, if the lowest address is not the highest
  split_ifs at h with hnone halign hs he he hs <;> rw [Option.some.injEq] at h <;>
    refine ⟨by omega, ?_⟩
  · exact Or.inl h.symm
  · exact Or.inr (Or.inl h.symm)
  · exact Or.inr (Or.inr ⟨lowest, by omega, by omega, h.symm⟩)
  · exact Or.inr (Or.inl h.symm)
  · exact Or.inl h.symm
  · exact Or.inr (Or.inr ⟨lowest, by omega, by omega, h.symm⟩)

theorem cut_spec (hstart : 0 < r.start) (hr : r.start ≤ isizeMax + 1)
    (hmin : minAddr ≤ isizeMax + 1) (h : cut layout minAddr maxAddr r = some (pieces, block)) :
    CutFrom r layout.size pieces block := by
  obtain ⟨hroom, heq | heq | ⟨addr, haddr, hlt, heq⟩⟩ := cut_cases hstart hr hmin h <;>
    obtain ⟨rfl, rfl⟩ := Prod.mk.inj heq
  · exact cutFrom_start hroom
  · exact cutFrom_end hroom
  · exact cutFrom_split haddr hlt.le

/-- Probing replaces one range with what is left of it. -/
theorem probe_spec (h : probe layout minAddr maxAddr ranges = some (ranges', block)) :
    ∃ pre r post pieces, ranges = pre ++ r :: post ∧ ranges' = pre ++ (pieces ++ post) ∧
      cut layout minAddr maxAddr r = some (pieces, block) := by
  induction ranges generalizing ranges' with
  | nil => cases h
  | cons r ranges ih =>
    unfold probe at h
    split_ifs at h
    cases hcut : cut layout minAddr maxAddr r with
    | some result =>
      obtain ⟨pieces, block'⟩ := result
      simp only [hcut, Option.some.injEq, Prod.mk.injEq] at h
      obtain ⟨rfl, rfl⟩ := h
      exact ⟨[], r, ranges, pieces, rfl, rfl, hcut⟩
    | none =>
      simp only [hcut, Option.map_eq_some_iff, Prod.mk.injEq] at h
      obtain ⟨⟨ranges₁, block₁⟩, hprobe, rfl, rfl⟩ := h
      obtain ⟨pre, r', post, pieces, rfl, rfl, hcut'⟩ := ih hprobe
      exact ⟨r :: pre, r', post, pieces, rfl, rfl, hcut'⟩

theorem allocLayoutBetween_spec {a a' : BoundedRangeAllocator}
    (h : a.allocLayoutBetween layout minAddr maxAddr = some (a', block)) :
    ∃ pre r post pieces minAddr maxAddr, a.ranges = pre ++ r :: post ∧
      a' = { a with ranges := pre ++ (pieces ++ post) } ∧ minAddr < a.maxAddr ∧
      cut layout minAddr maxAddr r = some (pieces, block) := by
  unfold allocLayoutBetween at h
  simp only at h
  generalize nextMultipleOf minAddr layout.align = minAddr at h
  generalize maxAddr &&& wrappingNeg layout.align = maxAddr at h
  split_ifs at h with hno
  simp only [not_or, not_le] at hno
  generalize partitionPoint _ a.ranges = index at h
  obtain ⟨⟨ranges, block'⟩, hprobe, heq⟩ := Option.map_eq_some_iff.1 h
  obtain ⟨rfl, rfl⟩ := Prod.mk.inj heq
  obtain ⟨pre, r, post, pieces, hsplit, rfl, hcut⟩ := probe_spec hprobe
  refine ⟨a.ranges.take index ++ pre, r, post, pieces, minAddr, maxAddr, ?_, ?_, hno.2.1, hcut⟩
  · rw [List.append_assoc, ← hsplit, List.take_append_drop]
  · rw [List.append_assoc]

/-- An allocation replaces one range with what is left of it. -/
theorem allocNear_spec {a a' : BoundedRangeAllocator} {ptr : ℕ} {start stop : Bound}
    (h : a.allocNear layout ptr start stop = some (a', block)) :
    ∃ pre r post pieces minAddr maxAddr, a.ranges = pre ++ r :: post ∧
      a' = { a with ranges := pre ++ (pieces ++ post) } ∧ minAddr < a.maxAddr ∧
      cut layout minAddr maxAddr r = some (pieces, block) := by
  simp only [allocNear, allocLayoutInsideBounds, Option.bind_eq_bind,
    Option.bind_eq_some_iff] at h
  obtain ⟨least, -, greatest, -, h⟩ := h
  exact allocLayoutBetween_spec h

/-- A block has the size that was asked for, wherever the ranges are. -/
theorem cut_stop_eq (h : cut layout minAddr maxAddr r = some (pieces, block)) :
    block.stop = block.start + layout.size := by
  unfold cut at h
  simp only at h
  split_ifs at h with hnone halign hs he he hs <;> simp only [Option.some.injEq] at h <;>
    obtain ⟨rfl, rfl⟩ := Prod.mk.inj h
  · rfl
  · simp only
    omega
  · rfl
  · simp only
    omega
  · rfl
  · rfl

theorem allocNear_stop_eq {a a' : BoundedRangeAllocator} {ptr : ℕ} {start stop : Bound}
    (h : a.allocNear layout ptr start stop = some (a', block)) :
    block.stop = block.start + layout.size := by
  obtain ⟨_, _, _, _, _, _, -, -, -, hcut⟩ := allocNear_spec h
  exact cut_stop_eq hcut

end Alloc

end BoundedRangeAllocator

end Diversion
