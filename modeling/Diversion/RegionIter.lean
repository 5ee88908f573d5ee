import Diversion.Lib.FromFn
import Diversion.RegionSearch

/-!
# The iterator over the address space

`Region::iter` (src/installer/arch/os/linux.rs) call by call, on mapped regions in any order :
they are sorted in reverse, so that the next one is the last of the vector. `yields_next` leads
back to `intersperse`, which the search goes through. From where the highest region that ends
up to the start ends, what the iterator yields tiles the address space (`tiling_iterOf`).
-/

namespace Diversion

open Extent FromFn PartitionPoint

namespace Region

variable {info : SysInfo}

/-- What the closure of the iterator owns. The regions are in reverse. -/
structure Iter where
  prevEnd : ℕ
  regions : List RegionInfo
deriving DecidableEq, Repr

/-- `Region::iter`, from the regions that were read. -/
def iterOf (info : SysInfo) (regions : List RegionInfo) (start : ℕ) : Iter :=
  let regions := regions.takeWhile fun region => region.start < info.maxAddress
  let regions := regions.insertionSort fun a b => b.start ≤ a.start
  let (index, prevEnd) := partitionPointS (fun region prevEnd =>
    if region.stop ≤ start then (false, region.stop) else (true, prevEnd)) regions info.minAddress
  ⟨prevEnd, regions.take index⟩

/-- One call of the closure. -/
def Iter.next (info : SysInfo) (it : Iter) : Option (Region × Iter) :=
  match it.regions.getLast? with
  | some next =>
    if it.prevEnd < next.start then
      -- an unmapped region up to the next one
      some (⟨⟨it.prevEnd, next.start⟩, none⟩, { it with prevEnd := next.start })
    else some (⟨⟨next.start, next.stop⟩, some next.prot⟩, ⟨next.stop, it.regions.dropLast⟩)
  | none =>
    if it.prevEnd < info.maxAddress then
      some (⟨⟨it.prevEnd, info.maxAddress⟩, none⟩, { it with prevEnd := info.maxAddress })
    else none

/-- Mapped regions in the user address space, in any order. -/
structure MappedRegions (info : SysInfo) where
  regions : List RegionInfo
  apart : regions.Pairwise fun a b => a.stop ≤ b.start ∨ b.stop ≤ a.start
  valid : ∀ m ∈ regions, m.start < m.stop
  min_le : ∀ m ∈ regions, info.minAddress ≤ m.start
  le_max : ∀ m ∈ regions, m.stop ≤ info.maxAddress

/-! ## The calls -/

section Next

variable {prevEnd : ℕ} {next : RegionInfo} {post : List RegionInfo}

theorem next_gap (hlt : prevEnd < next.start) :
    Iter.next info ⟨prevEnd, (next :: post).reverse⟩ =
      some (⟨⟨prevEnd, next.start⟩, none⟩, ⟨next.start, (next :: post).reverse⟩) := by
  simp [Iter.next, hlt]

theorem next_mapped (hle : next.start ≤ prevEnd) :
    Iter.next info ⟨prevEnd, (next :: post).reverse⟩ =
      some (⟨⟨next.start, next.stop⟩, some next.prot⟩, ⟨next.stop, post.reverse⟩) := by
  simp [Iter.next, Nat.not_lt.2 hle]

/-- The calls yield the mapped regions and what is between them, and come to an end. -/
theorem yields_next : Yields (Iter.next info) ⟨prevEnd, post.reverse⟩
    (intersperse info.maxAddress prevEnd post) := by
  induction post generalizing prevEnd with
  | nil =>
    unfold intersperse
    split_ifs with hlt
    · exact .cons (t := ⟨info.maxAddress, []⟩) (by simp [Iter.next, hlt])
        (.nil (by simp [Iter.next]))
    · exact .nil (by simp [Iter.next, hlt])
  | cons next post ih =>
    unfold intersperse
    split_ifs with hlt
    · exact .cons (next_gap hlt) (.cons (next_mapped le_rfl) ih)
    · exact .cons (next_mapped (Nat.not_lt.1 hlt)) ih

end Next

/-! ## What the calls yield -/

section Intersperse

variable {maxAddress prevEnd : ℕ} {post : List RegionInfo}

/-- The mapped region a yielded one is. -/
def info? (region : Region) : Option RegionInfo :=
  region.prot.map fun prot => ⟨region.range.start, region.range.stop, prot⟩

theorem tiles_intersperse (hord : post.Pairwise fun a b => a.stop ≤ b.start)
    (hval : ∀ m ∈ post, m.start < m.stop) (hprev : ∀ m ∈ post, prevEnd ≤ m.start)
    (hmax : ∀ m ∈ post, m.stop ≤ maxAddress) (hle : prevEnd ≤ maxAddress) :
    Tiles prevEnd ((intersperse maxAddress prevEnd post).map Region.range) maxAddress := by
  induction post generalizing prevEnd with
  | nil =>
    unfold intersperse
    split_ifs with hlt
    · exact ⟨rfl, hlt, rfl⟩
    · exact le_antisymm hle (Nat.not_lt.1 hlt)
  | cons next post ih =>
    obtain ⟨hnext, hord⟩ := List.pairwise_cons.1 hord
    have hrest := ih hord (fun m hm => hval m (by simp [hm])) hnext
      (fun m hm => hmax m (by simp [hm])) (hmax next (by simp))
    have hlt := hval next (by simp)
    have hge := hprev next (by simp)
    unfold intersperse
    split_ifs with hgap
    · exact ⟨rfl, hgap, rfl, hlt, hrest⟩
    · exact ⟨le_antisymm (Nat.not_lt.1 hgap) hge, hge.trans_lt hlt, hrest⟩

theorem filterMap_intersperse (maxAddress prevEnd : ℕ) (post : List RegionInfo) :
    (intersperse maxAddress prevEnd post).filterMap info? = post := by
  induction post generalizing prevEnd with
  | nil =>
    unfold intersperse
    split_ifs <;> rfl
  | cons next post ih =>
    unfold intersperse
    rw [List.filterMap_append, List.filterMap_cons, ih]
    split_ifs <;> rfl

end Intersperse

/-! ## Regions in any order -/

section AnyOrder

variable (maps : MappedRegions info) {start : ℕ}

theorem pairwise_sorted : (maps.regions.insertionSort fun a b => a.start ≤ b.start).Pairwise
    fun a b => a.stop ≤ b.start := by
  have htotal : Std.Total fun a b : RegionInfo => a.start ≤ b.start := ⟨fun a b => Nat.le_total _ _⟩
  have htrans : IsTrans RegionInfo fun a b => a.start ≤ b.start := ⟨fun a b c => Nat.le_trans⟩
  have hsorted := List.pairwise_insertionSort (fun a b : RegionInfo => a.start ≤ b.start)
    maps.regions
  have hapart := maps.apart.perm (List.perm_insertionSort (fun a b => a.start ≤ b.start) _).symm
    Or.symm
  refine (hsorted.and hapart).imp_of_mem fun {a b} ha hb ⟨hle, hab⟩ =>
    hab.resolve_right fun hba => ?_
  have := maps.valid b (by simpa using hb)
  have := maps.valid a (by simpa using ha)
  omega

/-- The regions from the lowest to the highest. -/
def MappedRegions.sorted : Mappings info where
  regions := maps.regions.insertionSort fun a b => a.start ≤ b.start
  ordered := pairwise_sorted maps
  valid := fun m hm => maps.valid m ((List.mem_insertionSort _).1 hm)
  stop_le := fun m hm _ => by
    have := maps.le_max m ((List.mem_insertionSort _).1 hm)
    have := info.max_le
    omega

theorem takeWhile_eq {l : List RegionInfo} (h : ∀ m ∈ l, m ∈ maps.regions) :
    l.takeWhile (fun region => region.start < info.maxAddress) = l :=
  List.takeWhile_eq_self_iff.2 fun m hm =>
    decide_eq_true ((maps.valid m (h m hm)).trans_le (maps.le_max m (h m hm)))

/-- The order in which the regions were read makes no difference. -/
theorem iterOf_sorted : iterOf info maps.regions start = iterOf info maps.sorted.regions start := by
  have htotal : Std.Total fun a b : RegionInfo => b.start ≤ a.start := ⟨fun a b => Nat.le_total _ _⟩
  have htrans : IsTrans RegionInfo fun a b => b.start ≤ a.start :=
    ⟨fun a b c hab hbc => Nat.le_trans hbc hab⟩
  have hsymm : Std.Symm fun a b : RegionInfo => a.stop ≤ b.start ∨ b.stop ≤ a.start :=
    ⟨fun _ _ => Or.symm⟩
  have hperm : maps.sorted.regions.Perm maps.regions := List.perm_insertionSort _ _
  have hsort : maps.regions.insertionSort (fun a b => b.start ≤ a.start) =
      maps.sorted.regions.insertionSort fun a b => b.start ≤ a.start := by
    refine List.Perm.eq_of_pairwise (fun a b ha hb hab hba => ?_)
      (List.pairwise_insertionSort _ _) (List.pairwise_insertionSort _ _)
      ((List.perm_insertionSort _ _).trans (hperm.symm.trans (List.perm_insertionSort _ _).symm))
    have ha : a ∈ maps.regions := by simpa using ha
    have hb : b ∈ maps.regions := by simpa [hperm.mem_iff] using hb
    -- regions that start at the same address are not apart
    by_contra hne
    have := maps.apart.forall ha hb hne
    have := maps.valid a ha
    have := maps.valid b hb
    omega
  simp only [iterOf, takeWhile_eq maps fun m hm => hm,
    takeWhile_eq maps fun m hm => hperm.mem_iff.1 hm, hsort]

end AnyOrder

/-! ## The tiling -/

section Tiling

variable (maps : MappedRegions info) (start : ℕ)

/-- The end of the highest mapped region that ends up to `start`. -/
def IsBase (base : ℕ) : Prop :=
  (base = info.minAddress ∧ ∀ m ∈ maps.regions, start < m.stop) ∨
    ∃ m ∈ maps.regions, base = m.stop ∧ m.stop ≤ start ∧
      ∀ m' ∈ maps.regions, m'.stop ≤ start → m'.stop ≤ m.stop

/-- What the regions promise : they fill the address space from the base on, in order, and what
the maps do not list is free. -/
structure Tiling (regions : List Region) : Prop where
  tiles : ∃ base, IsBase maps start base ∧
    Tiles base (regions.map Region.range) info.maxAddress
  increasing : (regions.filterMap info?).Pairwise fun a b => a.stop ≤ b.start
  mapped : ∀ m, m ∈ regions.filterMap info? ↔ m ∈ maps.regions ∧ start < m.stop
  free : ∀ g ∈ regions, g.prot = none →
    ∀ m ∈ maps.regions, m.stop ≤ g.range.start ∨ g.range.stop ≤ m.start

/-- What is dropped ends up to `start`. -/
theorem Splits.pre_le_start {pre post : List RegionInfo} {prevEnd : ℕ}
    (h : Splits maps.sorted start pre post prevEnd) (hpre : ∀ m ∈ pre, m ∈ maps.regions)
    {m : RegionInfo} (hm : m ∈ pre) : m.stop ≤ start := by
  have hle := h.pre_le m hm
  rcases h.prevEnd_eq with rfl | ⟨m', -, rfl, hle'⟩
  · have := maps.valid m (hpre m hm)
    have := maps.min_le m (hpre m hm)
    omega
  · exact hle.trans hle'

/-- The iterator ends. What it yields tiles the address space, with every mapped region that
ends above `start` in its place. -/
theorem tiling_iterOf : ∃ regions, Tiling maps start regions ∧
    Yields (Iter.next info) (iterOf info maps.regions start) regions := by
  have hperm : maps.sorted.regions.Perm maps.regions := List.perm_insertionSort _ _
  obtain ⟨pre, post, prevEnd, index, hsplits, hsearch, htake⟩ := exists_splits maps.sorted start
  have hiter : iterOf info maps.regions start = ⟨prevEnd, post.reverse⟩ := by
    rw [iterOf_sorted]
    simp only [iterOf, hsearch, htake]
  have hsorted : maps.sorted.regions = pre ++ post := by
    rw [← hsplits.eq, takeWhile_eq maps fun m hm => hperm.mem_iff.1 hm]
  have hmem : ∀ m, m ∈ maps.regions ↔ m ∈ pre ∨ m ∈ post := fun m => by
    rw [← hperm.mem_iff, hsorted, List.mem_append]
  have hpre : ∀ m ∈ pre, m ∈ maps.regions := fun m hm => (hmem m).2 (Or.inl hm)
  have hpost : ∀ m ∈ post, m ∈ maps.regions := fun m hm => (hmem m).2 (Or.inr hm)
  have hord := maps.sorted.ordered
  rw [hsorted] at hord
  obtain ⟨-, hincreasing, hbetween⟩ := List.pairwise_append.1 hord
  have hlow : ∀ m ∈ pre, m.stop ≤ start := fun m hm => hsplits.pre_le_start maps start hpre hm
  have hval : ∀ m ∈ post, m.start < m.stop := fun m hm => maps.valid m (hpost m hm)
  have hprev : (∀ m ∈ post, prevEnd ≤ m.start) ∧ prevEnd ≤ info.maxAddress := by
    rcases hsplits.prevEnd_eq with rfl | ⟨m', hm', rfl, -⟩
    · exact ⟨fun m hm => maps.min_le m (hpost m hm), info.min_lt_max.le⟩
    · exact ⟨fun m hm => hbetween m' hm' m hm, maps.le_max m' (hpre m' hm')⟩
  refine ⟨intersperse info.maxAddress prevEnd post, ?_, hiter ▸ yields_next⟩
  refine
    { tiles := ⟨prevEnd, ?_, tiles_intersperse hincreasing hval hprev.1
        (fun m hm => maps.le_max m (hpost m hm)) hprev.2⟩
      increasing := by rwa [filterMap_intersperse]
      mapped := fun m => ?_
      free := fun g hg hfree m hm => ?_ }
  · rcases hsplits.prevEnd_eq with heq | ⟨m', hm', heq, hle⟩
    · refine Or.inl ⟨heq, fun m hm => ?_⟩
      rcases (hmem m).1 hm with hm' | hm'
      · -- a region that is dropped would end below `minAddress`
        have := hsplits.pre_le m hm'
        have := maps.valid m hm
        have := maps.min_le m hm
        omega
      · exact hsplits.le_post m hm'
    · refine Or.inr ⟨m', hpre m' hm', heq, hle, fun m hm hstop => ?_⟩
      rcases (hmem m).1 hm with hm | hm
      · exact heq ▸ hsplits.pre_le m hm
      · exact absurd hstop (Nat.not_le.2 (hsplits.le_post m hm))
  · rw [filterMap_intersperse, hmem]
    constructor
    · exact fun hm => ⟨Or.inr hm, hsplits.le_post m hm⟩
    · rintro ⟨hm | hm, hlt⟩
      · exact absurd (hlow m hm) (Nat.not_le.2 hlt)
      · exact hm
  · obtain ⟨hstart, -, hapart⟩ := free_of_mem_intersperse hincreasing hval
      (fun m hm => (hval m hm).trans_le (maps.le_max m (hpost m hm))) hg (by simp [hfree])
    rcases (hmem m).1 hm with hm | hm
    · refine Or.inl ((hsplits.pre_le m hm).trans ?_)
      exact (intersperse_ordered _ hincreasing hval).2 hprev.1 g hg
    · exact hapart m hm

end Tiling

/-- Two mapped pages, the higher one read first. -/
def MappedRegions.sample : MappedRegions linuxInfo where
  regions := [⟨0x402000, 0x403000, ⟨1⟩⟩, ⟨0x400000, 0x401000, ⟨1⟩⟩]
  apart := by decide
  valid := by decide
  min_le := by decide
  le_max := by decide

/-- From the end of the lower one on, the higher one is the only mapped region that is yielded. -/
theorem tiling_iterOf_sample : ∃ regions,
    Yields (Iter.next linuxInfo) (iterOf linuxInfo MappedRegions.sample.regions 0x401000) regions ∧
      ∀ m, m ∈ regions.filterMap info? ↔ m = ⟨0x402000, 0x403000, ⟨1⟩⟩ := by
  obtain ⟨regions, htiling, hyields⟩ := tiling_iterOf MappedRegions.sample 0x401000
  refine ⟨regions, hyields, fun m => (htiling.mapped m).trans ?_⟩
  simp only [MappedRegions.sample, List.mem_cons, List.not_mem_nil, or_false]
  constructor
  · rintro ⟨rfl | rfl, hlt⟩
    · rfl
    · exact absurd hlt (by decide)
  · rintro rfl
    exact ⟨Or.inl rfl, by decide⟩

end Region

end Diversion
