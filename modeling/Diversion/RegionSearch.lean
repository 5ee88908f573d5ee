import Diversion.AllocNear
import Diversion.Protection
import Mathlib.Data.List.Sort
import Mathlib.Data.List.TakeWhile

/-!
# The search for a free region

`Region::alloc_near` (src/installer/arch/os/memory.rs) goes through the regions of the address
space and tries to map pages in a free one that has room within the bounds. A round reads
the regions again, from a cursor on (`iter`, src/installer/arch/os/linux.rs), and ends when a
start was tried. `StartAt` is the place of an allocation, whatever the search does.

The first start of a round is the lowest place, for every cursor up to its end
(`findSome?_iter_eq`) : a free region is reported from its true beginning, and the cursor is
not looked at. So a start that was refused is tried again (`search_refused`).
-/

namespace Diversion

open Extent PartitionPoint

/-- `SysInfo`, with what the assertion in `SysInfo::new` is for. -/
structure SysInfo where
  allocGranularity : ℕ
  minAddress : ℕ
  maxAddress : ℕ
  granularity_pow : ∃ k, allocGranularity = 2 ^ k
  min_pos : 0 < minAddress
  min_lt_max : minAddress < maxAddress
  min_dvd : allocGranularity ∣ minAddress
  max_dvd : allocGranularity ∣ maxAddress
  /-- `max_address` is at most `VA_MAX - page_size + 1`. -/
  max_le : maxAddress + allocGranularity ≤ isizeMax + 1

theorem SysInfo.granularity_pos (info : SysInfo) : 0 < info.allocGranularity := by
  obtain ⟨k, hk⟩ := info.granularity_pow
  exact hk ▸ Nat.two_pow_pos k

/-- The regions of the file of mappings, in order. -/
structure Mappings (info : SysInfo) where
  regions : List RegionInfo
  ordered : regions.Pairwise fun a b => a.stop ≤ b.start
  valid : ∀ m ∈ regions, m.start < m.stop
  /-- What is not above the user address space ends in it. -/
  stop_le : ∀ m ∈ regions, m.start < info.maxAddress → m.stop ≤ isizeMax + 1

/-- `Region`. It is free if it has no protection. -/
structure Region where
  range : Range
  prot : Option Protection
deriving DecidableEq

namespace Region

variable {info : SysInfo}

/-! ## The regions from a cursor on -/

/-- What the iterator yields : the mapped regions, and the free ones between them. -/
def intersperse (maxAddress : ℕ) : ℕ → List RegionInfo → List Region
  | prevEnd, [] =>
    if prevEnd < maxAddress then [⟨⟨prevEnd, maxAddress⟩, none⟩] else []
  | prevEnd, next :: regions =>
    (if prevEnd < next.start then [⟨⟨prevEnd, next.start⟩, none⟩] else []) ++
      ⟨⟨next.start, next.stop⟩, some next.prot⟩ :: intersperse maxAddress next.stop regions

/-- `Region::iter`. The predicate of the search notes the end of what it drops. -/
def iter (maps : Mappings info) (start : ℕ) : List Region :=
  let regions := maps.regions.takeWhile fun region => region.start < info.maxAddress
  let regions := regions.insertionSort fun a b => b.start ≤ a.start
  let (index, prevEnd) := partitionPointS (fun region prevEnd =>
    if region.stop ≤ start then (false, region.stop) else (true, prevEnd)) regions info.minAddress
  intersperse info.maxAddress prevEnd (regions.take index).reverse

/-! ## The search -/

/-- The arguments of `alloc_between`, as `alloc_inside_bounds` passes them. -/
structure Request (info : SysInfo) where
  minAddr : ℕ
  maxAddr : ℕ
  size : ℕ
  size_pos : 0 < size
  min_le : info.minAddress ≤ minAddr
  min_le_max : minAddr ≤ maxAddr
  max_le : maxAddr + size ≤ info.maxAddress

namespace Request

/-- The lowest start to try, on the granularity. -/
def minAllocAddr (req : Request info) : ℕ :=
  req.minAddr &&& wrappingNeg info.allocGranularity

/-- The end of the search, on the granularity. -/
def maxAllocAddr (req : Request info) : ℕ :=
  nextMultipleOf (req.maxAddr + req.size) info.allocGranularity

/-- Where the search would allocate in a region, and how much. -/
def startIn (req : Request info) (region : Region) : Option (ℕ × ℕ) :=
  if region.prot.isNone then
    let min := max (nextMultipleOf region.range.start info.allocGranularity) req.minAllocAddr
    if min ≤ req.maxAddr then
      let max := nextMultipleOf (Max.max min req.minAddr + req.size) info.allocGranularity
      if max ≤ region.range.stop then some (min, max - min) else none
    else none
  else none

end Request

/-- `alloc_at`, where `accepts` is at which addresses and lengths the system maps pages. -/
def allocAt (info : SysInfo) (accepts : ℕ → ℕ → Bool) (addr size : ℕ) :
    Except IoError (Option Range) :=
  if addr &&& (info.allocGranularity - 1) ≠ 0 then .error ⟨"invalid input parameter"⟩
  else
    let len := nextMultipleOf size info.allocGranularity
    if accepts addr len then .ok (some ⟨addr, addr + len⟩) else .ok none

/-- How a round ends. -/
inductive Outcome where
  | done (result : Except IoError (Option Range))
  /-- Another round, from the cursor on. -/
  | again (curAllocAddr : ℕ)

/-- The inner loop of `alloc_between`, with the starts it tries. -/
def round (req : Request info) (accepts : ℕ → ℕ → Bool) :
    ℕ → List Region → List (ℕ × ℕ) × Outcome
  | _, [] => ([], .done (.ok none))
  | curAllocAddr, region :: regions =>
    match req.startIn region with
    | some (addr, len) =>
      match allocAt info accepts addr len with
      | .ok (some region) => ([(addr, len)], .done (.ok (some region)))
      | .ok none => ([(addr, len)], .again (curAllocAddr + info.allocGranularity))
      | .error err => ([(addr, len)], .done (.error err))
    | none =>
      let curAllocAddr := nextMultipleOf region.range.stop info.allocGranularity
      if req.maxAllocAddr ≤ curAllocAddr then ([], .done (.ok none))
      else round req accepts curAllocAddr regions

/-- `fuel` rounds of `alloc_between` : the starts that were tried, and the result if there is
one. -/
def search (maps : Mappings info) (req : Request info) (accepts : ℕ → ℕ → Bool) :
    ℕ → ℕ → List (ℕ × ℕ) × Option (Except IoError (Option Range))
  | 0, _ => ([], none)
  | fuel + 1, curAllocAddr =>
    match round req accepts curAllocAddr (iter maps curAllocAddr) with
    | (tried, .done result) => (tried, some result)
    | (tried, .again curAllocAddr) =>
      let (tried', result) := search maps req accepts fuel curAllocAddr
      (tried ++ tried', result)

/-- `alloc_between`, as far as `fuel` rounds lead. -/
def allocBetween (maps : Mappings info) (req : Request info) (accepts : ℕ → ℕ → Bool)
    (fuel : ℕ) : List (ℕ × ℕ) × Option (Except IoError (Option Range)) :=
  search maps req accepts fuel req.minAllocAddr

/-! ## Places -/

/-- No mapped region reaches into the range. -/
structure Free (maps : Mappings info) (r : Range) : Prop where
  stop_le : r.stop ≤ info.maxAddress
  apart : ∀ m ∈ maps.regions, m.stop ≤ r.start ∨ r.stop ≤ m.start

/-- Where an allocation at `p` has to end. -/
def Request.stopAt (req : Request info) (p : ℕ) : ℕ :=
  Align.up (max p req.minAddr + req.size) info.allocGranularity

/-- A start within the bounds, in free memory with room for an allocation. -/
structure StartAt (maps : Mappings info) (req : Request info) (p : ℕ) : Prop where
  aligned : info.allocGranularity ∣ p
  min_le : req.minAllocAddr ≤ p
  le_max : p ≤ req.maxAddr
  free : Free maps ⟨p, req.stopAt p⟩

section Rounding

variable {req : Request info} {p q x : ℕ}

/-- The granularity is within the address space. -/
theorem granularity_le (info : SysInfo) : info.allocGranularity ≤ isizeMax := by
  have := info.max_le
  have := info.min_lt_max
  omega

/-- Rounding up does not overflow. -/
theorem nextMultipleOf_granularity (hx : x ≤ isizeMax + 1) :
    nextMultipleOf x info.allocGranularity = Align.up x info.allocGranularity := by
  refine nextMultipleOf_eq info.granularity_pos ?_
  have := Align.up_lt_add (x := x) info.granularity_pos
  have := granularity_le info
  unfold isizeMax wordSize at *
  omega

/-- The mask rounds down. -/
theorem minAllocAddr_eq (req : Request info) :
    req.minAllocAddr = Align.down req.minAddr info.allocGranularity := by
  obtain ⟨k, hk⟩ := info.granularity_pow
  have hle := granularity_le info
  have hmax := info.max_le
  have := req.max_le
  have := req.min_le_max
  unfold Request.minAllocAddr
  rw [hk] at hle ⊢
  unfold isizeMax at *
  refine and_wrappingNeg_two_pow (by unfold wordSize; omega) ?_
  by_contra hcon
  have := Nat.pow_le_pow_right (show 0 < 2 by decide) (Nat.not_lt.1 hcon)
  omega

/-- It is not below what the system allows. -/
theorem minAddress_le_minAllocAddr (req : Request info) : info.minAddress ≤ req.minAllocAddr := by
  rw [minAllocAddr_eq]
  exact (Align.le_down_iff info.min_dvd).2 req.min_le

/-- A higher start has a higher end. -/
theorem stopAt_mono (h : p ≤ q) : req.stopAt p ≤ req.stopAt q :=
  Align.up_mono info.granularity_pos (Nat.add_le_add_right (max_le_max_right _ h) _)

theorem lt_stopAt (req : Request info) (p : ℕ) : p < req.stopAt p :=
  calc p ≤ max p req.minAddr := le_max_left _ _
    _ < max p req.minAddr + req.size := Nat.lt_add_of_pos_right req.size_pos
    _ ≤ req.stopAt p := Align.le_up info.granularity_pos

/-- An allocation takes up a multiple of the granularity. -/
theorem add_granularity_le_stopAt (req : Request info) (hp : info.allocGranularity ∣ p) :
    p + info.allocGranularity ≤ req.stopAt p := by
  obtain ⟨k, rfl⟩ := hp
  obtain ⟨m, hm⟩ := Align.dvd_up (max (info.allocGranularity * k) req.minAddr + req.size)
    info.allocGranularity
  have hlt := lt_stopAt req (info.allocGranularity * k)
  unfold Request.stopAt at *
  rw [hm] at hlt ⊢
  rw [← Nat.mul_succ]
  exact Nat.mul_le_mul_left _ (Nat.lt_of_mul_lt_mul_left hlt)

/-- The end is within the address space. -/
theorem stopAt_le (hp : p ≤ req.maxAddr) : req.stopAt p ≤ info.maxAddress := by
  refine (Align.up_le_iff info.granularity_pos info.max_dvd).2 ?_
  have := req.max_le
  have := req.min_le_max
  omega

/-- The end as the code computes it. -/
theorem nextMultipleOf_stopAt (hp : p ≤ req.maxAddr) :
    nextMultipleOf (max p req.minAddr + req.size) info.allocGranularity = req.stopAt p := by
  refine nextMultipleOf_granularity ?_
  have := req.max_le
  have := req.min_le_max
  have := info.max_le
  omega

theorem maxAddr_lt_maxAllocAddr (req : Request info) : req.maxAddr < req.maxAllocAddr := by
  have hmax := req.max_le
  have := info.max_le
  rw [Request.maxAllocAddr, nextMultipleOf_granularity (by omega)]
  have := Align.le_up (x := req.maxAddr + req.size) info.granularity_pos
  have := req.size_pos
  omega

end Rounding

/-! ## What the iterator yields -/

section Intersperse

variable {maxAddress prevEnd : ℕ} {post : List RegionInfo} {g : Region} {p q : ℕ}

/-- The regions yielded come in order. -/
theorem intersperse_ordered (maxAddress : ℕ) (hord : post.Pairwise fun a b => a.stop ≤ b.start)
    (hval : ∀ m ∈ post, m.start < m.stop) :
    (intersperse maxAddress prevEnd post).Pairwise (fun a b => a.range.stop ≤ b.range.start) ∧
      ((∀ m ∈ post, prevEnd ≤ m.start) →
        ∀ g ∈ intersperse maxAddress prevEnd post, prevEnd ≤ g.range.start) := by
  induction post generalizing prevEnd with
  | nil =>
    unfold intersperse
    split_ifs <;> simp
  | cons next post ih =>
    obtain ⟨hnext, hord⟩ := List.pairwise_cons.1 hord
    have hlt := hval next (by simp)
    obtain ⟨hpair, hstart⟩ := @ih next.stop hord fun m hm => hval m (by simp [hm])
    have hstart := hstart hnext
    unfold intersperse
    constructor
    · refine List.pairwise_append.2 ⟨by split_ifs <;> simp,
        List.pairwise_cons.2 ⟨fun g hg => hstart g hg, hpair⟩, fun a ha b hb => ?_⟩
      split_ifs at ha
      · obtain rfl := List.mem_singleton.1 ha
        rcases List.mem_cons.1 hb with rfl | hb
        · exact le_rfl
        · exact hlt.le.trans (hstart b hb)
      · cases ha
    · intro hprev g hg
      rcases List.mem_append.1 hg with hg | hg
      · split_ifs at hg
        · obtain rfl := List.mem_singleton.1 hg
          exact le_rfl
        · cases hg
      · rcases List.mem_cons.1 hg with rfl | hg
        · exact hprev next (by simp)
        · exact (hprev next (by simp)).trans (hlt.le.trans (hstart g hg))

/-- A region yielded without a protection lies between the mapped ones. -/
theorem free_of_mem_intersperse (hord : post.Pairwise fun a b => a.stop ≤ b.start)
    (hval : ∀ m ∈ post, m.start < m.stop) (hmax : ∀ m ∈ post, m.start < maxAddress)
    (hg : g ∈ intersperse maxAddress prevEnd post) (hfree : g.prot.isNone) :
    (g.range.start = prevEnd ∨ ∃ m ∈ post, g.range.start = m.stop) ∧ g.range.stop ≤ maxAddress ∧
      ∀ m ∈ post, m.stop ≤ g.range.start ∨ g.range.stop ≤ m.start := by
  induction post generalizing prevEnd with
  | nil =>
    unfold intersperse at hg
    split_ifs at hg
    · obtain rfl := List.mem_singleton.1 hg
      exact ⟨Or.inl rfl, le_rfl, by simp⟩
    · cases hg
  | cons next post ih =>
    obtain ⟨hnext, hord⟩ := List.pairwise_cons.1 hord
    have hlt := hval next (by simp)
    unfold intersperse at hg
    rcases List.mem_append.1 hg with hg | hg
    · split_ifs at hg
      · obtain rfl := List.mem_singleton.1 hg
        refine ⟨Or.inl rfl, (hmax next (by simp)).le, fun m hm => Or.inr ?_⟩
        rcases List.mem_cons.1 hm with rfl | hm
        · exact le_rfl
        · exact hlt.le.trans (hnext m hm)
      · cases hg
    · rcases List.mem_cons.1 hg with rfl | hg
      · cases hfree
      · have hval' : ∀ m ∈ post, m.start < m.stop := fun m hm => hval m (by simp [hm])
        obtain ⟨hstart, hstop, hapart⟩ :=
          ih hord hval' (fun m hm => hmax m (by simp [hm])) hg
        have hge := (intersperse_ordered maxAddress hord hval').2 hnext g hg
        refine ⟨Or.inr ?_, hstop, fun m hm => ?_⟩
        · rcases hstart with hstart | ⟨m, hm, hstart⟩
          · exact ⟨next, by simp, hstart⟩
          · exact ⟨m, by simp [hm], hstart⟩
        · rcases List.mem_cons.1 hm with rfl | hm
          · exact Or.inl hge
          · exact hapart m hm

/-- What no mapped region reaches into lies in a region yielded without a protection. -/
theorem exists_mem_intersperse (hp : prevEnd ≤ p) (hpq : p < q) (hq : q ≤ maxAddress)
    (hfree : ∀ m ∈ post, m.stop ≤ p ∨ q ≤ m.start) :
    ∃ g ∈ intersperse maxAddress prevEnd post, g.prot.isNone ∧ g.range.start ≤ p ∧
      q ≤ g.range.stop := by
  induction post generalizing prevEnd with
  | nil =>
    refine ⟨⟨⟨prevEnd, maxAddress⟩, none⟩, ?_, rfl, hp, hq⟩
    unfold intersperse
    rw [if_pos (by omega)]
    exact List.mem_singleton.2 rfl
  | cons next post ih =>
    unfold intersperse
    rcases hfree next (by simp) with hnext | hnext
    · obtain ⟨g, hg, hplace⟩ := ih hnext fun m hm => hfree m (by simp [hm])
      exact ⟨g, List.mem_append_right _ (List.mem_cons_of_mem _ hg), hplace⟩
    · refine ⟨⟨⟨prevEnd, next.start⟩, none⟩, List.mem_append_left _ ?_, rfl, hp, hnext⟩
      rw [if_pos (by omega)]
      exact List.mem_singleton.2 rfl

end Intersperse

section Iter

variable {maps : Mappings info} {start : ℕ}

/-- The regions of the maps from the top down. -/
theorem insertionSort_eq_reverse {l : List RegionInfo}
    (h : l.Pairwise fun a b => a.start < b.start) :
    l.insertionSort (fun a b => b.start ≤ a.start) = l.reverse := by
  have hinsert : ∀ (x : RegionInfo) (l : List RegionInfo), (∀ y ∈ l, x.start < y.start) →
      l.orderedInsert (fun a b => b.start ≤ a.start) x = l ++ [x] := by
    intro x l hl
    induction l with
    | nil => rfl
    | cons y l ih =>
      rw [List.orderedInsert_cons, if_neg (Nat.not_le.2 (hl y (by simp))),
        ih fun z hz => hl z (by simp [hz])]
      rfl
  induction l with
  | nil => rfl
  | cons x l ih =>
    obtain ⟨hx, hl⟩ := List.pairwise_cons.1 h
    rw [List.insertionSort_cons, ih hl, hinsert x _ (by simpa using hx), List.reverse_cons]

/-- A region that is not looked at is above the user address space. -/
theorem mem_takeWhile_or {l : List RegionInfo} {m : RegionInfo} (maxAddress : ℕ)
    (h : l.Pairwise fun a b => a.start < b.start) (hm : m ∈ l) :
    m ∈ l.takeWhile (fun region => region.start < maxAddress) ∨ maxAddress ≤ m.start := by
  induction l with
  | nil => cases hm
  | cons x l ih =>
    obtain ⟨hx, hl⟩ := List.pairwise_cons.1 h
    by_cases hlt : x.start < maxAddress
    · rw [List.takeWhile_cons_of_pos (by simpa using hlt)]
      rcases List.mem_cons.1 hm with rfl | hm
      · exact Or.inl (by simp)
      · exact (ih hl hm).imp_left fun h => List.mem_cons_of_mem _ h
    · refine Or.inr ?_
      rcases List.mem_cons.1 hm with rfl | hm
      · exact Nat.not_lt.1 hlt
      · exact (Nat.not_lt.1 hlt).trans (hx m hm).le

/-- The mapped regions that end up to the cursor are dropped, and what was noted is where the
last of them ends. -/
structure Splits (maps : Mappings info) (start : ℕ) (pre post : List RegionInfo) (prevEnd : ℕ) :
    Prop where
  eq : maps.regions.takeWhile (fun region => region.start < info.maxAddress) = pre ++ post
  pre_le : ∀ m ∈ pre, m.stop ≤ prevEnd
  le_post : ∀ m ∈ post, start < m.stop
  prevEnd_eq : prevEnd = info.minAddress ∨ ∃ m ∈ pre, prevEnd = m.stop ∧ m.stop ≤ start

/-- What the search keeps, and what its predicate has noted in the end. -/
theorem exists_splits (maps : Mappings info) (start : ℕ) : ∃ pre post prevEnd index,
    Splits maps start pre post prevEnd ∧
      let regions := (maps.regions.takeWhile fun region => region.start < info.maxAddress)
        |>.insertionSort fun a b => b.start ≤ a.start
      partitionPointS (fun region prevEnd =>
        if region.stop ≤ start then (false, region.stop) else (true, prevEnd)) regions
          info.minAddress = (index, prevEnd) ∧ regions.take index = post.reverse := by
  let regions := maps.regions.takeWhile fun region => region.start < info.maxAddress
  let pred : RegionInfo → Bool := fun region => start < region.stop
  have hsub : regions.Sublist maps.regions := List.takeWhile_sublist _
  have hord : regions.Pairwise fun a b => a.stop ≤ b.start := maps.ordered.sublist hsub
  have hval : ∀ m ∈ regions, m.start < m.stop := fun m hm => maps.valid m (hsub.subset hm)
  have hsort : regions.insertionSort (fun a b => b.start ≤ a.start) = regions.reverse :=
    insertionSort_eq_reverse (hord.imp_of_mem fun {a b} ha _ hab => (hval a ha).trans_le hab)
  have hrev : regions.reverse.Pairwise fun a b => b.stop ≤ a.start := List.pairwise_reverse.2 hord
  obtain ⟨k, hk⟩ : ∃ k, Partitioned pred regions.reverse k := exists_partitioned
    (hrev.imp_of_mem fun {a b} ha _ hab hb => by
      have := hval a (List.mem_reverse.1 ha)
      simp only [pred, decide_eq_true_eq] at hb ⊢
      omega)
  have hnoting : (fun (region : RegionInfo) (prevEnd : ℕ) =>
      if region.stop ≤ start then (false, region.stop) else (true, prevEnd)) =
        noting pred RegionInfo.stop := by
    funext region prevEnd
    simp only [noting, pred, decide_eq_true_eq]
    rcases Nat.lt_or_ge start region.stop with h | h
    · rw [if_neg (Nat.not_le.2 h), if_pos h]
    · rw [if_pos h, if_neg (Nat.not_lt.2 h)]
  have hsearch : partitionPointS (fun (region : RegionInfo) (prevEnd : ℕ) =>
      if region.stop ≤ start then (false, region.stop) else (true, prevEnd))
        (regions.insertionSort fun a b => b.start ≤ a.start) info.minAddress =
      (k, (regions.reverse[k]?).elim info.minAddress RegionInfo.stop) := by
    rw [hnoting, hsort, partitionPointS_eq hk]
  refine ⟨(regions.reverse.drop k).reverse, (regions.reverse.take k).reverse, _, k, ?_, hsearch,
    by rw [hsort, List.reverse_reverse]⟩
  have hdrop := List.head?_drop (l := regions.reverse) (i := k)
  refine
    { eq := by rw [← List.reverse_append, List.take_append_drop, List.reverse_reverse]
      pre_le := fun m hm => ?_
      le_post := fun m hm => ?_
      prevEnd_eq := ?_ }
  · rw [List.mem_reverse] at hm
    rw [← hdrop]
    have hpair := hrev.sublist (List.drop_sublist k _)
    cases hcons : regions.reverse.drop k with
    | nil => rw [hcons] at hm; cases hm
    | cons x l =>
      rw [hcons] at hm hpair
      have hx := hval x (List.mem_reverse.1 (List.mem_of_mem_drop (hcons ▸ List.mem_cons_self)))
      rcases List.mem_cons.1 hm with rfl | hm
      · exact le_rfl
      · exact ((List.pairwise_cons.1 hpair).1 m hm).trans hx.le
  · rw [List.mem_reverse] at hm
    obtain ⟨i, hi⟩ := List.getElem?_of_mem hm
    rw [List.getElem?_take] at hi
    split_ifs at hi with hlt
    simpa [pred] using (hk.iff i m hi).2 hlt
  · rw [← hdrop]
    cases hcons : regions.reverse.drop k with
    | nil => exact Or.inl rfl
    | cons x l =>
      refine Or.inr ⟨x, by simp, rfl, ?_⟩
      rw [hcons] at hdrop
      have := mt (hk.iff k x hdrop.symm).1 (Nat.lt_irrefl k)
      simpa [pred] using this

/-- The iterator yields the regions from one that may lie below the start. -/
theorem iter_eq (maps : Mappings info) (start : ℕ) : ∃ pre post prevEnd,
    Splits maps start pre post prevEnd ∧
      iter maps start = intersperse info.maxAddress prevEnd post := by
  obtain ⟨pre, post, prevEnd, index, hsplits, hsearch, htake⟩ := exists_splits maps start
  refine ⟨pre, post, prevEnd, hsplits, ?_⟩
  simp only [iter, hsearch, htake, List.reverse_reverse]

/-- It begins within the address space. -/
theorem Splits.prevEnd_le {pre post : List RegionInfo} {prevEnd : ℕ}
    (h : Splits maps start pre post prevEnd) : prevEnd ≤ isizeMax + 1 := by
  rcases h.prevEnd_eq with rfl | ⟨m, hm, rfl, -⟩
  · have := info.min_lt_max
    have := info.max_le
    omega
  · have hmem : m ∈ maps.regions.takeWhile fun region => region.start < info.maxAddress :=
      h.eq ▸ List.mem_append_left _ hm
    exact maps.stop_le m (List.takeWhile_subset _ hmem) (by simpa using List.mem_takeWhile_imp hmem)

/-- What `iter` yields is in order, and its free regions are free. -/
theorem iter_spec (maps : Mappings info) (start : ℕ) :
    (iter maps start).Pairwise (fun a b => a.range.stop ≤ b.range.start) ∧
      ∀ g ∈ iter maps start, g.prot.isNone → Free maps g.range ∧ g.range.start ≤ isizeMax + 1 := by
  obtain ⟨pre, post, prevEnd, hsplit, heq⟩ := iter_eq maps start
  have hsub : (pre ++ post).Sublist maps.regions := hsplit.eq ▸ List.takeWhile_sublist _
  have hord := maps.ordered.sublist hsub
  obtain ⟨-, hpost, hbetween⟩ := List.pairwise_append.1 hord
  have hval : ∀ m ∈ pre ++ post, m.start < m.stop := fun m hm => maps.valid m (hsub.subset hm)
  have hvalPost : ∀ m ∈ post, m.start < m.stop := fun m hm => hval m (by simp [hm])
  have hmax : ∀ m ∈ pre ++ post, m.start < info.maxAddress := fun m hm => by
    rw [← hsplit.eq] at hm
    simpa using List.mem_takeWhile_imp hm
  rw [heq]
  refine ⟨(intersperse_ordered _ hpost hvalPost).1, fun g hg hfree => ?_⟩
  obtain ⟨hstart, hstop, hapart⟩ :=
    free_of_mem_intersperse hpost hvalPost (fun m hm => hmax m (by simp [hm])) hg hfree
  refine ⟨⟨hstop, fun m hm => ?_⟩, ?_⟩
  · have hincr : maps.regions.Pairwise fun a b => a.start < b.start :=
      maps.ordered.imp_of_mem fun {a b} ha _ hab => (maps.valid a ha).trans_le hab
    rcases mem_takeWhile_or info.maxAddress hincr hm with hm | hm
    · rw [hsplit.eq] at hm
      rcases List.mem_append.1 hm with hm | hm
      · refine Or.inl ?_
        rcases hstart with hstart | ⟨m', hm', hstart⟩
        · exact hstart ▸ hsplit.pre_le m hm
        · exact hstart ▸ (hbetween m hm m' hm').trans (hvalPost m' hm').le
      · exact hapart m hm
    · exact Or.inr (hstop.trans hm)
  · rcases hstart with hstart | ⟨m, hm, hstart⟩
    · exact hstart ▸ hsplit.prevEnd_le
    · exact hstart ▸ maps.stop_le m (hsub.subset (by simp [hm])) (hmax m (by simp [hm]))

end Iter

/-! ## The lowest place -/

section Lowest

variable {maps : Mappings info} {req : Request info} {region g : Region} {p q len cur : ℕ}

/-- Where a start is tried in a free region. -/
theorem startIn_eq_some_iff (hstart : region.range.start ≤ isizeMax + 1) :
    req.startIn region = some (p, len) ↔ region.prot.isNone ∧
      p = max (Align.up region.range.start info.allocGranularity) req.minAllocAddr ∧
      p ≤ req.maxAddr ∧ req.stopAt p ≤ region.range.stop ∧ len = req.stopAt p - p := by
  unfold Request.startIn
  simp only [nextMultipleOf_granularity hstart]
  generalize max (Align.up region.range.start info.allocGranularity) req.minAllocAddr = min
  constructor
  · intro h
    split_ifs at h with hfree hmin hmax
    obtain ⟨rfl, rfl⟩ := Prod.mk.inj (Option.some.inj h)
    rw [nextMultipleOf_stopAt hmin] at hmax ⊢
    exact ⟨hfree, rfl, hmin, hmax, rfl⟩
  · rintro ⟨hfree, rfl, hmin, hmax, rfl⟩
    rw [if_pos hfree, if_pos hmin, nextMultipleOf_stopAt hmin, if_pos hmax]

/-- A start in a region of the iterator is a place. -/
theorem startAt_of_startIn (hg : g ∈ iter maps cur) (h : req.startIn g = some (p, len)) :
    StartAt maps req p ∧ len = req.stopAt p - p ∧ g.range.start ≤ p ∧
      req.stopAt p ≤ g.range.stop := by
  have hfree : g.prot.isNone := by
    unfold Request.startIn at h
    split_ifs at h with hfree
    exact hfree
  obtain ⟨hfreeg, hstart⟩ := (iter_spec maps cur).2 g hg hfree
  obtain ⟨-, hp, hmax, hstop, hlen⟩ := (startIn_eq_some_iff hstart).1 h
  have hle : g.range.start ≤ p :=
    hp ▸ (Align.le_up info.granularity_pos).trans (le_max_left _ _)
  refine ⟨⟨?_, hp ▸ le_max_right _ _, hmax, hstop.trans hfreeg.stop_le, fun m hm => ?_⟩, hlen, hle,
    hstop⟩
  · rw [hp]
    rcases max_choice (Align.up g.range.start info.allocGranularity) req.minAllocAddr with h | h <;>
      rw [h]
    · exact Align.dvd_up _ _
    · rw [minAllocAddr_eq]
      exact Align.dvd_down _ _
  · exact (hfreeg.apart m hm).imp (fun h => h.trans hle) fun h => hstop.trans h

/-- A place is found by every round that begins up to its end. -/
theorem exists_startIn (hp : StartAt maps req p) (hcur : cur ≤ req.stopAt p) :
    ∃ g ∈ iter maps cur, ∃ q len, req.startIn g = some (q, len) ∧ g.range.start ≤ q ∧ q ≤ p := by
  obtain ⟨pre, post, prevEnd, hsplit, heq⟩ := iter_eq maps cur
  have hmem : ∀ m ∈ pre ++ post, m ∈ maps.regions := fun m hm =>
    List.takeWhile_subset _ (hsplit.eq ▸ hm)
  have hprev : prevEnd ≤ p := by
    rcases hsplit.prevEnd_eq with rfl | ⟨m, hm, rfl, hle⟩
    · exact (minAddress_le_minAllocAddr req).trans hp.min_le
    · rcases hp.free.apart m (hmem m (by simp [hm])) with h | h
      · exact h
      · have := maps.valid m (hmem m (by simp [hm]))
        simp only at h
        omega
  obtain ⟨g, hg, hfree, hgp, hpg⟩ := exists_mem_intersperse hprev (lt_stopAt req p)
    hp.free.stop_le fun m hm => hp.free.apart m (hmem m (List.mem_append_right _ hm))
  rw [← heq] at hg
  obtain ⟨-, hstart⟩ := (iter_spec maps cur).2 g hg hfree
  have hle : max (Align.up g.range.start info.allocGranularity) req.minAllocAddr ≤ p :=
    max_le ((Align.up_le_iff info.granularity_pos hp.aligned).2 hgp) hp.min_le
  exact ⟨g, hg, _, _, (startIn_eq_some_iff hstart).2
    ⟨hfree, rfl, hle.trans hp.le_max, (stopAt_mono hle).trans hpg, rfl⟩,
    (Align.le_up info.granularity_pos).trans (le_max_left _ _), hle⟩

/-- The first start of a round is the lowest place, from every cursor up to its end. -/
theorem findSome?_iter_eq (hp : StartAt maps req p) (hmin : ∀ q < p, ¬StartAt maps req q)
    (hcur : cur ≤ req.stopAt p) :
    (iter maps cur).findSome? req.startIn = some (p, req.stopAt p - p) := by
  obtain ⟨g, hg, q, len, hstart, hgq, hqp⟩ := exists_startIn hp hcur
  cases hfind : (iter maps cur).findSome? req.startIn with
  | none => rw [List.findSome?_eq_none_iff.1 hfind g hg] at hstart; cases hstart
  | some start =>
    obtain ⟨p', len'⟩ := start
    obtain ⟨l₁, a, l₂, heq, ha, hnone⟩ := List.findSome?_eq_some_iff.1 hfind
    have hord := (iter_spec maps cur).1
    have hmem : a ∈ iter maps cur := heq ▸ by simp
    obtain ⟨hp', hlen, -, hstop⟩ := startAt_of_startIn hmem ha
    have hge : p ≤ p' := Nat.not_lt.1 fun hlt => hmin p' hlt hp'
    have hle : p' ≤ p := by
      rw [heq] at hg hord
      obtain ⟨-, hord, -⟩ := List.pairwise_append.1 hord
      rcases List.mem_append.1 hg with hg | hg
      · rw [hnone g hg] at hstart
        cases hstart
      · rcases List.mem_cons.1 hg with rfl | hg
        · obtain ⟨rfl, -⟩ := Prod.mk.inj (Option.some.inj (ha.symm.trans hstart))
          exact hqp
        · have := (List.pairwise_cons.1 hord).1 g hg
          have := lt_stopAt req p'
          omega
    obtain rfl := Nat.le_antisymm hle hge
    rw [hlen]

/-- Nothing is found where nothing fits. -/
theorem findSome?_iter_eq_none (h : ∀ p, ¬StartAt maps req p) :
    (iter maps cur).findSome? req.startIn = none := by
  refine List.findSome?_eq_none_iff.2 fun g hg => ?_
  cases hstart : req.startIn g with
  | none => rfl
  | some start => exact absurd (startAt_of_startIn hg hstart).1 (h _)

end Lowest

/-! ## Rounds -/

section Round

variable {maps : Mappings info} {req : Request info} {accepts : ℕ → ℕ → Bool}
  {regions : List Region} {p len cur fuel : ℕ} {region : Range}

/-- On the granularity the system is asked for just that place. -/
theorem allocAt_eq (hp : info.allocGranularity ∣ p) (hlen : info.allocGranularity ∣ len)
    (hle : len ≤ isizeMax + 1) : allocAt info accepts p len =
      .ok (if accepts p len then some ⟨p, p + len⟩ else none) := by
  obtain ⟨k, hk⟩ := info.granularity_pow
  have hmask : p &&& (info.allocGranularity - 1) = 0 := by
    rw [hk, Nat.and_two_pow_sub_one_eq_mod, ← hk]
    exact Nat.mod_eq_zero_of_dvd hp
  have hround : nextMultipleOf len info.allocGranularity = len := by
    rw [nextMultipleOf_granularity hle, Align.up_eq_self info.granularity_pos hlen]
  simp only [allocAt, hmask, hround, ne_eq, not_true_eq_false, if_false]
  split_ifs <;> rfl

/-- The search ends where nothing is found. -/
theorem round_eq_of_none (h : regions.findSome? req.startIn = none) :
    round req accepts cur regions = ([], .done (.ok none)) := by
  induction regions generalizing cur with
  | nil => rfl
  | cons region regions ih =>
    rw [List.findSome?_cons] at h
    unfold round
    cases hstart : req.startIn region with
    | some start => rw [hstart] at h; cases h
    | none =>
      rw [hstart] at h
      simp only [ih h, ite_self]

/-- A round tries the first start of its regions. If that is refused, the cursor moves on by
one granule. -/
theorem round_eq_of_some (accepts : ℕ → ℕ → Bool) (cur : ℕ)
    (hord : regions.Pairwise fun a b => a.range.stop ≤ b.range.start)
    (hfree : ∀ g ∈ regions, g.prot.isNone → g.range.start ≤ isizeMax + 1)
    (hp : info.allocGranularity ∣ p) (hlen : info.allocGranularity ∣ len)
    (hle : len ≤ isizeMax + 1) (h : regions.findSome? req.startIn = some (p, len)) :
    ∃ c, (c = cur ∨ c ≤ p) ∧ round req accepts cur regions = ([(p, len)],
      if accepts p len then .done (.ok (some ⟨p, p + len⟩))
      else .again (c + info.allocGranularity)) := by
  induction regions generalizing cur with
  | nil => cases h
  | cons region regions ih =>
    obtain ⟨hregion, hord⟩ := List.pairwise_cons.1 hord
    rw [List.findSome?_cons] at h
    unfold round
    cases hstart : req.startIn region with
    | some start =>
      obtain ⟨p', len'⟩ := start
      rw [hstart] at h
      obtain ⟨rfl, rfl⟩ := Prod.mk.inj (Option.some.inj h)
      refine ⟨cur, Or.inl rfl, ?_⟩
      simp only [allocAt_eq hp hlen hle]
      cases accepts p' len' <;> rfl
    | none =>
      rw [hstart] at h
      -- the search does not stop in front of a place
      obtain ⟨g, hg, hstartg⟩ := List.exists_of_findSome?_eq_some h
      have hfreeg : g.prot.isNone := by
        unfold Request.startIn at hstartg
        split_ifs at hstartg with hfreeg
        exact hfreeg
      have hgstart := hfree g (List.mem_cons_of_mem _ hg) hfreeg
      obtain ⟨-, hpeq, hmax, -, -⟩ := (startIn_eq_some_iff hgstart).1 hstartg
      have hnext : nextMultipleOf region.range.stop info.allocGranularity ≤ p := by
        rw [nextMultipleOf_granularity ((hregion g hg).trans hgstart), hpeq]
        exact (Align.up_mono info.granularity_pos (hregion g hg)).trans (le_max_left _ _)
      have hgo : ¬req.maxAllocAddr ≤ nextMultipleOf region.range.stop info.allocGranularity := by
        have := maxAddr_lt_maxAllocAddr req
        omega
      obtain ⟨c, hc, heq⟩ := @ih (nextMultipleOf region.range.stop info.allocGranularity)
        hord (fun g hg => hfree g (List.mem_cons_of_mem _ hg)) h
      refine ⟨c, Or.inr (hc.elim (fun hc => hc ▸ hnext) id), ?_⟩
      simp only [if_neg hgo, heq]

theorem dvd_stopAt_sub (hp : StartAt maps req p) :
    info.allocGranularity ∣ req.stopAt p - p ∧ req.stopAt p - p ≤ isizeMax + 1 := by
  refine ⟨Nat.dvd_sub (Align.dvd_up _ _) hp.aligned, ?_⟩
  have := stopAt_le hp.le_max
  have := info.max_le
  omega

/-- What a search returns is a place and what is up to its end. -/
theorem search_startAt (h : (search maps req accepts fuel cur).2 = some (.ok (some region))) :
    StartAt maps req region.start ∧ region.stop = req.stopAt region.start := by
  induction fuel generalizing cur with
  | zero => cases h
  | succ fuel ih =>
    unfold search at h
    obtain ⟨hord, hfree⟩ := iter_spec maps cur
    cases hfind : (iter maps cur).findSome? req.startIn with
    | none =>
      rw [round_eq_of_none hfind] at h
      cases h
    | some start =>
      obtain ⟨p, len⟩ := start
      obtain ⟨g, hg, hstart⟩ := List.exists_of_findSome?_eq_some hfind
      obtain ⟨hp, rfl, -⟩ := startAt_of_startIn hg hstart
      obtain ⟨hlen, hle⟩ := dvd_stopAt_sub hp
      obtain ⟨c, -, hround⟩ := round_eq_of_some accepts cur hord
        (fun g hg hnone => (hfree g hg hnone).2) hp.aligned hlen hle hfind
      rw [hround] at h
      split_ifs at h
      · obtain rfl := Option.some.inj (Except.ok.inj (Option.some.inj h))
        exact ⟨hp, Nat.add_sub_cancel' (lt_stopAt req p).le⟩
      · exact ih h

/-- A search that begins up to the end of the lowest place tries that first. -/
theorem search_lowest (accepts : ℕ → ℕ → Bool) (fuel : ℕ) (hp : StartAt maps req p)
    (hmin : ∀ q < p, ¬StartAt maps req q) (hcur : cur ≤ req.stopAt p) : ∃ c, (c = cur ∨ c ≤ p) ∧
      search maps req accepts (fuel + 1) cur =
        if accepts p (req.stopAt p - p) then
          ([(p, req.stopAt p - p)], some (.ok (some ⟨p, req.stopAt p⟩)))
        else ((p, req.stopAt p - p) ::
            (search maps req accepts fuel (c + info.allocGranularity)).1,
          (search maps req accepts fuel (c + info.allocGranularity)).2) := by
  obtain ⟨hord, hfree⟩ := iter_spec maps cur
  obtain ⟨hlen, hle⟩ := dvd_stopAt_sub hp
  obtain ⟨c, hc, hround⟩ := round_eq_of_some accepts cur hord
    (fun g hg hnone => (hfree g hg hnone).2) hp.aligned hlen hle (findSome?_iter_eq hp hmin hcur)
  refine ⟨c, hc, ?_⟩
  rw [search, hround, Nat.add_sub_cancel' (lt_stopAt req p).le]
  split_ifs <;> rfl

/-- If the lowest place is refused, the next round tries it again. -/
theorem allocBetween_refused (hp : StartAt maps req p) (hmin : ∀ q < p, ¬StartAt maps req q)
    (hrefused : accepts p (req.stopAt p - p) = false) :
    (allocBetween maps req accepts 2).1 =
      [(p, req.stopAt p - p), (p, req.stopAt p - p)] := by
  have hlt := lt_stopAt req p
  obtain ⟨c, hc, heq⟩ := search_lowest accepts 1 hp hmin
    (hp.min_le.trans hlt.le)
  have hcp : c ≤ p := hc.elim (fun hc => hc ▸ hp.min_le) id
  have hcur := add_granularity_le_stopAt req hp.aligned
  obtain ⟨c', -, heq'⟩ := search_lowest accepts 0 hp hmin
    (show c + info.allocGranularity ≤ _ by omega)
  rw [allocBetween, heq, heq', hrefused]
  rfl

end Round

/-! ## The whole search -/

section Search

variable {maps : Mappings info} {req : Request info} {accepts : ℕ → ℕ → Bool}

/-- A region that serves the request. -/
structure Placed (maps : Mappings info) (req : Request info) (region : Range) : Prop where
  aligned : info.allocGranularity ∣ region.start
  free : Free maps region
  contains : ∃ x, req.minAddr ≤ x ∧ x ≤ req.maxAddr ∧ region.start ≤ x ∧
    x + req.size ≤ region.stop

/-- What is expected of a search : it returns a region that serves the request, or has been
refused at every start within the bounds, and it does so without trying a start twice. -/
structure Searches (maps : Mappings info) (req : Request info) (accepts : ℕ → ℕ → Bool) :
    Prop where
  sound : ∀ fuel region, (allocBetween maps req accepts fuel).2 = some (.ok (some region)) →
    Placed maps req region
  complete : ∀ fuel, (allocBetween maps req accepts fuel).2 = some (.ok none) →
    ∀ p, StartAt maps req p →
      (p, req.stopAt p - p) ∈ (allocBetween maps req accepts fuel).1 ∧
        accepts p (req.stopAt p - p) = false
  nodup : ∀ fuel, ((allocBetween maps req accepts fuel).1.map Prod.fst).Nodup
  ends : ∃ fuel, (allocBetween maps req accepts fuel).2.isSome ∧
    (allocBetween maps req accepts fuel).1.length ≤
      (req.maxAddr - req.minAllocAddr) / info.allocGranularity + 1

/-- What is tried is a place of the request. -/
theorem StartAt.placed {p : ℕ} (hp : StartAt maps req p) :
    Placed maps req ⟨p, req.stopAt p⟩ where
  aligned := hp.aligned
  free := hp.free
  contains := ⟨max p req.minAddr, le_max_right _ _, max_le hp.le_max req.min_le_max,
    le_max_left _ _, Align.le_up info.granularity_pos⟩

/-- Whatever the system refuses, a region that is returned serves the request. -/
theorem placed_of_allocBetween {fuel : ℕ} {region : Range}
    (h : (allocBetween maps req accepts fuel).2 = some (.ok (some region))) :
    Placed maps req region := by
  obtain ⟨hp, hstop⟩ := search_startAt h
  obtain ⟨start, stop⟩ := region
  simp only at hstop
  exact hstop ▸ hp.placed

/-- The lowest place, if there is one, is not refused. -/
def LowestAccepted (maps : Mappings info) (req : Request info) (accepts : ℕ → ℕ → Bool) : Prop :=
  ∀ p, StartAt maps req p → (∀ q < p, ¬StartAt maps req q) → accepts p (req.stopAt p - p) = true

/-- The search does what is expected of it exactly if the first start it tries is not
refused. -/
theorem searches_iff : Searches maps req accepts ↔ LowestAccepted maps req accepts := by
  constructor
  · intro h p hp hmin
    by_contra hrefused
    have hnodup := h.nodup 2
    rw [allocBetween_refused hp hmin (by simpa using hrefused)] at hnodup
    simp at hnodup
  · intro h
    by_cases hplace : ∃ p, StartAt maps req p
    · classical
      let p := Nat.find hplace
      have hp : StartAt maps req p := Nat.find_spec hplace
      have hmin : ∀ q < p, ¬StartAt maps req q := fun q => Nat.find_min hplace
      have haccepts := h p hp hmin
      have hrun : ∀ fuel, allocBetween maps req accepts (fuel + 1) =
          ([(p, req.stopAt p - p)], some (.ok (some ⟨p, req.stopAt p⟩))) := fun fuel => by
        obtain ⟨_, -, heq⟩ := search_lowest accepts fuel hp hmin
          (hp.min_le.trans (lt_stopAt req p).le)
        rw [allocBetween, heq, if_pos haccepts]
      refine ⟨fun _ _ => placed_of_allocBetween, fun fuel hnone => ?_, fun fuel => ?_,
        1, by rw [hrun]; rfl, by rw [hrun]; exact Nat.le_add_left _ _⟩
      · cases fuel with
        | zero => cases hnone
        | succ fuel => rw [hrun] at hnone; cases hnone
      · cases fuel with
        | zero => exact List.nodup_nil
        | succ fuel => rw [hrun]; exact List.nodup_singleton _
    · have hnone : ∀ p, ¬StartAt maps req p := fun p hp => hplace ⟨p, hp⟩
      have hrun : ∀ fuel, allocBetween maps req accepts (fuel + 1) = ([], some (.ok none)) :=
        fun fuel => by
          rw [allocBetween, search, round_eq_of_none (findSome?_iter_eq_none hnone)]
      refine ⟨fun _ _ => placed_of_allocBetween, fun _ _ p hp => absurd hp (hnone p),
        fun fuel => ?_, 1, by rw [hrun]; rfl, by rw [hrun]; exact Nat.zero_le _⟩
      cases fuel with
      | zero => exact List.nodup_nil
      | succ fuel => rw [hrun]; exact List.nodup_nil

/-- Pages of 4096 bytes. -/
def linuxInfo : SysInfo where
  allocGranularity := 4096
  minAddress := 0x10000
  maxAddress := 0x7ffffffff000
  granularity_pow := page_eq_pow
  min_pos := by decide
  min_lt_max := by decide
  min_dvd := by decide
  max_dvd := by decide
  max_le := by decide

/-- The code of a program is mapped, and nothing else. -/
def textMappings : Mappings linuxInfo where
  regions := [⟨0x401000, 0x402000, ⟨5⟩⟩]
  ordered := by decide
  valid := by decide
  stop_le := by decide

/-- A request that begins within a free region. -/
def lowRequest : Request linuxInfo where
  minAddr := 0x10008
  maxAddr := 0x14000
  size := 16
  size_pos := Layout.twoWords.size_pos
  min_le := by decide
  min_le_max := by decide
  max_le := by decide

/-- The system refuses the first page, and the search tries it again. -/
theorem not_searches_lowRequest :
    (allocBetween textMappings lowRequest (fun addr _ => addr ≠ 0x10000) 3).1 =
        [(0x10000, 0x1000), (0x10000, 0x1000), (0x10000, 0x1000)] ∧
      ¬Searches textMappings lowRequest fun addr _ => addr ≠ 0x10000 := by
  have hrun : (allocBetween textMappings lowRequest (fun addr _ => addr ≠ 0x10000) 3).1 =
      [(0x10000, 0x1000), (0x10000, 0x1000), (0x10000, 0x1000)] := by decide +kernel
  refine ⟨hrun, fun h => ?_⟩
  have := h.nodup 3
  rw [hrun] at this
  exact absurd this (by decide)

end Search

/-! ## The bounds of a request -/

/-- `{:x}`. -/
def hex (n : ℕ) : String :=
  String.ofList (Nat.toDigits 16 n)

/-- `Region::alloc_near` and `alloc_inside_bounds`, as far as `fuel` rounds lead. -/
def allocInsideBounds (maps : Mappings info) (accepts : ℕ → ℕ → Bool) (fuel addr : ℕ)
    (start stop : Bound) (size : ℕ) (hsize : 0 < size) :
    Option (Except IoError (Option Range)) :=
  match start.least, stop.greatest with
  | none, _ => some (.error ⟨"invalid input parameter"⟩)
  | _, none => some (.error ⟨"invalid input parameter"⟩)
  | some min, some max =>
    if max < min then
      let place := hex addr
      some (.error ⟨s!"can't allocate {size} bytes near {place} ({min}..={max}): min > max"⟩)
    else
      let minAddr := Max.max (saturatingAddSigned addr min) info.minAddress
      let maxAddr := Min.min (saturatingAddSigned addr max) (info.maxAddress - size)
      -- `alloc_between` looks at this first
      if hle : minAddr ≤ maxAddr then
        have hmin : info.minAddress ≤ minAddr := le_max_right _ _
        have hmax : maxAddr + size ≤ info.maxAddress := by
          have := info.min_pos
          have : maxAddr ≤ info.maxAddress - size := min_le_right _ _
          omega
        (allocBetween maps ⟨minAddr, maxAddr, size, hsize, hmin, hle, hmax⟩ accepts fuel).2
      else some (.ok none)

section Bounds

variable {maps : Mappings info} {accepts : ℕ → ℕ → Bool} {fuel addr size : ℕ} {hsize : 0 < size}
  {start stop : Bound} {region : Range}

/-- A region that is returned serves a request within the bounds. -/
theorem placed_of_allocInsideBounds
    (h : allocInsideBounds maps accepts fuel addr start stop size hsize =
      some (.ok (some region))) :
    ∃ least greatest, start.least = some least ∧ stop.greatest = some greatest ∧
      least ≤ greatest ∧ ∃ req : Request info,
        req.minAddr = max (saturatingAddSigned addr least) info.minAddress ∧
        req.maxAddr = min (saturatingAddSigned addr greatest) (info.maxAddress - size) ∧
        req.size = size ∧ StartAt maps req region.start ∧
        region.stop = req.stopAt region.start := by
  unfold allocInsideBounds at h
  cases hleast : start.least with
  | none => rw [hleast] at h; cases h
  | some least =>
    cases hgreatest : stop.greatest with
    | none => rw [hleast, hgreatest] at h; cases h
    | some greatest =>
      simp only [hleast, hgreatest] at h
      split_ifs at h with hlt hle
      · cases Option.some.inj h
      · exact ⟨least, greatest, rfl, rfl, Int.not_lt.1 hlt, _, rfl, rfl, rfl, search_startAt h⟩
      · cases Option.some.inj h

/-- Bounds that admit no distance are an error. -/
theorem allocInsideBounds_of_empty {least greatest : ℤ} (hleast : start.least = some least)
    (hgreatest : stop.greatest = some greatest) (hlt : greatest < least) :
    ∃ err, allocInsideBounds maps accepts fuel addr start stop size hsize =
      some (.error err) := by
  simp only [allocInsideBounds, hleast, hgreatest, if_pos hlt]
  exact ⟨_, rfl⟩

end Bounds

end Region

end Diversion
