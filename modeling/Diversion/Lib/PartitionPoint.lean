import Mathlib.Data.List.Basic
import Mathlib.Tactic.Common

/-!
# Binary search for a partition point

`partitionPoint pred l` is the halving loop of Rust's `slice::partition_point`, on any
list. On a list `pred` partitions (first the elements it holds of, then the others) it is
the number of elements `pred` holds of; on other lists it is whatever the loop finds.

`partitionPointS` is the loop with a predicate that has a state; what a predicate that notes
the elements it rejects has noted in the end is the partition point (`partitionPointS_eq`).

`binarySearchBy cmp l` is the same loop in `slice::binary_search_by`. On a list that is
sorted as `cmp` sees it (`Compares`), it finds the element `cmp` calls equal, or else the
place where such an element would have to stand (`binarySearchBy_spec`).
-/

namespace PartitionPoint

variable {α : Type*}

/-- The loop of `binary_search_by` : `size` elements from `base` on are left. -/
def search (pred : α → Bool) (l : List α) : ℕ → ℕ → ℕ → ℕ
  | 0, base, _ => base
  | fuel + 1, base, size =>
    if 1 < size then
      let half := size / 2
      let mid := base + half
      let base := if (l[mid]?).any pred then mid else base
      search pred l fuel base (size - half)
    else base

/-- The number of leading elements `pred` holds of. -/
def partitionPoint (pred : α → Bool) (l : List α) : ℕ :=
  if l = [] then 0
  else
    let base := search pred l l.length 0 l.length
    if (l[base]?).any pred then base + 1 else base

/-- `pred` holds of the first `k` elements and of no other. -/
structure Partitioned (pred : α → Bool) (l : List α) (k : ℕ) : Prop where
  le_length : k ≤ l.length
  iff : ∀ i x, l[i]? = some x → (pred x = true ↔ i < k)

variable {pred : α → Bool} {l : List α} {k : ℕ}

/-- The predicate holds below the point. -/
theorem Partitioned.any_iff (h : Partitioned pred l k) {i : ℕ} (hi : i < l.length) :
    (l[i]?).any pred = true ↔ i < k := by
  rw [List.getElem?_eq_getElem hi, Option.any_some]
  exact h.iff i _ (List.getElem?_eq_getElem hi)

/-- The partition point stays between `base` and the end of what is left. -/
theorem search_spec (h : Partitioned pred l k) : ∀ {fuel base size : ℕ}, 0 < size →
    size ≤ fuel → base + size ≤ l.length → base ≤ k → k ≤ base + size →
      search pred l fuel base size < l.length ∧ search pred l fuel base size ≤ k ∧
        k ≤ search pred l fuel base size + 1
  | 0, _, _, hpos, hfuel, _, _, _ => absurd hpos (by omega)
  | fuel + 1, base, size, hpos, hfuel, hlen, hbase, hk => by
    unfold search
    by_cases hsize : 1 < size
    · rw [if_pos hsize]
      have hmid := h.any_iff (i := base + size / 2) (by omega)
      by_cases hany : (l[base + size / 2]?).any pred = true
      · have := hmid.1 hany
        simp only [hany, if_true]
        exact search_spec h (by omega) (by omega) (by omega) (by omega) (by omega)
      · have := Nat.not_lt.1 fun hlt => hany (hmid.2 hlt)
        simp only [hany, Bool.false_eq_true, if_false]
        exact search_spec h (by omega) (by omega) (by omega) (by omega) (by omega)
    · rw [if_neg hsize]
      omega

/-- The search finds the point. -/
theorem partitionPoint_eq (h : Partitioned pred l k) : partitionPoint pred l = k := by
  unfold partitionPoint
  split_ifs with hnil
  · have := h.le_length
    rw [hnil, List.length_nil] at this
    omega
  · have hpos := List.length_pos_iff.2 hnil
    obtain ⟨hlt, hle, hge⟩ := search_spec h hpos (Nat.le_refl _)
      (show 0 + l.length ≤ l.length by omega) (Nat.zero_le _)
      (by have := h.le_length; omega)
    have hany := h.any_iff hlt
    by_cases hb : (l[search pred l l.length 0 l.length]?).any pred = true
    · have := hany.1 hb
      simp only [hb, if_true]
      omega
    · have := Nat.not_lt.1 fun hlt' => hb (hany.2 hlt')
      simp only [hb, Bool.false_eq_true, if_false]
      omega

/-- A predicate that holds of what stands before an element it holds of partitions the
list. -/
theorem exists_partitioned (h : l.Pairwise fun x y => pred y = true → pred x = true) :
    ∃ k, Partitioned pred l k := by
  induction l with
  | nil => exact ⟨0, Nat.le_refl _, by simp⟩
  | cons x l ih =>
    obtain ⟨hx, hl⟩ := List.pairwise_cons.1 h
    obtain ⟨k, hk, hiff⟩ := ih hl
    by_cases hpx : pred x = true
    · refine ⟨k + 1, by simpa using hk, fun i y hi => ?_⟩
      cases i with
      | zero => simpa [← Option.some.inj hi] using hpx
      | succ i => simpa using hiff i y (by simpa using hi)
    · refine ⟨0, Nat.zero_le _, fun i y hi => iff_of_false ?_ (Nat.not_lt_zero i)⟩
      cases i with
      | zero => simpa [← Option.some.inj hi] using hpx
      | succ i => exact fun hy => hpx (hx y (List.mem_of_getElem? hi) hy)

/-- On such a list the partition point separates the elements. -/
theorem partitionPoint_spec (h : l.Pairwise fun x y => pred y = true → pred x = true) :
    partitionPoint pred l ≤ l.length ∧
      (∀ x ∈ l.take (partitionPoint pred l), pred x = true) ∧
      ∀ x ∈ l.drop (partitionPoint pred l), pred x = false := by
  obtain ⟨k, hk⟩ := exists_partitioned h
  rw [partitionPoint_eq hk]
  refine ⟨hk.le_length, ?_, ?_⟩
  · intro x hx
    obtain ⟨i, hi⟩ := List.getElem?_of_mem hx
    rw [List.getElem?_take] at hi
    split_ifs at hi with hlt
    exact (hk.iff i x hi).2 hlt
  · intro x hx
    obtain ⟨i, hi⟩ := List.getElem?_of_mem hx
    rw [List.getElem?_drop] at hi
    rw [Bool.eq_false_iff]
    exact fun hp => absurd ((hk.iff _ x hi).1 hp) (by omega)

/-! ## Predicates with a state -/

section State

variable {σ : Type*}

/-- The loop of `search` with a predicate that has a state. -/
def searchS (pred : α → σ → Bool × σ) (l : List α) : ℕ → ℕ → ℕ → σ → ℕ × σ
  | 0, base, _, s => (base, s)
  | fuel + 1, base, size, s =>
    if 1 < size then
      let half := size / 2
      let mid := base + half
      match (l[mid]?).map (pred · s) with
      | some (true, s) => searchS pred l fuel mid (size - half) s
      | some (false, s) => searchS pred l fuel base (size - half) s
      | none => searchS pred l fuel base (size - half) s
    else (base, s)

/-- `searchS` on the whole list, and the comparison behind the loop. -/
def partitionPointS (pred : α → σ → Bool × σ) (l : List α) (s : σ) : ℕ × σ :=
  if l = [] then (0, s)
  else
    let (base, s) := searchS pred l l.length 0 l.length s
    match (l[base]?).map (pred · s) with
    | some (true, s) => (base + 1, s)
    | some (false, s) => (base, s)
    | none => (base, s)

/-- `pred`, noting `f` of the elements it does not hold of. -/
def noting (pred : α → Bool) (f : α → σ) (x : α) (s : σ) : Bool × σ :=
  if pred x then (true, s) else (false, f x)

/-- What is noted while up to `stop` elements are left : nothing, or an element at their end
that the predicate does not hold of. -/
def Noted (l : List α) (k : ℕ) (f : α → σ) (start : σ) (stop : ℕ) (s : σ) : Prop :=
  (s = start ∧ stop = l.length) ∨
    ∃ e x, l[e]? = some x ∧ s = f x ∧ k ≤ e ∧ e ≤ stop ∧ stop ≤ e + 1

variable {f : α → σ} {start : σ}

theorem searchS_noting (f : α → σ) (start : σ) (h : Partitioned pred l k) :
    ∀ {fuel base size : ℕ} {s : σ}, 0 < size → size ≤ fuel → base + size ≤ l.length → base ≤ k →
      k ≤ base + size → Noted l k f start (base + size) s →
        ∃ base' s', searchS (noting pred f) l fuel base size s = (base', s') ∧
          base' < l.length ∧ base' ≤ k ∧ k ≤ base' + 1 ∧ Noted l k f start (base' + 1) s'
  | 0, _, _, _, hpos, hfuel, _, _, _, _ => absurd hpos (by omega)
  | fuel + 1, base, size, s, hpos, hfuel, hlen, hbase, hk, hs => by
    unfold searchS
    by_cases hsize : 1 < size
    · rw [if_pos hsize]
      have hmid : base + size / 2 < l.length := by omega
      have hiff := h.iff _ _ (List.getElem?_eq_getElem hmid)
      simp only [List.getElem?_eq_getElem hmid, Option.map_some, noting]
      by_cases hp : pred l[base + size / 2] = true
      · have := hiff.1 hp
        simp only [hp, if_true]
        refine searchS_noting f start h (by omega) (by omega) (by omega) (by omega) (by omega) ?_
        rwa [show base + size / 2 + (size - size / 2) = base + size by omega]
      · have := Nat.not_lt.1 fun hlt => hp (hiff.2 hlt)
        simp only [hp, Bool.false_eq_true, if_false]
        exact searchS_noting f start h (by omega) (by omega) (by omega) (by omega) (by omega)
          (Or.inr ⟨_, _, List.getElem?_eq_getElem hmid, rfl, this, by omega, by omega⟩)
    · rw [if_neg hsize]
      obtain rfl : size = 1 := by omega
      exact ⟨base, s, rfl, by omega, hbase, hk, hs⟩

/-- The partition point, and what was noted of it. -/
theorem partitionPointS_eq (h : Partitioned pred l k) (start : σ) :
    partitionPointS (noting pred f) l start = (k, (l[k]?).elim start f) := by
  unfold partitionPointS
  split_ifs with hnil
  · have := h.le_length
    rw [hnil, List.length_nil] at this
    obtain rfl : k = 0 := by omega
    rw [hnil]
    rfl
  · have hpos := List.length_pos_iff.2 hnil
    have hle := h.le_length
    obtain ⟨base, s, heq, hlt, hbase, hk, hs⟩ := searchS_noting f start h hpos
      (Nat.le_refl _) (show 0 + l.length ≤ l.length by omega) (Nat.zero_le _) (by omega)
      (Or.inl ⟨rfl, Nat.zero_add _⟩)
    have hiff := h.iff base _ (List.getElem?_eq_getElem hlt)
    simp only [heq, List.getElem?_eq_getElem hlt, Option.map_some, noting]
    by_cases hp : pred l[base] = true
    · obtain rfl : k = base + 1 := by
        have := hiff.1 hp
        omega
      simp only [hp, if_true]
      rcases hs with ⟨rfl, hstop⟩ | ⟨e, x, he, rfl, hke, hestop, -⟩
      · rw [List.getElem?_eq_none (by omega)]
        rfl
      · obtain rfl : e = base + 1 := by omega
        rw [he]
        rfl
    · obtain rfl : k = base := by
        have := Nat.not_lt.1 fun hlt' => hp (hiff.2 hlt')
        omega
      simp only [hp, Bool.false_eq_true, if_false, List.getElem?_eq_getElem hlt]
      rfl

end State

/-! ## Binary search -/

/-- `slice::binary_search_by` : the index of an element that compares equal, or the index at
which one can be inserted. -/
def binarySearchBy (cmp : α → Ordering) (l : List α) : Except ℕ ℕ :=
  if l = [] then .error 0
  else
    let base := search (fun x => cmp x != .gt) l l.length 0 l.length
    match (l[base]?).map cmp with
    | some .eq => .ok base
    | some .lt => .error (base + 1)
    | _ => .error base

/-- The elements are sorted as `cmp` sees them : those that are less come first, then at most
one that is equal, then those that are greater. -/
def Compares (cmp : α → Ordering) (l : List α) : Prop :=
  l.Pairwise fun x y => cmp y ≠ .gt → cmp x = .lt

/-- Where an element does not compare greater, no earlier one does. -/
theorem Compares.pairwise {cmp : α → Ordering} (h : Compares cmp l) :
    l.Pairwise fun x y => (cmp y != .gt) = true → (cmp x != .gt) = true :=
  h.imp fun hxy hy => by simp [hxy (by simpa using hy)]

/-- The loop only moves to elements the predicate holds of. -/
theorem search_eq_zero_or_lt (h : Partitioned pred l k) : ∀ {fuel base size : ℕ},
    base + size ≤ l.length → base = 0 ∨ base < k →
      search pred l fuel base size = 0 ∨ search pred l fuel base size < k
  | 0, _, _, _, hbase => hbase
  | fuel + 1, base, size, hlen, hbase => by
    unfold search
    by_cases hsize : 1 < size
    · rw [if_pos hsize]
      have hmid := h.any_iff (i := base + size / 2) (by omega)
      by_cases hany : (l[base + size / 2]?).any pred = true
      · simp only [hany, if_true]
        exact search_eq_zero_or_lt h (by omega) (Or.inr (hmid.1 hany))
      · simp only [hany, Bool.false_eq_true, if_false]
        exact search_eq_zero_or_lt h (by omega) hbase
    · rw [if_neg hsize]
      exact hbase

/-- What a search that found nothing says about the index. -/
structure Vacancy (cmp : α → Ordering) (l : List α) (i : ℕ) : Prop where
  le_length : i ≤ l.length
  lt_of_mem_take : ∀ x ∈ l.take i, cmp x = .lt
  gt_of_mem_drop : ∀ x ∈ l.drop i, cmp x = .gt

/-- In front of an element that is not greater all elements are less, behind an element that
is not less all are greater. -/
theorem Compares.split {cmp : α → Ordering} (h : Compares cmp l) {i : ℕ} {x : α}
    (hi : l[i]? = some x) :
    (cmp x ≠ .gt → ∀ y ∈ l.take i, cmp y = .lt) ∧
      (cmp x ≠ .lt → ∀ y ∈ l.drop (i + 1), cmp y = .gt) := by
  have hpair := List.pairwise_iff_getElem.1 h
  obtain ⟨hilt, rfl⟩ := List.getElem?_eq_some_iff.1 hi
  refine ⟨fun hx y hy => ?_, fun hx y hy => ?_⟩
  · obtain ⟨j, hj, rfl⟩ := List.mem_take_iff_getElem.1 hy
    exact hpair j i (by omega) hilt (by omega) hx
  · obtain ⟨j, hj, rfl⟩ := List.mem_drop_iff_getElem.1 hy
    by_contra hne
    exact hx (hpair i (i + 1 + j) hilt (by omega) (by omega) hne)

/-- A search finds an equal element, or the place where one would stand. -/
theorem binarySearchBy_spec {cmp : α → Ordering} (h : Compares cmp l) :
    (∃ i x, binarySearchBy cmp l = .ok i ∧ l[i]? = some x ∧ cmp x = .eq) ∨
      ∃ i, binarySearchBy cmp l = .error i ∧ Vacancy cmp l i := by
  unfold binarySearchBy
  split_ifs with hnil
  · exact Or.inr ⟨0, rfl, Nat.zero_le _, by simp, by simp [hnil]⟩
  obtain ⟨k, hk⟩ := exists_partitioned h.pairwise
  have hpos := List.length_pos_iff.2 hnil
  obtain ⟨hlt, -, hge⟩ := search_spec hk hpos (Nat.le_refl _)
    (show 0 + l.length ≤ l.length by omega) (Nat.zero_le _)
    (by have := hk.le_length; omega)
  have hzero : search (fun x => cmp x != .gt) l l.length 0 l.length = 0 ∨
      search (fun x => cmp x != .gt) l l.length 0 l.length < k :=
    search_eq_zero_or_lt hk (show 0 + l.length ≤ l.length by omega) (Or.inl rfl)
  generalize search (fun x => cmp x != .gt) l l.length 0 l.length = base at hlt hge hzero ⊢
  have hbase : l[base]? = some l[base] := List.getElem?_eq_getElem hlt
  obtain ⟨hbefore, hbehind⟩ := h.split hbase
  have hiff := hk.iff base _ hbase
  simp only [bne_iff_ne] at hiff
  simp only [hbase, Option.map_some]
  cases hcmp : cmp l[base] with
  | eq => exact Or.inl ⟨base, l[base], rfl, hbase, hcmp⟩
  | lt =>
    refine Or.inr ⟨base + 1, rfl, hlt, fun x hx => ?_, fun x hx => ?_⟩
    · rw [List.take_succ_eq_append_getElem hlt, List.mem_append, List.mem_singleton] at hx
      rcases hx with hx | rfl
      · exact hbefore (by simp [hcmp]) x hx
      · exact hcmp
    · -- `base` was the last element that is not greater
      obtain ⟨j, hj, rfl⟩ := List.mem_drop_iff_getElem.1 hx
      have := hk.iff (base + 1 + j) _ (List.getElem?_eq_getElem (by omega))
      by_contra hne
      have := this.1 (by simpa using hne)
      omega
  | gt =>
    have hge' : ¬base < k := fun hlt' => hiff.2 hlt' hcmp
    obtain rfl : base = 0 := hzero.resolve_right hge'
    refine Or.inr ⟨0, rfl, Nat.zero_le _, by simp, fun x hx => ?_⟩
    cases l with
    | nil => exact absurd rfl hnil
    | cons y l =>
      rcases List.mem_cons.1 hx with rfl | hx
      · exact hcmp
      · exact hbehind (by rw [hcmp]; simp) x hx

end PartitionPoint
