import Mathlib.Algebra.GroupWithZero.Nat
import Mathlib.Data.List.Basic

/-!
# Pools of processes

A pool is the list of the local states of its processes, and a step of process `i` is
`pool.set i x`. Counting the processes whose local state satisfies `p` is how shared
counters are tied to the pool : `countP_set_add` is what one step does to the count, and
two processes that both satisfy `p` make it at least two.
-/

namespace Pool

variable {α : Type*} {p : α → Bool} {xs : List α} {i j : ℕ} {a b c : α}

/-- An element of a changed list is the new one or was there. -/
theorem mem_of_getElem?_set (h : (xs.set i b)[j]? = some c) :
    (i = j ∧ c = b) ∨ (i ≠ j ∧ xs[j]? = some c) := by
  by_cases hij : i = j
  · subst hij
    rw [List.getElem?_set_self'] at h
    cases hx : xs[i]? with
    | none => simp [hx] at h
    | some a => exact Or.inl ⟨rfl, by simpa [hx, eq_comm] using h⟩
  · exact Or.inr ⟨hij, by rwa [List.getElem?_set_ne hij] at h⟩

theorem getElem?_set_of_getElem? (h : xs[i]? = some a) : (xs.set i b)[i]? = some b := by
  obtain ⟨hi, -⟩ := List.getElem?_eq_some_iff.1 h
  exact List.getElem?_set_self hi

/-- A process of a pool that one process has joined. -/
theorem getElem?_of_append (h : (xs ++ [b])[j]? = some c) :
    (j = xs.length ∧ c = b) ∨ xs[j]? = some c := by
  have hj := (List.getElem?_eq_some_iff.1 h).1
  rw [List.length_append, List.length_singleton] at hj
  rcases Nat.lt_succ_iff_lt_or_eq.1 hj with hj | rfl
  · exact Or.inr (by rwa [List.getElem?_append_left hj] at h)
  · exact Or.inl ⟨rfl, by simpa [eq_comm] using h⟩

theorem getElem?_append_of_getElem? (h : xs[i]? = some a) : (xs ++ [b])[i]? = some a := by
  rw [List.getElem?_append_left (List.getElem?_eq_some_iff.1 h).1, h]

/-- A process that joins outside `p` is not counted. -/
theorem countP_append_of_eq_false (hp : p b = false) : (xs ++ [b]).countP p = xs.countP p := by
  rw [List.countP_append, List.countP_singleton, hp]
  exact Nat.add_zero _

/-- A step of process `i` from `a` to `b` moves the count by the difference of the two. -/
theorem countP_set_add (h : xs[i]? = some a) :
    (xs.set i b).countP p + (if p a then 1 else 0) = xs.countP p + (if p b then 1 else 0) := by
  induction xs generalizing i with
  | nil => simp at h
  | cons x xs ih =>
    cases i with
    | zero =>
      obtain rfl : x = a := by simpa using h
      simp only [List.set_cons_zero, List.countP_cons]
      omega
    | succ i =>
      have := ih (by simpa using h)
      simp only [List.set_cons_succ, List.countP_cons]
      omega

/-- A step of process `i` moves a sum over the pool by the difference of its two terms. -/
theorem sum_map_set_add (f : α → ℕ) (h : xs[i]? = some a) :
    ((xs.set i b).map f).sum + f a = (xs.map f).sum + f b := by
  induction xs generalizing i with
  | nil => simp at h
  | cons x xs ih =>
    cases i with
    | zero =>
      obtain rfl : x = a := by simpa using h
      simp only [List.set_cons_zero, List.map_cons, List.sum_cons]
      omega
    | succ i =>
      have := ih (by simpa using h)
      simp only [List.set_cons_succ, List.map_cons, List.sum_cons]
      omega

/-- The processes other than `i` count the same before and after its step. -/
theorem exists_countP_set (b : α) (h : xs[i]? = some a) :
    ∃ n, xs.countP p = n + (p a).toNat ∧ (xs.set i b).countP p = n + (p b).toNat := by
  have hset := countP_set_add (p := p) (b := b) h
  have hnat : ∀ c, (if p c then 1 else 0) = (p c).toNat := fun c => by cases p c <;> rfl
  rw [hnat, hnat] at hset
  cases ha : p a with
  | false =>
    refine ⟨xs.countP p, rfl, ?_⟩
    rwa [ha, Bool.toNat_false, Nat.add_zero] at hset
  | true =>
    have hpos : 1 ≤ xs.countP p := List.countP_pos_iff.2 ⟨a, List.mem_of_getElem? h, ha⟩
    rw [ha, Bool.toNat_true] at hset
    exact ⟨xs.countP p - 1, by rw [Bool.toNat_true]; omega, by omega⟩

/-- A step that keeps `p` keeps the count. -/
theorem countP_set_of_eq (h : xs[i]? = some a) (hp : p b = p a) :
    (xs.set i b).countP p = xs.countP p := by
  have := countP_set_add (p := p) (b := b) h
  rw [hp] at this
  omega

/-- A step that does not lead into `p` does not raise the count. -/
theorem countP_set_le (h : xs[i]? = some a) (hp : p b = true → p a = true) :
    (xs.set i b).countP p ≤ xs.countP p := by
  have := countP_set_add (p := p) (b := b) h
  split_ifs at this with ha hb hb
  · omega
  · omega
  · exact absurd (hp hb) ha
  · omega

/-- One change adds one at most. -/
theorem countP_set_le_succ (h : xs[i]? = some a) :
    (xs.set i b).countP p ≤ xs.countP p + 1 := by
  have := countP_set_add (p := p) (b := b) h
  split_ifs at this <;> omega

theorem countP_pos_of_getElem? (h : xs[i]? = some a) (hp : p a) : 1 ≤ xs.countP p :=
  List.countP_pos_iff.2 ⟨a, List.mem_of_getElem? h, hp⟩

/-- Two processes that satisfy `p` count twice. -/
theorem two_le_countP (hij : i ≠ j) (hi : xs[i]? = some a) (hj : xs[j]? = some b) (ha : p a)
    (hb : p b) : 2 ≤ xs.countP p := by
  induction xs generalizing i j with
  | nil => simp at hi
  | cons x xs ih =>
    rw [List.countP_cons]
    cases i with
    | zero =>
      obtain rfl : x = a := by simpa using hi
      cases j with
      | zero => exact absurd rfl hij
      | succ j =>
        have := countP_pos_of_getElem? (show xs[j]? = some b by simpa using hj) hb
        simp only [ha, if_true]
        omega
    | succ i =>
      cases j with
      | zero =>
        obtain rfl : x = b := by simpa using hj
        have := countP_pos_of_getElem? (show xs[i]? = some a by simpa using hi) ha
        simp only [hb, if_true]
        omega
      | succ j =>
        have := ih (i := i) (j := j) (by omega) (by simpa using hi) (by simpa using hj)
        omega

/-- Something is counted. -/
theorem exists_of_countP_pos (h : 1 ≤ xs.countP p) :
    ∃ (i : ℕ) (a : α), xs[i]? = some a ∧ p a = true := by
  obtain ⟨a, hmem, ha⟩ := List.countP_pos_iff.1 h
  obtain ⟨i, hi⟩ := List.mem_iff_getElem?.1 hmem
  exact ⟨i, a, hi, ha⟩

/-- Two things are counted. -/
theorem exists_two_of_countP (h : 2 ≤ xs.countP p) :
    ∃ (i j : ℕ) (a b : α), i ≠ j ∧ xs[i]? = some a ∧ xs[j]? = some b ∧ p a = true ∧ p b = true := by
  induction xs with
  | nil => simp at h
  | cons x xs ih =>
    rw [List.countP_cons] at h
    by_cases hx : p x = true
    · simp only [hx, if_true] at h
      obtain ⟨j, b, hj, hb⟩ := exists_of_countP_pos (Nat.le_of_succ_le_succ h)
      exact ⟨0, j + 1, x, b, by omega, by simp, by simpa using hj, hx, hb⟩
    · simp only [hx] at h
      obtain ⟨i, j, a, b, hne, hi, hj, ha, hb⟩ := ih h
      exact ⟨i + 1, j + 1, a, b, by omega, by simpa using hi, by simpa using hj, ha, hb⟩

end Pool
