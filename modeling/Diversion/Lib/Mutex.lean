import Diversion.Lib.Pool
import Diversion.Lib.Transition

/-!
# What a mutex is for

The lock as its users see it : the process that owns it, if any, takes it and gives it back.
An implementation is a mutex if its runs are matched by runs of `Mutex.step`
(`Transition.run_simulates`), and a program that uses one steps its owner with
`Mutex.step` itself.

`Owns p xs owner` ties the owner to a pool : it is the process whose local state satisfies
`p`, so at most one does (`Owns.unique`). The lemmas are the four ways a step can keep it.
-/

namespace Mutex

section Step

variable {ι : Type*} [DecidableEq ι]

/-- What `i` does with the mutex. -/
inductive Event (ι : Type*) where
  | acquire (i : ι)
  | release (i : ι)
deriving DecidableEq, Repr

/-- The owner after the event, if the event can happen. -/
def step (owner : Option ι) : Event ι → Option (Option ι)
  | .acquire i => if owner = none then some (some i) else none
  | .release i => if owner = some i then some none else none

/-- Only a free mutex is acquired. -/
@[simp] theorem step_acquire_eq_some {owner owner' : Option ι} {i : ι} :
    step owner (.acquire i) = some owner' ↔ owner = none ∧ owner' = some i := by
  simp only [step, Option.ite_none_right_eq_some, Option.some.injEq, eq_comm (a := owner')]

/-- Only the owner releases it. -/
@[simp] theorem step_release_eq_some {owner owner' : Option ι} {i : ι} :
    step owner (.release i) = some owner' ↔ owner = some i ∧ owner' = none := by
  simp only [step, Option.ite_none_right_eq_some, Option.some.injEq, eq_comm (a := owner')]

end Step

/-! ## The owner in a pool -/

section Owns

variable {α : Type*} {p : α → Bool} {xs : List α} {owner : Option ℕ} {i j : ℕ} {a b : α}

/-- The owner is the process that satisfies `p`. -/
def Owns (p : α → Bool) (xs : List α) (owner : Option ℕ) : Prop :=
  ∀ i, owner = some i ↔ ∃ a, xs[i]? = some a ∧ p a = true

theorem owns_nil : Owns p [] none := by
  simp [Owns]

/-- Whoever is marked is the owner. -/
theorem Owns.eq_some (h : Owns p xs owner) (hget : xs[i]? = some a) (ha : p a = true) :
    owner = some i :=
  (h i).2 ⟨a, hget, ha⟩

/-- At most one is marked. -/
theorem Owns.unique (h : Owns p xs owner) (hi : xs[i]? = some a) (ha : p a = true)
    (hj : xs[j]? = some b) (hb : p b = true) : i = j :=
  Option.some.inj ((h.eq_some hi ha).symm.trans (h.eq_some hj hb))

/-- What a process that is not the owner satisfies. -/
theorem Owns.eq_false (h : Owns p xs owner) (hget : xs[i]? = some a) (hne : owner ≠ some i) :
    p a = false :=
  Bool.eq_false_iff.2 fun ha => hne (h.eq_some hget ha)

/-- The owner is marked. -/
theorem Owns.of_some (h : Owns p xs (some i)) (hget : xs[i]? = some a) : p a = true := by
  obtain ⟨b, hb, hpb⟩ := (h i).1 rfl
  exact Option.some.inj (hget.symm.trans hb) ▸ hpb

theorem owns_set_iff (hget : xs[i]? = some a) : (∃ c, (xs.set i b)[j]? = some c ∧ p c = true) ↔
    (i = j ∧ p b = true) ∨ (i ≠ j ∧ ∃ c, xs[j]? = some c ∧ p c = true) := by
  by_cases hij : i = j
  · subst hij
    simp [Pool.getElem?_set_of_getElem? hget]
  · simp [List.getElem?_set_ne hij, hij]

/-- A step that neither takes the lock nor gives it back. -/
theorem Owns.set (h : Owns p xs owner) (hget : xs[i]? = some a) (hp : p b = p a) :
    Owns p (xs.set i b) owner := by
  intro j
  rw [owns_set_iff hget, h j]
  by_cases hij : i = j
  · subst hij
    simp [hget, hp]
  · simp [hij]

/-- Marking one where nobody is. -/
theorem Owns.acquire (h : Owns p xs none) (hget : xs[i]? = some a) (hb : p b = true) :
    Owns p (xs.set i b) (some i) := by
  intro j
  rw [owns_set_iff hget, ← h j]
  simp [hb]

/-- Taking the mark off. -/
theorem Owns.release (h : Owns p xs (some i)) (hget : xs[i]? = some a) (hb : p b = false) :
    Owns p (xs.set i b) none := by
  intro j
  rw [owns_set_iff hget, ← h j]
  simp [hb]

/-- A new process that does not own the lock. -/
theorem Owns.append (h : Owns p xs owner) (hb : p b = false) : Owns p (xs ++ [b]) owner := by
  intro j
  rw [h j, List.getElem?_append]
  split_ifs with hj
  · rfl
  · rw [List.getElem?_eq_none (Nat.not_lt.1 hj)]
    refine iff_of_false (by simp) ?_
    rintro ⟨c, hc, hpc⟩
    obtain rfl := List.mem_singleton.1 (List.mem_of_getElem? hc)
    simp [hb] at hpc

end Owns

end Mutex
