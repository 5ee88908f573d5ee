import Mathlib.Tactic.TypeStar
import Mathlib.Data.List.Basic

/-!
# Chains of links

`R p n q` says that the node `n` at `p` points to `q`. `Chain R p ns q` follows the pointers
from `p` to `q` and lists the nodes on the way. A push at the front is one more link, and
the chain survives every change that keeps the links it has (`Chain.imp`). Where a pointer is
at most one node's and the end is none's there is one chain (`Chain.unique`), so following
it does not loop.
-/

namespace Links

variable {π ν : Type*} {R R' : π → ν → π → Prop} {p q r : π} {n : ν} {ns ns' : List ν}

/-- The values along a path from the first place to the last, each step linked by `R`. -/
inductive Chain (R : π → ν → π → Prop) : π → List ν → π → Prop where
  | nil (p : π) : Chain R p [] p
  | cons {p q r : π} {n : ν} {ns : List ν} (hlink : R p n q) (hchain : Chain R q ns r) :
      Chain R p (n :: ns) r

/-- A path for another relation. -/
theorem Chain.imp (h : Chain R p ns q) (himp : ∀ p n q, R p n q → R' p n q) :
    Chain R' p ns q := by
  induction h with
  | nil p => exact .nil p
  | cons hlink _ ih => exact .cons (himp _ _ _ hlink) ih

/-- A node is pushed in front of the chain, at a pointer of its own. -/
theorem Chain.push (h : Chain R q ns r) (himp : ∀ p n q, R p n q → R' p n q)
    (hlink : R' p n q) : Chain R' p (n :: ns) r :=
  .cons hlink (h.imp himp)

theorem Chain.unique (hfun : ∀ p n q n' q', R p n q → R p n' q' → n = n' ∧ q = q')
    (hend : ∀ n q, ¬R r n q) (h : Chain R p ns r) (h' : Chain R p ns' r) : ns = ns' := by
  induction h generalizing ns' with
  | nil p =>
    cases h' with
    | nil => rfl
    | cons hlink _ => exact absurd hlink (hend _ _)
  | cons hlink _ ih =>
    cases h' with
    | nil => exact absurd hlink (hend _ _)
    | cons hlink' hchain' =>
      obtain ⟨rfl, rfl⟩ := hfun _ _ _ _ _ hlink hlink'
      rw [ih hend hchain']

end Links
