import Mathlib.Tactic.TypeStar
import Mathlib.Tactic.Common

/-!
# Iterators made of a closure

Rust's `iter::from_fn` : a closure with a state that yields the next item or `none`. `Yields
next s l` says that from the state `s` on the closure yields exactly the items `l` and then
`none`, so that the iterator ends.
-/

namespace FromFn

variable {σ α : Type*}

/-- From `s` on the closure yields `l`, and then ends. -/
def Yields (next : σ → Option (α × σ)) : σ → List α → Prop
  | s, [] => next s = none
  | s, x :: l => ∃ t, next s = some (x, t) ∧ Yields next t l

variable {next : σ → Option (α × σ)} {s t : σ} {x : α} {l : List α}

theorem Yields.nil (h : next s = none) : Yields next s [] :=
  h

theorem Yields.cons (h : next s = some (x, t)) (ht : Yields next t l) : Yields next s (x :: l) :=
  ⟨t, h, ht⟩

end FromFn
