import Mathlib.Data.Nat.Notation
import Mathlib.Tactic.Common

/-!
# Reference counts

The two counts of a shared allocation, `std::sync::Arc` and `Weak` : the strong references
together hold one weak reference, the value goes with the last strong reference and the
allocation with the last weak one. `Backs` ties the counts to the references there are.
-/

/-- The counts of an `Arc`. The strong references hold one weak reference together. -/
structure RefCount where
  strong : ℕ
  weak : ℕ
deriving DecidableEq, Repr

namespace RefCount

/-- `Arc::new`. -/
def new : RefCount :=
  ⟨1, 1⟩

/-- `Arc::downgrade`. -/
def downgrade (c : RefCount) : RefCount :=
  { c with weak := c.weak + 1 }

/-- `Weak::upgrade`. -/
def upgrade (c : RefCount) : Option RefCount :=
  if c.strong = 0 then none else some { c with strong := c.strong + 1 }

/-- A `Weak` is dropped. -/
def dropWeak (c : RefCount) : RefCount :=
  { c with weak := c.weak - 1 }

/-- An `Arc` is dropped. -/
def dropStrong (c : RefCount) : RefCount :=
  if c.strong = 1 then dropWeak { c with strong := 0 } else { c with strong := c.strong - 1 }

/-- The drop of an `Arc` gives the allocation back. -/
def dropStrongFrees (c : RefCount) : Bool :=
  c.strong = 1 && c.weak = 1

/-- The counts are those of `arcs` strong and `weaks` weak references. -/
structure Backs (c : RefCount) (arcs weaks : ℕ) : Prop where
  strong : c.strong = arcs
  weak : c.weak = (if arcs = 0 then 0 else 1) + weaks

variable {c c' : RefCount} {arcs weaks : ℕ}

/-- A fresh `Arc` has one reference. -/
theorem backs_new : new.Backs 1 0 :=
  ⟨rfl, rfl⟩

/-- `downgrade` adds a weak reference. -/
theorem Backs.downgrade (h : c.Backs arcs weaks) : c.downgrade.Backs arcs (weaks + 1) :=
  ⟨h.strong, by rw [RefCount.downgrade, h.weak, Nat.add_assoc]⟩

/-- An upgrade needs a strong reference. -/
theorem Backs.exists_upgrade (h : c.Backs arcs weaks) (hpos : 0 < arcs) :
    ∃ c', c.upgrade = some c' := by
  rw [RefCount.upgrade, if_neg (by rw [h.strong]; omega)]
  exact ⟨_, rfl⟩

/-- `upgrade` adds a strong one where there is one. -/
theorem Backs.of_upgrade (h : c.Backs arcs weaks) (hc' : c.upgrade = some c') :
    c'.Backs (arcs + 1) weaks := by
  have hweak := h.weak
  rw [RefCount.upgrade, h.strong] at hc'
  split_ifs at hc' with hzero
  obtain rfl := Option.some.inj hc'
  rw [if_neg hzero] at hweak
  exact ⟨rfl, hweak⟩

/-- A weak reference is dropped. -/
theorem Backs.dropWeak (h : c.Backs arcs (weaks + 1)) : c.dropWeak.Backs arcs weaks := by
  refine ⟨h.strong, ?_⟩
  change c.weak - 1 = _
  rw [h.weak, ← Nat.add_assoc, Nat.add_sub_cancel]

/-- A strong reference is dropped. -/
theorem Backs.dropStrong (h : c.Backs (arcs + 1) weaks) : c.dropStrong.Backs arcs weaks := by
  have hstrong := h.strong
  have hweak := h.weak
  rw [if_neg (by omega)] at hweak
  unfold RefCount.dropStrong
  split_ifs with hone
  · obtain rfl : arcs = 0 := by omega
    exact ⟨rfl, by simp [RefCount.dropWeak, hweak]⟩
  · exact ⟨by dsimp only; omega, by rw [if_neg (by omega)]; exact hweak⟩

/-- As long as there is another weak reference the allocation stays. -/
theorem Backs.dropStrongFrees (h : c.Backs arcs (weaks + 1)) : c.dropStrongFrees = false := by
  have hstrong := h.strong
  have hweak := h.weak
  unfold RefCount.dropStrongFrees
  split_ifs at hweak <;> simp <;> omega

end RefCount
