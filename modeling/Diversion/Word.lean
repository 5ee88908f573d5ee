import Diversion.Lib.Align
import Mathlib.Algebra.Group.Nat.Defs
import Mathlib.Data.Nat.Basic
import Mathlib.Tactic.Common

/-!
# Machine words

The target is 64-bit : a `usize` is a natural number below `wordSize`, and the operations
that can leave that range are the wrapping and saturating ones of the source.
-/

namespace Diversion

/-- The number of `usize` (and `u64`) values. -/
def wordSize : ℕ :=
  2 ^ 64

/-- `usize::MAX`. -/
def usizeMax : ℕ :=
  2 ^ 64 - 1

/-- `isize::MAX`, also the largest address Rust supports. -/
def isizeMax : ℕ :=
  2 ^ 63 - 1

/-- `u32::MAX`. -/
def u32Max : ℕ :=
  2 ^ 32 - 1

/-- `usize::wrapping_add`. -/
def wrappingAdd (a b : ℕ) : ℕ :=
  (a + b) % wordSize

theorem wrappingAdd_eq {a b : ℕ} (h : a + b < wordSize) : wrappingAdd a b = a + b :=
  Nat.mod_eq_of_lt h

/-- `usize::wrapping_sub`. -/
def wrappingSub (a b : ℕ) : ℕ :=
  (a + wordSize - b) % wordSize

theorem wrappingSub_eq {a b : ℕ} (hb : b ≤ a) (ha : a < wordSize) : wrappingSub a b = a - b := by
  unfold wrappingSub wordSize at *
  omega

/-- `usize::wrapping_neg`. -/
def wrappingNeg (a : ℕ) : ℕ :=
  (wordSize - a) % wordSize

/-- `usize::saturating_add_signed`. -/
def saturatingAddSigned (a : ℕ) (d : ℤ) : ℕ :=
  (max 0 (min ((a : ℤ) + d) usizeMax)).toNat

theorem saturatingAddSigned_lt (a : ℕ) (d : ℤ) : saturatingAddSigned a d < wordSize := by
  unfold saturatingAddSigned usizeMax wordSize
  omega

theorem saturatingAddSigned_le_iff {a x : ℕ} {d : ℤ} (hx : x < usizeMax) :
    saturatingAddSigned a d ≤ x ↔ d ≤ (x : ℤ) - a := by
  unfold saturatingAddSigned usizeMax at *
  omega

theorem le_saturatingAddSigned_iff {a x : ℕ} {d : ℤ} (hpos : 0 < x) (hx : x ≤ usizeMax) :
    x ≤ saturatingAddSigned a d ↔ (x : ℤ) - a ≤ d := by
  unfold saturatingAddSigned usizeMax at *
  omega

/-- `usize::next_multiple_of`. It wraps on overflow, as in a release build. -/
def nextMultipleOf (a b : ℕ) : ℕ :=
  if a % b = 0 then a else wrappingAdd a (b - a % b)

theorem le_nextMultipleOf {a b : ℕ} (h : a + b < wordSize) : a ≤ nextMultipleOf a b := by
  unfold nextMultipleOf
  split_ifs
  · exact le_rfl
  · rw [wrappingAdd_eq (by omega)]
    omega

/-- Rounding up to a multiple, as long as the multiple fits. -/
theorem nextMultipleOf_eq {a b : ℕ} (hb : 0 < b) (h : Align.up a b < wordSize) :
    nextMultipleOf a b = Align.up a b := by
  rw [Align.up_eq_ite hb] at h ⊢
  unfold nextMultipleOf
  split_ifs with hmod
  · rfl
  · rw [if_neg hmod] at h
    exact wrappingAdd_eq h

/-- Rounding down to a multiple of a power of two. -/
theorem and_wrappingNeg_two_pow {a k : ℕ} (ha : a < wordSize) (hk : k < 64) :
    a &&& wrappingNeg (2 ^ k) = Align.down a (2 ^ k) := by
  have hneg : wrappingNeg (2 ^ k) = 2 ^ 64 - 2 ^ k := by
    have := Nat.two_pow_pos k
    exact Nat.mod_eq_of_lt (by unfold wordSize; omega)
  rw [hneg]
  exact Align.and_two_pow_sub_two_pow ha hk.le

end Diversion
