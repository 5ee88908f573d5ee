import Mathlib.Algebra.Group.Nat.Defs
import Mathlib.Data.Nat.Basic
import Mathlib.Order.Nat
import Mathlib.Tactic.Common

/-!
# Rounding to multiples

`down x n` is the greatest multiple of `n` up to `x` and `up x n` the least one from `x` on,
which is how `le_down_iff` and `up_le_iff` say it. On words of `w` bits, rounding down to a
multiple of `2 ^ k` is masking the low bits off (`and_two_pow_sub_two_pow`).
-/

namespace Align

variable {x y n m : ℕ}

/-- The last multiple of `n` that is not above `x`. -/
def down (x n : ℕ) : ℕ :=
  x / n * n

/-- The first multiple of `n` that is not below `x`. -/
def up (x n : ℕ) : ℕ :=
  (x + n - 1) / n * n

theorem dvd_down (x n : ℕ) : n ∣ down x n :=
  Nat.dvd_mul_left _ _

theorem dvd_up (x n : ℕ) : n ∣ up x n :=
  Nat.dvd_mul_left _ _

theorem down_le (x n : ℕ) : down x n ≤ x :=
  Nat.div_mul_le_self x n

/-- Less than a step is lost. -/
theorem lt_down_add (hn : 0 < n) : x < down x n + n :=
  Nat.lt_div_mul_add hn

/-- A multiple is below `x` just where it is below its alignment. -/
theorem le_down_iff (hy : n ∣ y) : y ≤ down x n ↔ y ≤ x := by
  obtain ⟨k, rfl⟩ := hy
  refine ⟨fun h => h.trans (down_le x n), fun h => ?_⟩
  rcases Nat.eq_zero_or_pos n with rfl | hn
  · simp
  · rw [down, Nat.mul_comm n k]
    rw [Nat.mul_comm] at h
    exact Nat.mul_le_mul_right n ((Nat.le_div_iff_mul_le hn).2 h)

theorem down_mono (h : x ≤ y) : down x n ≤ down y n :=
  Nat.mul_le_mul_right n (Nat.div_le_div_right h)

/-- Less than a step is added. -/
theorem up_lt_add (hn : 0 < n) : up x n < x + n := by
  have := down_le (x + n - 1) n
  unfold up
  unfold down at this
  omega

theorem le_up (hn : 0 < n) : x ≤ up x n := by
  have := lt_down_add (x := x + n - 1) hn
  unfold up
  unfold down at this
  omega

/-- A multiple is above `x` just where it is above its alignment. -/
theorem up_le_iff (hn : 0 < n) (hy : n ∣ y) : up x n ≤ y ↔ x ≤ y := by
  refine ⟨(le_up hn).trans, fun h => ?_⟩
  obtain ⟨k, rfl⟩ := hy
  rw [up, Nat.mul_comm n k]
  refine Nat.mul_le_mul_right n (Nat.lt_succ_iff.1 ((Nat.div_lt_iff_lt_mul hn).2 ?_))
  rw [Nat.succ_mul, Nat.mul_comm k n]
  omega

theorem up_eq_self (hn : 0 < n) (hx : n ∣ x) : up x n = x :=
  Nat.le_antisymm ((up_le_iff hn hx).2 le_rfl) (le_up hn)

theorem up_mono (hn : 0 < n) (h : x ≤ y) : up x n ≤ up y n :=
  (up_le_iff hn (dvd_up y n)).2 (h.trans (le_up hn))

/-- Rounding up adds what is missing to the next multiple. -/
theorem up_eq_ite (hn : 0 < n) : up x n = if x % n = 0 then x else x + (n - x % n) := by
  split_ifs with h
  · exact up_eq_self hn (Nat.dvd_of_mod_eq_zero h)
  · have hlt := Nat.mod_lt x hn
    have hdvd : n ∣ x + (n - x % n) := by
      refine ⟨x / n + 1, ?_⟩
      have := Nat.div_add_mod x n
      rw [Nat.mul_add, Nat.mul_one]
      omega
    refine Nat.le_antisymm ((up_le_iff hn hdvd).2 (Nat.le_add_right _ _)) ?_
    obtain ⟨k, hk⟩ := dvd_up x n
    have hle := le_up (x := x) hn
    have hx := Nat.div_add_mod x n
    -- the multiple above `x` is past `x / n`
    have hk' : x / n + 1 ≤ k := by
      by_contra hcon
      have := Nat.mul_le_mul_left n (Nat.lt_succ_iff.1 (Nat.not_le.1 hcon))
      omega
    have := Nat.mul_le_mul_left n hk'
    rw [Nat.mul_add, Nat.mul_one] at this
    omega

/-- Masking the low `k` bits off. -/
theorem and_two_pow_sub_two_pow {w k : ℕ} (hx : x < 2 ^ w) (hk : k ≤ w) :
    x &&& (2 ^ w - 2 ^ k) = down x (2 ^ k) := by
  have hpow : 2 ^ k - 1 < 2 ^ w := by
    have := Nat.pow_le_pow_right (show 0 < 2 by decide) hk
    have := Nat.two_pow_pos k
    omega
  have hmask : 2 ^ w - 2 ^ k = 2 ^ w - (2 ^ k - 1 + 1) := by
    rw [Nat.sub_add_cancel (Nat.two_pow_pos k)]
  refine Nat.eq_of_testBit_eq fun i => ?_
  rw [Nat.testBit_and, hmask, Nat.testBit_two_pow_sub_succ hpow, Nat.testBit_two_pow_sub_one, down,
    Nat.testBit_mul_two_pow, Nat.testBit_div_two_pow]
  rcases Nat.lt_or_ge i k with hi | hi
  · simp [hi, Nat.not_le.2 hi]
  · rw [Nat.sub_add_cancel hi]
    rcases Nat.lt_or_ge i w with hw | hw
    · simp [hi, hw, Nat.not_lt.2 hi]
    · have hbit := Nat.testBit_lt_two_pow (hx.trans_le (Nat.pow_le_pow_right (by decide) hw))
      simp [hbit]

end Align
