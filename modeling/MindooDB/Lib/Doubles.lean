import Mathlib

/-!
# Lib/Doubles — whole numbers as doubles

The rounding of a whole number to a double, whose significand has 53 bits; whole numbers beyond the
range of the exponent are left out.  Up to `2 ^ 53` nothing is rounded (`nearest_of_le`).
-/

namespace Doubles

/-- The double nearest to a whole number, and of two the one whose significand is even. -/
def nearest (n : ℤ) : ℤ :=
  -- the significand has 53 bits
  let unit := 2 ^ (n.natAbs.log2 - 52)
  let quotient := n.natAbs / unit
  let remainder := n.natAbs % unit
  n.sign * ((if 2 * remainder < unit ∨ 2 * remainder = unit ∧ quotient % 2 = 0 then quotient
    else quotient + 1) * unit : ℕ)

/-- Up to `2 ^ 53` every whole number is a double. -/
theorem nearest_of_le {n : ℤ} (h : n.natAbs ≤ 2 ^ 53) : nearest n = n := by
  have hdvd : 2 ^ (n.natAbs.log2 - 52) ∣ n.natAbs := by
    rcases h.lt_or_eq with hlt | heq
    · have hlog : n.natAbs.log2 - 52 = 0 := by
        by_cases hzero : n.natAbs = 0
        · rw [hzero]
          rfl
        · have hlt' := (Nat.log2_lt hzero).mpr hlt
          omega
      rw [hlog]
      exact one_dvd _
    · rw [heq]
      decide +kernel
  have hremainder := Nat.mod_eq_zero_of_dvd hdvd
  rw [nearest]
  simp only [hremainder]
  rw [if_pos (Or.inl (Nat.two_pow_pos _)), Nat.div_mul_cancel hdvd, Int.sign_mul_natAbs]

/-- A negative number stays negative. -/
theorem nonneg_of_nearest_nonneg {n : ℤ} (h : 0 ≤ nearest n) : 0 ≤ n := by
  by_contra hneg
  have hzero : n.natAbs ≠ 0 := by omega
  have hunit : 2 ^ (n.natAbs.log2 - 52) ≤ n.natAbs :=
    (Nat.pow_le_pow_right (by decide) (Nat.sub_le _ _)).trans (Nat.log2_self_le hzero)
  rw [nearest, Int.sign_eq_neg_one_of_neg (not_le.mp hneg)] at h
  refine absurd h (not_le.mpr (mul_neg_of_neg_of_pos (by decide) (Int.natCast_pos.mpr
    (Nat.mul_pos ?_ (Nat.two_pow_pos _)))))
  split
  · exact Nat.div_pos hunit (Nat.two_pow_pos _)
  · exact Nat.succ_pos _

example : nearest (2 ^ 54 - 1) = 2 ^ 54 := by decide +kernel

end Doubles
