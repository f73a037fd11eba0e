import Mathlib

/-! # Rounding to the nearest integer, half to even -/

namespace HellRs

/-- The integer is nearest to the value, and even when two integers are equally near. -/
structure IsNearestEven (value : ℚ) (integer : ℤ) : Prop where
  near : |value - integer| ≤ 1 / 2
  even : |value - integer| = 1 / 2 → Even integer

/-- A whole number and a proper fraction: up beyond the half, and from the half up to the even number. -/
theorem isNearestEven_add_div {whole remainder divisor : ℕ} (proper : remainder < divisor) :
    IsNearestEven (whole + (remainder : ℚ) / divisor)
      ((if divisor < 2 * remainder ∨ (divisor = 2 * remainder ∧ whole % 2 = 1) then whole + 1 else whole : ℕ) : ℤ) := by
  have positive : (0 : ℚ) < divisor := by exact_mod_cast (Nat.zero_le _).trans_lt proper
  have less : (remainder : ℚ) / divisor < 1 := by
    rw [div_lt_one₀ positive]
    exact_mod_cast proper
  have nonneg : (0 : ℚ) ≤ (remainder : ℚ) / divisor := div_nonneg (Nat.cast_nonneg _) positive.le
  have half : (remainder : ℚ) / divisor < 1 / 2 ↔ 2 * remainder < divisor := by
    rw [div_lt_div_iff₀ positive (by norm_num)]
    exact ⟨fun lt => by exact_mod_cast (by linarith : (2 : ℚ) * remainder < divisor), fun lt => by
      have : (2 : ℚ) * remainder < divisor := by exact_mod_cast lt
      linarith⟩
  have isHalf : (remainder : ℚ) / divisor = 1 / 2 ↔ divisor = 2 * remainder := by
    rw [div_eq_div_iff positive.ne' (by norm_num)]
    exact ⟨fun same => by exact_mod_cast (by linarith : (divisor : ℚ) = 2 * remainder), fun same => by
      have : (divisor : ℚ) = 2 * remainder := by exact_mod_cast same
      linarith⟩
  generalize (remainder : ℚ) / divisor = part at *
  split
  next up =>
    have most : 1 / 2 ≤ part := not_lt.mp fun lt => by have := half.mp lt; omega
    have distance : |(whole : ℚ) + part - ((whole + 1 : ℕ) : ℤ)| = 1 - part := by
      push_cast
      rw [abs_of_nonpos (by linarith)]
      ring
    refine ⟨by rw [distance]; linarith, fun same => ?_⟩
    rw [distance] at same
    have := isHalf.mp (by linarith)
    rw [Int.even_iff]
    omega
  next down =>
    have least : part ≤ 1 / 2 := by
      rcases Nat.lt_or_ge (2 * remainder) divisor with lt | ge
      · exact (half.mpr lt).le
      · exact (isHalf.mpr (by omega)).le
    have distance : |(whole : ℚ) + part - ((whole : ℕ) : ℤ)| = part := by
      push_cast
      rw [add_sub_cancel_left, abs_of_nonneg nonneg]
    refine ⟨by rw [distance]; exact least, fun same => ?_⟩
    rw [distance] at same
    have := isHalf.mp same
    rw [Int.even_iff]
    omega

theorem isNearestEven_natCast (number : ℕ) : IsNearestEven number number := by
  have := @isNearestEven_add_div number 0 1 (by decide)
  simpa using this

end HellRs
