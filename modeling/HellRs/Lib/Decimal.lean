import Mathlib

/-! # Decimal numbers

Runs of decimal digits with their value, and the rational numbers `coefficient * 10 ^ exponent`. A number other than
zero has exactly one such form whose coefficient ten does not divide.
-/

namespace HellRs

/-- The characters are decimal digits, at least one. -/
def DigitRun (chars : List Char) : Prop := chars ≠ [] ∧ ∀ character ∈ chars, character.isDigit = true

theorem DigitRun.append {chars more : List Char} (run : DigitRun chars)
    (areDigits : ∀ character ∈ more, character.isDigit = true) : DigitRun (chars ++ more) :=
  ⟨List.append_ne_nil_of_left_ne_nil run.1 _, fun character member =>
    (List.mem_append.mp member).elim (run.2 character) (areDigits character)⟩

theorem zeros_areDigits (count : ℕ) : ∀ character ∈ List.replicate count '0', character.isDigit = true := by
  intro character member
  rw [List.eq_of_mem_replicate member]
  rfl

theorem head?_append_ne {chars : List Char} (nonempty : chars ≠ []) {character : Char} (leading : chars.head? ≠ some character)
    (rest : List Char) : (chars ++ rest).head? ≠ some character := by
  cases chars with
  | nil => exact absurd rfl nonempty
  | cons first chars => exact leading

/-- A run of decimal digits. -/
structure Digits where
  chars : List Char
  run : DigitRun chars

namespace Digits

/-- The natural number that the digits write. -/
def value (digits : Digits) : ℕ := Nat.ofDigitChars 10 digits.chars 0

/-- The digits of a natural number. -/
def ofNat (number : ℕ) : Digits where
  chars := Nat.toDigits 10 number
  run := ⟨Nat.toDigits_ne_nil, fun _ member => Nat.isDigit_of_mem_toDigits (by decide) (by decide) member⟩

@[simp] theorem value_ofNat (number : ℕ) : (ofNat number).value = number := Nat.ofDigitChars_ten_toDigits

end Digits

theorem le_ofDigitChars (chars : List Char) (initial : ℕ) : initial ≤ Nat.ofDigitChars 10 chars initial := by
  rw [Nat.ofDigitChars_eq_ofDigitChars_zero]
  have positive : 0 < 10 ^ chars.length := Nat.pow_pos (by decide)
  exact (Nat.le_mul_of_pos_left initial positive).trans (Nat.le_add_right _ _)

/-- The digits of a number other than zero do not begin with zero. -/
theorem head?_toDigits_ne_zero {number : ℕ} (positive : 0 < number) : (Nat.toDigits 10 number).head? ≠ some '0' := by
  induction number using Nat.strong_induction_on with
  | _ number ih =>
    by_cases small : number < 10
    · rw [Nat.toDigits_of_lt_base small]
      interval_cases number <;> decide
    · rw [Nat.toDigits_of_base_le (by decide) (by omega)]
      exact head?_append_ne Nat.toDigits_ne_nil (ih (number / 10) (by omega) (by omega)) _

/-- The digits before and behind a point as one number. -/
theorem ofDigitChars_point (whole : Digits) (fraction : Option Digits) :
    (Nat.ofDigitChars 10 (whole.chars ++ fraction.elim [] Digits.chars) 0 : ℚ) =
      (whole.value + fraction.elim 0 fun digits => (digits.value : ℚ) / 10 ^ digits.chars.length) *
        10 ^ (fraction.elim [] Digits.chars).length := by
  rw [Nat.ofDigitChars_append, Nat.ofDigitChars_eq_ofDigitChars_zero]
  cases fraction with
  | none => simp [Digits.value]
  | some digits =>
    simp only [Option.elim_some, Digits.value]
    push_cast
    field_simp

/-- The rational number `coefficient * 10 ^ exponent`. -/
def scaled (coefficient exponent : ℤ) : ℚ := coefficient * 10 ^ exponent

@[simp] theorem scaled_zero (exponent : ℤ) : scaled 0 exponent = 0 := by simp [scaled]

theorem scaled_mul_ten (coefficient exponent : ℤ) : scaled (coefficient * 10) exponent = scaled coefficient (exponent + 1) := by
  have ten : (10 : ℚ) ≠ 0 := by norm_num
  simp only [scaled, zpow_add_one₀ ten, Int.cast_mul, Int.cast_ofNat]
  ring

theorem scaled_mul_pow (coefficient exponent : ℤ) (places : ℕ) :
    scaled (coefficient * 10 ^ places) exponent = scaled coefficient (exponent + places) := by
  have ten : (10 : ℚ) ≠ 0 := by norm_num
  simp only [scaled, zpow_add₀ ten, zpow_natCast, Int.cast_mul, Int.cast_pow, Int.cast_ofNat]
  ring

theorem scaled_eq_zero_iff {coefficient exponent : ℤ} : scaled coefficient exponent = 0 ↔ coefficient = 0 := by
  have ten : (10 : ℚ) ^ exponent ≠ 0 := zpow_ne_zero _ (by norm_num)
  simp [scaled, ten]

theorem scaled_inj {left right exponent : ℤ} : scaled left exponent = scaled right exponent ↔ left = right := by
  have ten : (10 : ℚ) ^ exponent ≠ 0 := zpow_ne_zero _ (by norm_num)
  simp [scaled, ten]

/-- A coefficient that ten does not divide has the greatest exponent of all forms of the number. -/
theorem scaled_exponent_le {left right exponent exponent' : ℤ} (whole : ¬10 ∣ right)
    (same : scaled left exponent = scaled right exponent') : exponent ≤ exponent' := by
  by_contra greater
  obtain ⟨places, further⟩ := Int.exists_add_of_le (show exponent' + 1 ≤ exponent by omega)
  have : exponent = exponent' + ((places + 1 : ℕ) : ℤ) := by push_cast; omega
  rw [this, ← scaled_mul_pow, scaled_inj] at same
  exact whole ⟨left * 10 ^ places, by rw [← same]; ring⟩

/-- The form whose coefficient ten does not divide is unique. -/
theorem scaled_unique {left right exponent exponent' : ℤ} (leftWhole : ¬10 ∣ left) (rightWhole : ¬10 ∣ right)
    (same : scaled left exponent = scaled right exponent') : left = right ∧ exponent = exponent' := by
  have equal : exponent = exponent' := le_antisymm (scaled_exponent_le rightWhole same) (scaled_exponent_le leftWhole same.symm)
  subst equal
  exact ⟨scaled_inj.mp same, rfl⟩

end HellRs
