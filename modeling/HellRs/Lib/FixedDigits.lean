import Mathlib
import HellRs.Lib.Decimal

/-! # Decimal digits of a fixed width

The last digits of a number, as many as the width says, and how they relate to the digits of the number and to padding with
zeros.
-/

namespace HellRs

/-- The last digits of a number. -/
def fixedDigits : ℕ → ℕ → List Char
  | 0, _ => []
  | width + 1, number => fixedDigits width (number / 10) ++ [(number % 10).digitChar]

/-- The digits of a number, filled up with zeros from the left. -/
def zeroPadded (width number : ℕ) : List Char := (Nat.toDigits 10 number).leftpad width '0'

@[simp] theorem length_fixedDigits (width number : ℕ) : (fixedDigits width number).length = width := by
  induction width generalizing number with
  | zero => rfl
  | succ width ih => rw [fixedDigits, List.length_append, ih, List.length_singleton]

theorem fixedDigits_areDigits (width number : ℕ) : ∀ character ∈ fixedDigits width number, character.isDigit = true := by
  induction width generalizing number with
  | zero => exact nofun
  | succ width ih =>
    intro character member
    rcases List.mem_append.mp member with before | last
    · exact ih _ character before
    · rw [List.mem_singleton.mp last, Nat.isDigit_digitChar]
      exact decide_eq_true (Nat.mod_lt _ (by decide))

theorem run_fixedDigits {width : ℕ} (positive : 0 < width) (number : ℕ) : DigitRun (fixedDigits width number) :=
  ⟨List.ne_nil_of_length_pos (by rwa [length_fixedDigits]), fixedDigits_areDigits width number⟩

@[simp] theorem fixedDigits_zero (width : ℕ) : fixedDigits width 0 = List.replicate width '0' := by
  induction width with
  | zero => rfl
  | succ width ih =>
    rw [fixedDigits, Nat.zero_div, ih, List.replicate_succ']
    rfl

theorem ofDigitChars_fixedDigits (width number : ℕ) : Nat.ofDigitChars 10 (fixedDigits width number) 0 = number % 10 ^ width := by
  induction width generalizing number with
  | zero => rw [fixedDigits, Nat.ofDigitChars_nil, pow_zero, Nat.mod_one]
  | succ width ih =>
    rw [fixedDigits, Nat.ofDigitChars_append, ih, Nat.ofDigitChars_cons_digitChar_of_lt_ten (Nat.mod_lt _ (by decide)),
      Nat.ofDigitChars_nil, pow_succ', Nat.mod_mul]
    omega

/-- A number whose digits do not exceed the width is determined by its digits. -/
theorem ofDigitChars_fixedDigits_of_lt {width number : ℕ} (fits : number < 10 ^ width) :
    Nat.ofDigitChars 10 (fixedDigits width number) 0 = number := by
  rw [ofDigitChars_fixedDigits, Nat.mod_eq_of_lt fits]

theorem digitChar_toNat_sub {character : Char} (isDigit : character.isDigit = true) :
    (character.toNat - '0'.toNat).digitChar = character ∧ character.toNat - '0'.toNat < 10 := by
  have bounds : 48 ≤ character.toNat ∧ character.toNat ≤ 57 := by
    simpa [Char.isDigit, UInt32.le_iff_toNat_le] using isDigit
  have zero : '0'.toNat = 48 := rfl
  obtain ⟨lower, upper⟩ := bounds
  refine ⟨?_, by omega⟩
  apply Char.toNat_inj.mp
  rw [zero]
  generalize character.toNat = code at lower upper ⊢
  interval_cases code <;> rfl

/-- Digits are the fixed digits of the number that they write. -/
theorem fixedDigits_ofDigitChars {chars : List Char} (areDigits : ∀ character ∈ chars, character.isDigit = true) :
    fixedDigits chars.length (Nat.ofDigitChars 10 chars 0) = chars := by
  induction chars using List.reverseRecOn with
  | nil => rfl
  | append_singleton chars last ih =>
    have lastDigit := digitChar_toNat_sub (areDigits last (List.mem_append_right _ List.mem_cons_self))
    rw [Nat.ofDigitChars_append, Nat.ofDigitChars_cons, Nat.ofDigitChars_nil, List.length_append, List.length_singleton, fixedDigits,
      show (10 * Nat.ofDigitChars 10 chars 0 + (last.toNat - '0'.toNat)) / 10 = Nat.ofDigitChars 10 chars 0 by omega,
      show (10 * Nat.ofDigitChars 10 chars 0 + (last.toNat - '0'.toNat)) % 10 = last.toNat - '0'.toNat by omega,
      ih fun character member => areDigits character (List.mem_append_left _ member), lastDigit.1]

theorem ofDigitChars_lt {chars : List Char} (areDigits : ∀ character ∈ chars, character.isDigit = true) :
    Nat.ofDigitChars 10 chars 0 < 10 ^ chars.length := by
  have same := congrArg (fun chars => Nat.ofDigitChars 10 chars 0) (fixedDigits_ofDigitChars areDigits)
  simp only [ofDigitChars_fixedDigits] at same
  rw [← same]
  exact Nat.mod_lt _ (Nat.pow_pos (by decide))

/-- The digits of a number: those of the part above a place, then those below. -/
theorem toDigits_split {upper lower width : ℕ} (positive : 0 < upper) (fits : lower < 10 ^ width) :
    Nat.toDigits 10 (upper * 10 ^ width + lower) = Nat.toDigits 10 upper ++ fixedDigits width lower := by
  induction width generalizing lower with
  | zero =>
    have none : lower = 0 := Nat.lt_one_iff.mp fits
    rw [none, pow_zero, Nat.mul_one, Nat.add_zero, fixedDigits, List.append_nil]
  | succ width ih =>
    have power : 1 ≤ upper * 10 ^ width := Nat.mul_pos positive (Nat.pow_pos (by decide))
    have shift : upper * 10 ^ (width + 1) = upper * 10 ^ width * 10 := by rw [pow_succ, Nat.mul_assoc]
    rw [pow_succ] at fits
    rw [Nat.toDigits_of_base_le (by decide) (by omega), shift,
      show (upper * 10 ^ width * 10 + lower) / 10 = upper * 10 ^ width + lower / 10 by omega,
      show (upper * 10 ^ width * 10 + lower) % 10 = lower % 10 by omega, ih (by omega), fixedDigits, List.append_assoc]

theorem zeroPadded_eq {width number : ℕ} (positive : 0 < width) (fits : number < 10 ^ width) :
    zeroPadded width number = fixedDigits width number := by
  induction width generalizing number with
  | zero => cases positive
  | succ width ih =>
    unfold zeroPadded
    by_cases small : number < 10
    · rw [Nat.toDigits_of_lt_base small, fixedDigits, Nat.div_eq_of_lt small, Nat.mod_eq_of_lt small, fixedDigits_zero]
      rfl
    · rw [pow_succ] at fits
      have wide : 0 < width := by
        rcases Nat.eq_zero_or_pos width with none | wide
        · rw [none] at fits; omega
        · exact wide
      have before : zeroPadded width (number / 10) = fixedDigits width (number / 10) := ih wide (by omega)
      unfold zeroPadded at before
      rw [fixedDigits, ← before, Nat.toDigits_of_base_le (by decide) (by omega)]
      simp only [List.leftpad, List.length_append, List.length_singleton, Nat.add_sub_add_right, List.append_assoc]

theorem zeroPadded_of_le {width number : ℕ} (wide : 10 ^ width ≤ number) : zeroPadded width number = Nat.toDigits 10 number := by
  have enough : width ≤ (Nat.toDigits 10 number).length := by
    by_contra short
    have less := @ofDigitChars_lt (Nat.toDigits 10 number) fun _ member => Nat.isDigit_of_mem_toDigits (by decide) (by decide) member
    rw [Nat.ofDigitChars_ten_toDigits] at less
    have := Nat.pow_le_pow_right (show 0 < 10 by decide) (Nat.le_of_not_le short)
    omega
  simp only [zeroPadded, List.leftpad, Nat.sub_eq_zero_of_le enough, List.replicate_zero, List.nil_append]

/-- The first of the digits. -/
theorem fixedDigits_cons (width number : ℕ) :
    fixedDigits (width + 1) number = (number / 10 ^ width % 10).digitChar :: fixedDigits width number := by
  induction width generalizing number with
  | zero => simp [fixedDigits]
  | succ width ih =>
    rw [fixedDigits, ih, List.cons_append, Nat.div_div_eq_div_mul, ← pow_succ']
    rfl

theorem fixedDigits_mod (width number : ℕ) : fixedDigits width (number % 10 ^ width) = fixedDigits width number := by
  have digits := fixedDigits_ofDigitChars (fixedDigits_areDigits width number)
  rwa [length_fixedDigits, ofDigitChars_fixedDigits] at digits

/-- A digit other than zero is among the digits of a number other than zero. -/
theorem any_fixedDigits (width number : ℕ) : (fixedDigits width number).any (· ≠ '0') = true ↔ number % 10 ^ width ≠ 0 := by
  rw [← not_iff_not, not_not, Bool.not_eq_true, List.any_eq_false]
  constructor
  · intro zeros
    have copies := List.eq_replicate_of_mem fun digit member => by simpa using zeros digit member
    rw [← ofDigitChars_fixedDigits, copies, Nat.ofDigitChars_replicate_zero, Nat.mul_zero]
  · intro divides digit member
    rw [← fixedDigits_mod, divides, fixedDigits_zero] at member
    simp [List.eq_of_mem_replicate member]

/-- The digits of a number before and behind a place. -/
theorem toDigits_eq_append {number width : ℕ} (less : width < (Nat.toDigits 10 number).length) :
    (width = 0 ∨ 0 < number / 10 ^ width) ∧ Nat.toDigits 10 number = Nat.toDigits 10 (number / 10 ^ width) ++ fixedDigits width number := by
  rcases Nat.eq_zero_or_pos width with rfl | positive
  · simp [fixedDigits]
  · have large : 10 ^ width ≤ number := by
      by_contra small
      have := (Nat.length_toDigits_le_iff (by decide) positive).mpr (Nat.lt_of_not_le small)
      omega
    have upper : 0 < number / 10 ^ width := Nat.div_pos large (Nat.pow_pos (by decide))
    have split := toDigits_split upper (Nat.mod_lt number (Nat.pow_pos (show 0 < 10 by decide) : 0 < 10 ^ width))
    rw [Nat.div_add_mod', fixedDigits_mod] at split
    exact ⟨.inr upper, split⟩

theorem toDigits_eq_fixedDigits (number : ℕ) : Nat.toDigits 10 number = fixedDigits (Nat.toDigits 10 number).length number := by
  have digits := fixedDigits_ofDigitChars (Digits.ofNat number).run.2
  have value : Nat.ofDigitChars 10 (Digits.ofNat number).chars 0 = number := Digits.value_ofNat number
  rw [value] at digits
  exact digits.symm

/-- Digits without their leading zeros. -/
theorem drop_leading_zeros {chars : List Char} (areDigits : ∀ character ∈ chars, character.isDigit = true) :
    chars.drop (chars.takeWhile (· = '0')).length =
      if Nat.ofDigitChars 10 chars 0 = 0 then [] else Nat.toDigits 10 (Nat.ofDigitChars 10 chars 0) := by
  induction chars with
  | nil => rfl
  | cons first chars ih =>
    have restDigits : ∀ character ∈ chars, character.isDigit = true := fun character member => areDigits character (List.mem_cons_of_mem _ member)
    obtain ⟨isFirst, firstFits⟩ := digitChar_toNat_sub (areDigits first List.mem_cons_self)
    by_cases zero : first = '0'
    · rw [zero, List.takeWhile_cons_of_pos (by decide), List.length_cons, List.drop_succ_cons, ih restDigits]
      rfl
    · have positive : 0 < first.toNat - '0'.toNat := Nat.pos_of_ne_zero fun isZero => zero (by rw [← isFirst, isZero]; rfl)
      have value : Nat.ofDigitChars 10 (first :: chars) 0 =
          (first.toNat - '0'.toNat) * 10 ^ chars.length + Nat.ofDigitChars 10 chars 0 := by
        rw [Nat.ofDigitChars_cons, Nat.ofDigitChars_eq_ofDigitChars_zero, Nat.mul_zero, Nat.zero_add, Nat.mul_comm]
      have nonzero : 0 < (first.toNat - '0'.toNat) * 10 ^ chars.length := Nat.mul_pos positive (Nat.pow_pos (by decide))
      rw [List.takeWhile_cons_of_neg (by simpa using zero), value, if_neg (by omega), toDigits_split positive (ofDigitChars_lt restDigits),
        fixedDigits_ofDigitChars restDigits, Nat.toDigits_of_lt_base firstFits, isFirst]
      rfl

end HellRs
