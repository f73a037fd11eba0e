import Mathlib
import HellRs.Integer.Arithmetic

/-! # The bits of a double

The sign, the exponent and the fraction of a binary number of 64 bits, and the rational number that a finite one denotes.
-/

namespace HellRs.Double

open BigInteger

def IsNegative (bits : UInt64) : Bool := decide (2 ^ 63 ≤ bits.toNat)

def exponentField (bits : UInt64) : ℕ := bits.toNat / 2 ^ 52 % 2 ^ 11

def fractionField (bits : UInt64) : ℕ := bits.toNat % 2 ^ 52

/-- The number is neither infinite nor undefined. -/
def IsFinite (bits : UInt64) : Prop := exponentField bits ≠ 2 ^ 11 - 1

instance (bits : UInt64) : Decidable (IsFinite bits) := inferInstanceAs (Decidable (_ ≠ _))

/-- The digits of the number in base two as an integer; a subnormal number has no leading one. -/
def mantissa (bits : UInt64) : ℕ := if exponentField bits = 0 then fractionField bits else 2 ^ 52 + fractionField bits

/-- The power of two of the last digit. -/
def binaryExponent (bits : UInt64) : ℤ := if exponentField bits = 0 then -1074 else exponentField bits - 1075

/-- The rational number that finite bits denote. -/
def binaryValue (bits : UInt64) : ℚ := (withSign (IsNegative bits) (mantissa bits) : ℤ) * 2 ^ binaryExponent bits

theorem exponentField_lt (bits : UInt64) : exponentField bits < 2 ^ 11 := Nat.mod_lt _ (by decide)

theorem fractionField_lt (bits : UInt64) : fractionField bits < 2 ^ 52 := Nat.mod_lt _ (by decide)

theorem mantissa_lt (bits : UInt64) : mantissa bits < 2 ^ 53 := by
  have := fractionField_lt bits
  unfold mantissa
  split <;> omega

/-! ## The fields by shifts and masks -/

theorem isNegative_eq (bits : UInt64) : (bits >>> 63 ≠ 0) = (IsNegative bits = true) := by
  have less := bits.toNat_lt
  have shifted : (bits >>> 63).toNat = bits.toNat / 2 ^ 63 := by
    rw [UInt64.toNat_shiftRight, Nat.shiftRight_eq_div_pow]
    rfl
  rw [ne_eq, ← UInt64.toNat_inj, shifted, IsNegative, decide_eq_true_eq]
  apply propext
  change ¬bits.toNat / 2 ^ 63 = 0 ↔ _
  omega

theorem toNat_exponentField (bits : UInt64) : ((bits >>> 52) &&& 0x7ff).toNat = exponentField bits := by
  rw [UInt64.toNat_and, UInt64.toNat_shiftRight, Nat.shiftRight_eq_div_pow]
  exact Nat.and_two_pow_sub_one_eq_mod _ 11

theorem toNat_fractionField (bits : UInt64) : (bits &&& (((1 : UInt64) <<< 52) - 1)).toNat = fractionField bits := by
  rw [UInt64.toNat_and]
  exact Nat.and_two_pow_sub_one_eq_mod _ 52

end HellRs.Double
