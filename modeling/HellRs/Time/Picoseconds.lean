import HellRs.Double.Bits
import HellRs.Time.UtcTime

/-! # Seconds as picoseconds

`double_to_picoseconds` computes on unsigned integers of 128 bits. `none` is returned where a checked operation fails or the
result is no signed integer of 128 bits.
-/

namespace HellRs.Time

open BigInteger Double

/-- A checked result of unsigned integers of 128 bits. -/
def checkedU128 (value : ℕ) : Option ℕ := if value < 2 ^ 128 then some value else none

/-- `i128::try_from`. -/
def i128TryFrom (value : ℕ) : Option ℤ := if value < 2 ^ 127 then some value else none

/-- The shifted number and whether a digit was lost. -/
def shiftScaled (scaled : ℕ) (exponent : ℤ) : Option (ℕ × Bool) :=
  if 0 ≤ exponent then
    let shift := exponent.toNat
    if shift ≥ 128 ∨ scaled > (2 ^ 128 - 1) >>> shift then none else some ((scaled <<< shift) % 2 ^ 128, false)
  else
    let shift := exponent.natAbs
    if shift ≥ 128 then some (0, scaled ≠ 0)
    else some (scaled >>> shift, (scaled &&& ((1 <<< shift) - 1)) ≠ 0)

/-- The end of `double_to_picoseconds`. -/
def signedMagnitude (negative : Bool) (magnitude : ℕ) : Option ℤ :=
  let signBoundary := 1 <<< 127
  if negative then
    if magnitude > signBoundary then none
    else if magnitude = signBoundary then some (-2 ^ 127)
    else (i128TryFrom magnitude).map fun value => -value
  else if magnitude ≥ signBoundary then none
  else i128TryFrom magnitude

def doubleToPicoseconds (bits : UInt64) : Option ℤ :=
  let negative : Bool := bits >>> 63 ≠ 0
  let exponentBits := ((bits >>> 52) &&& 0x7ff).toNat
  let fraction := (bits &&& (((1 : UInt64) <<< 52) - 1)).toNat
  if exponentBits = 0x7ff then none
  else if exponentBits = 0 ∧ fraction = 0 then some 0
  else do
    let (mantissa, exponent) := if exponentBits = 0 then (fraction, (-1074 : ℤ)) else (1 <<< 52 ||| fraction, (exponentBits - 1023 - 52 : ℤ))
    let scaled ← checkedU128 (mantissa * 1000000000000)
    let (quotient, hasRemainder) ← shiftScaled scaled exponent
    let magnitude ← (if negative && hasRemainder then checkedU128 (quotient + 1) else some quotient)
    signedMagnitude negative magnitude

/-- A signed integer of 128 bits holds the number. -/
def FitsI128 (value : ℤ) : Prop := -2 ^ 127 ≤ value ∧ value < 2 ^ 127

instance (value : ℤ) : Decidable (FitsI128 value) := inferInstanceAs (Decidable (_ ∧ _))

/-! ## The parts of the computation -/

theorem signedMagnitude_eq (negative : Bool) (magnitude : ℕ) : signedMagnitude negative magnitude =
    if FitsI128 (withSign negative magnitude) then some (withSign negative magnitude) else none := by
  have boundary : 1 <<< 127 = 2 ^ 127 := by decide
  unfold signedMagnitude FitsI128 i128TryFrom
  rw [boundary]
  cases negative with
  | false =>
    change (if magnitude ≥ 2 ^ 127 then none else _) = if -2 ^ 127 ≤ (magnitude : ℤ) ∧ (magnitude : ℤ) < 2 ^ 127 then some (magnitude : ℤ) else none
    rcases Nat.lt_or_ge magnitude (2 ^ 127) with less | most
    · rw [if_neg (by omega), if_pos less, if_pos (by omega)]
    · rw [if_pos most, if_neg (by omega)]
  | true =>
    change (if magnitude > 2 ^ 127 then none else _) = if -2 ^ 127 ≤ -(magnitude : ℤ) ∧ -(magnitude : ℤ) < 2 ^ 127 then some (-(magnitude : ℤ)) else none
    rcases Nat.lt_trichotomy magnitude (2 ^ 127) with less | same | more
    · rw [if_neg (by omega), if_neg (by omega), if_pos less, if_pos (by omega)]
      rfl
    · rw [if_neg (by omega), if_pos same, if_pos (by omega), same]
      rfl
    · rw [if_pos more, if_neg (by omega)]

theorem shiftScaled_left {scaled : ℕ} (positive : 0 < scaled) (shift : ℕ) :
    shiftScaled scaled shift = if scaled * 2 ^ shift < 2 ^ 128 then some (scaled * 2 ^ shift, false) else none := by
  unfold shiftScaled
  rw [if_pos (by omega)]
  dsimp only
  rw [Int.toNat_natCast, Nat.shiftRight_eq_div_pow, Nat.shiftLeft_eq]
  have power : 0 < 2 ^ shift := Nat.two_pow_pos shift
  by_cases fits : scaled * 2 ^ shift < 2 ^ 128
  · have short : shift < 128 := by
      by_contra long
      have := Nat.pow_le_pow_right (show 0 < 2 by decide) (Nat.le_of_not_lt long)
      have := Nat.le_mul_of_pos_left (2 ^ shift) positive
      omega
    have kept : scaled ≤ (2 ^ 128 - 1) / 2 ^ shift := (Nat.le_div_iff_mul_le power).mpr (by omega)
    rw [if_neg (by omega), if_pos fits, Nat.mod_eq_of_lt fits]
  · have lost : shift ≥ 128 ∨ scaled > (2 ^ 128 - 1) / 2 ^ shift := by
      refine .inr (Nat.lt_of_not_le fun kept => fits ?_)
      have := (Nat.le_div_iff_mul_le power).mp kept
      omega
    rw [if_pos lost, if_neg fits]

theorem shiftScaled_right {scaled : ℕ} (positive : 0 < scaled) (fits : scaled < 2 ^ 128) {exponent : ℤ} (negative : exponent < 0) :
    shiftScaled scaled exponent = some (scaled / 2 ^ exponent.natAbs, decide (scaled % 2 ^ exponent.natAbs ≠ 0)) := by
  unfold shiftScaled
  rw [if_neg (by omega)]
  dsimp only
  generalize exponent.natAbs = shift
  split
  next long =>
    have less : scaled < 2 ^ shift := fits.trans_le (Nat.pow_le_pow_right (by decide) long)
    rw [Nat.div_eq_of_lt less, Nat.mod_eq_of_lt less]
  next => rw [Nat.shiftRight_eq_div_pow, Nat.shiftLeft_eq, Nat.one_mul, Nat.and_two_pow_sub_one_eq_mod]

/-- The floor of a signed quotient. -/
theorem withSign_ediv (negative : Bool) (number divisor : ℕ) (positive : 0 < divisor) : (withSign negative number : ℤ) / divisor =
    withSign negative (if negative && decide (number % divisor ≠ 0) then number / divisor + 1 else number / divisor) := by
  cases negative with
  | false => rfl
  | true =>
    have divides : (divisor : ℤ) ∣ number ↔ number % divisor = 0 := by rw [Int.natCast_dvd_natCast, Nat.dvd_iff_mod_eq_zero]
    change (-(number : ℤ)) / divisor = -((if (true && decide (number % divisor ≠ 0)) = true then number / divisor + 1 else number / divisor : ℕ) : ℤ)
    rw [Int.neg_ediv, Bool.true_and]
    by_cases whole : number % divisor = 0
    · rw [if_pos (divides.mpr whole), if_neg (by simpa using whole), Int.sub_zero]
      rfl
    · rw [if_neg (mt divides.mp whole), if_pos (by simpa using whole), Int.sign_eq_one_of_pos (by omega)]
      push_cast
      omega

/-! ## The result -/

theorem floor_binaryValue_of_nonneg {bits : UInt64} {shift : ℕ} (isShift : binaryExponent bits = shift) :
    ⌊binaryValue bits * 10 ^ 12⌋ = withSign (IsNegative bits) (mantissa bits * 1000000000000 * 2 ^ shift) := by
  have whole : binaryValue bits * 10 ^ 12 = ((withSign (IsNegative bits) (mantissa bits * 1000000000000 * 2 ^ shift) : ℤ) : ℚ) := by
    rw [binaryValue, isShift, zpow_natCast]
    unfold withSign
    split <;> push_cast <;> ring
  rw [whole, Int.floor_intCast]

theorem floor_binaryValue_of_neg {bits : UInt64} (negative : binaryExponent bits < 0) :
    ⌊binaryValue bits * 10 ^ 12⌋ = (withSign (IsNegative bits) (mantissa bits * 1000000000000) : ℤ) / (2 ^ (binaryExponent bits).natAbs : ℕ) := by
  have quotient : binaryValue bits * 10 ^ 12 =
      ((withSign (IsNegative bits) (mantissa bits * 1000000000000) : ℤ) : ℚ) / ((2 ^ (binaryExponent bits).natAbs : ℕ) : ℚ) := by
    obtain ⟨shift, isShift⟩ := Int.eq_ofNat_of_zero_le (show 0 ≤ -binaryExponent bits by omega)
    have exponent : binaryExponent bits = -(shift : ℤ) := by omega
    rw [binaryValue, exponent, Int.natAbs_neg, Int.natAbs_natCast, zpow_neg, zpow_natCast]
    unfold withSign
    split <;> push_cast <;> ring
  rw [quotient, Rat.floor_intCast_div_natCast]

theorem scaled_lt (bits : UInt64) : mantissa bits * 1000000000000 < 2 ^ 128 := by
  have := mantissa_lt bits
  omega

/-- The part of `double_to_picoseconds` for a number other than zero. -/
theorem convert_scaled {bits : UInt64} (positive : 0 < mantissa bits) :
    (checkedU128 (mantissa bits * 1000000000000)).bind (fun scaled => (shiftScaled scaled (binaryExponent bits)).bind fun shifted =>
      (if IsNegative bits && shifted.2 then checkedU128 (shifted.1 + 1) else some shifted.1).bind (signedMagnitude (IsNegative bits))) =
      if FitsI128 ⌊binaryValue bits * 10 ^ 12⌋ then some ⌊binaryValue bits * 10 ^ 12⌋ else none := by
  have fits := scaled_lt bits
  have scaledPositive : 0 < mantissa bits * 1000000000000 := by omega
  rw [checkedU128, if_pos fits, Option.bind_some]
  rcases Int.lt_or_le (binaryExponent bits) 0 with negative | nonneg
  · rw [floor_binaryValue_of_neg negative, shiftScaled_right scaledPositive fits negative, Option.bind_some,
      withSign_ediv _ _ _ (Nat.two_pow_pos _), ← signedMagnitude_eq]
    have quotientFits : mantissa bits * 1000000000000 / 2 ^ (binaryExponent bits).natAbs + 1 < 2 ^ 128 := by
      have := Nat.div_le_self (mantissa bits * 1000000000000) (2 ^ (binaryExponent bits).natAbs)
      have := mantissa_lt bits
      omega
    rw [checkedU128, if_pos quotientFits]
    split <;> rfl
  · obtain ⟨shift, isShift⟩ := Int.eq_ofNat_of_zero_le nonneg
    rw [floor_binaryValue_of_nonneg isShift, isShift, shiftScaled_left scaledPositive]
    split
    next inside =>
      rw [Option.bind_some, Bool.and_false, if_neg Bool.false_ne_true, Option.bind_some, signedMagnitude_eq]
    next outside =>
      rw [if_neg]
      · rfl
      · unfold FitsI128 withSign
        split <;> omega

/-- Seconds become the floor of their picoseconds, or nothing when the number is not finite or no signed integer of 128 bits holds
the floor. -/
theorem doubleToPicoseconds_eq (bits : UInt64) :
    doubleToPicoseconds bits = if IsFinite bits ∧ FitsI128 ⌊binaryValue bits * 10 ^ 12⌋ then some ⌊binaryValue bits * 10 ^ 12⌋ else none := by
  have sign : decide (bits >>> 63 ≠ 0) = IsNegative bits := by
    rw [Bool.eq_iff_iff, decide_eq_true_eq]
    exact Iff.of_eq (isNegative_eq bits)
  unfold doubleToPicoseconds
  rw [sign, toNat_exponentField, toNat_fractionField]
  dsimp only
  by_cases infinite : exponentField bits = 0x7ff
  · rw [if_pos infinite, if_neg (fun both => both.1 infinite)]
  have isFinite : IsFinite bits := infinite
  rw [if_neg infinite]
  by_cases zero : exponentField bits = 0 ∧ fractionField bits = 0
  · have isZero : binaryValue bits * 10 ^ 12 = ((0 : ℤ) : ℚ) := by
      rw [binaryValue, mantissa, if_pos zero.1, zero.2, withSign_zero]
      simp
    rw [if_pos zero, isZero, Int.floor_intCast, if_pos ⟨isFinite, by decide⟩]
  · have parts : (if exponentField bits = 0 then (fractionField bits, (-1074 : ℤ))
        else (1 <<< 52 ||| fractionField bits, (exponentField bits - 1023 - 52 : ℤ))) = (mantissa bits, binaryExponent bits) := by
      have leading : 1 <<< 52 ||| fractionField bits = 2 ^ 52 + fractionField bits := by
        rw [← Nat.shiftLeft_add_eq_or_of_lt (fractionField_lt bits)]
        rfl
      unfold mantissa binaryExponent
      split
      · rfl
      · rw [leading, sub_sub]
        rfl
    have positive : 0 < mantissa bits := by
      unfold mantissa
      split <;> omega
    rw [if_neg zero, parts]
    have converted := convert_scaled positive
    simp only [isFinite, true_and]
    exact converted

end HellRs.Time
