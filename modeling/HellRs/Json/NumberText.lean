import HellRs.Json.NumberEquality

/-! # Writing JSON numbers

The text of a number is a numeral of its value. The parser reads it back unless an intermediate machine integer does not
fit, which happens at the lower end of the exponents only.
-/

namespace HellRs.Json

open Parser

namespace JsonNumber

/-- The loop keeps the value, it raises the exponent to at most `-1`, and it leaves no zero below that. -/
structure Stripped (coefficient exponent10 : ℤ) (parts : ℤ × ℤ) : Prop where
  same : scaled coefficient exponent10 = scaled parts.1 parts.2
  lower : exponent10 ≤ parts.2
  upper : parts.2 ≤ exponent10 ∨ parts.2 ≤ -1
  unchanged : parts.2 = exponent10 → parts.1 = coefficient
  whole : parts.2 < -1 → parts.1 ≠ 0 → ¬10 ∣ parts.1

theorem stripZeros_spec (coefficient exponent10 : ℤ) : Stripped coefficient exponent10 (stripZeros coefficient exponent10) := by
  fun_induction stripZeros coefficient exponent10 with
  | case1 coefficient exponent10 strips ih =>
    obtain ⟨below, nonzero, divides⟩ := strips
    have same : scaled coefficient exponent10 = scaled (coefficient / 10) (exponent10 + 1) := by
      rw [← scaled_mul_ten, Int.ediv_mul_cancel (Int.dvd_of_emod_eq_zero divides)]
    refine ⟨same.trans ih.same, ?_, ?_, ?_, ih.whole⟩
    · have := ih.lower
      omega
    · have := ih.upper
      omega
    · have := ih.lower
      omega
  | case2 coefficient exponent10 stops =>
    refine ⟨rfl, le_rfl, .inl le_rfl, fun _ => rfl, fun below nonzero divides => ?_⟩
    exact stops ⟨below, nonzero, Int.emod_eq_zero_of_dvd divides⟩

theorem splitSign_display (coefficient : ℤ) :
    splitSign (display coefficient) = (if coefficient < 0 then ['-'] else [], Nat.toDigits 10 coefficient.natAbs) := by
  unfold display
  by_cases negative : coefficient < 0
  · rw [if_pos negative]
    rfl
  · have noSign : (Nat.toDigits 10 coefficient.natAbs ++ []).head? ≠ some '-' :=
      head?_run_ne (Digits.ofNat coefficient.natAbs).run [] (by decide)
    rw [if_neg negative, List.nil_append]
    unfold splitSign
    split
    next digits equal =>
      rw [equal] at noSign
      exact absurd rfl noSign
    next => rfl

end JsonNumber

/-- A machine integer can hold the value. -/
def Fits (value : ℤ) : Prop := i64Min ≤ value ∧ value ≤ i64Max

theorem Numeral.read_isSome_iff (numeral : Numeral) : numeral.read.isSome = true ↔
    Fits (numeral.exponent.elim 0 fun exponent => (exponent.digits.value : ℤ)) ∧ Fits numeral.exponentValue ∧
      Fits numeral.fractionChars.length ∧ Fits numeral.exponent10 := by
  have signed : (numeral.exponent.elim 0 fun exponent =>
      exponent.sign.apply (numeral.exponent.elim 0 fun exponent => (exponent.digits.value : ℤ))) = numeral.exponentValue := by
    rw [Numeral.exponentValue]
    cases numeral.exponent <;> rfl
  rw [Option.isSome_iff_exists]
  constructor
  · rintro ⟨result, read⟩
    have value := (read_spec read).2
    simp only [Numeral.read, Option.bind_eq_bind, Option.bind_eq_some_iff] at read
    obtain ⟨magnitude, fits, explicit, explicitFits, fractionLength, length, _, _, _⟩ := read
    rw [checked_eq_some_iff] at fits explicitFits length
    rw [fits, signed] at explicitFits
    exact ⟨fits ▸ magnitude.property, explicitFits ▸ explicit.property, length ▸ fractionLength.property,
      value ▸ result.exponent10.property⟩
  · rintro ⟨magnitude, explicit, length, exponent10⟩
    rw [Numeral.exponent10] at exponent10
    simp only [Numeral.read, checked_of_fits magnitude.1 magnitude.2, Option.bind_eq_bind, Option.bind_some, signed,
      checked_of_fits explicit.1 explicit.2, checked_of_fits length.1 length.2, checked_of_fits exponent10.1 exponent10.2]
    exact ⟨_, rfl⟩

/-- The value of a numeral whose digits write a multiple of a coefficient. -/
theorem Numeral.value_of_digits {numeral : Numeral} (coefficient : ℤ) (places : ℕ)
    (negative : numeral.negative = decide (coefficient < 0))
    (digits : Nat.ofDigitChars 10 (numeral.integer.chars ++ numeral.fractionChars) 0 = coefficient.natAbs * 10 ^ places) :
    numeral.value = scaled coefficient (numeral.exponent10 + places) := by
  rw [numeral.value_eq, ← scaled_mul_pow]
  congr 1
  rw [Numeral.coefficient, digits, negative]
  push_cast
  by_cases below : coefficient < 0
  · simp only [below, decide_true, if_true, abs_of_neg below]
    ring
  · simp only [below, decide_false, Bool.false_eq_true, if_false, abs_of_nonneg (not_lt.mp below)]

section Notations

variable {coefficient exponent10 : ℤ}

/-- The sign of a number. -/
def signOf (coefficient : ℤ) : List Char := if coefficient < 0 then ['-'] else []

theorem sign_eq (coefficient : ℤ) : (if decide (coefficient < 0) = true then ['-'] else []) = signOf coefficient := by
  simp only [decide_eq_true_eq, signOf]

theorem fits_zero : Fits 0 := ⟨by decide, by decide⟩

/-- A number without decimals. -/
theorem integer_notation (nonzero : coefficient ≠ 0) (nonneg : 0 ≤ exponent10) : ∃ numeral : Numeral,
    numeral.text = signOf coefficient ++ (Nat.toDigits 10 coefficient.natAbs ++ List.replicate exponent10.toNat '0') ∧
      numeral.value = scaled coefficient exponent10 ∧ numeral.read.isSome = true := by
  have leading := head?_toDigits_ne_zero (Int.natAbs_pos.mpr nonzero)
  refine ⟨⟨decide (coefficient < 0), ⟨_, (Digits.ofNat coefficient.natAbs).run.append (zeros_areDigits exponent10.toNat)⟩,
    fun zero => absurd zero (head?_append_ne Nat.toDigits_ne_nil leading _), none, none⟩, ?_, ?_, ?_⟩
  · simp only [Numeral.text, Numeral.sign, sign_eq, Option.elim_none, List.append_nil]
    rfl
  · rw [Numeral.value_of_digits coefficient exponent10.toNat rfl]
    · rw [Int.toNat_of_nonneg nonneg]
      simp [Numeral.exponent10, Numeral.exponentValue, Numeral.fractionChars]
    · simp only [Numeral.fractionChars, Option.elim_none, List.append_nil, Digits.ofNat, Nat.ofDigitChars_append,
        Nat.ofDigitChars_ten_toDigits, Nat.ofDigitChars_replicate_zero]
      ring
  · exact (Numeral.read_isSome_iff _).mpr ⟨fits_zero, fits_zero, fits_zero, fits_zero⟩

/-- Zero, with one decimal if its exponent is negative. -/
theorem zero_notation (exponent10 : ℤ) : ∃ numeral : Numeral,
    numeral.text = (if exponent10 < 0 then ['0', '.', '0'] else ['0']) ∧ numeral.value = 0 ∧ numeral.read.isSome = true := by
  by_cases below : exponent10 < 0
  · refine ⟨⟨false, .ofNat 0, fun _ => rfl, some (.ofNat 0), none⟩, (if_pos below).symm, ?_, ?_⟩
    · rw [Numeral.value_of_digits 0 0 rfl rfl, scaled_zero]
    · exact (Numeral.read_isSome_iff _).mpr ⟨fits_zero, fits_zero, ⟨by decide, by decide⟩, by decide, by decide⟩
  · refine ⟨⟨false, .ofNat 0, fun _ => rfl, none, none⟩, (if_neg below).symm, ?_, ?_⟩
    · rw [Numeral.value_of_digits 0 0 rfl rfl, scaled_zero]
    · exact (Numeral.read_isSome_iff _).mpr ⟨fits_zero, fits_zero, fits_zero, fits_zero⟩

/-- The decimals of a number fit when its exponent is not the least one. -/
theorem fits_decimals (below : exponent10 < 0) (lower : i64Min ≤ exponent10) :
    (Fits (-exponent10) ∧ Fits exponent10) ↔ i64Min < exponent10 := by
  have least := i64Min_eq
  have positive := i64Max_pos
  simp only [Fits]
  omega

/-- A number below one whose decimals are the digits of the coefficient. -/
theorem fraction_notation (nonzero : coefficient ≠ 0) (lower : i64Min ≤ exponent10)
    (position : ((Nat.toDigits 10 coefficient.natAbs).length : ℤ) + exponent10 = 0) : ∃ numeral : Numeral,
    numeral.text = signOf coefficient ++ '0' :: '.' :: Nat.toDigits 10 coefficient.natAbs ∧
      numeral.value = scaled coefficient exponent10 ∧ (numeral.read.isSome = true ↔ i64Min < exponent10) := by
  have places : 0 < (Nat.toDigits 10 coefficient.natAbs).length := Nat.length_toDigits_pos
  refine ⟨⟨decide (coefficient < 0), .ofNat 0, fun _ => rfl, some (.ofNat coefficient.natAbs), none⟩, ?_, ?_, ?_⟩
  · simp only [Numeral.text, Numeral.sign, sign_eq, Option.elim_none, Option.elim_some, List.append_nil]
    rfl
  · rw [Numeral.value_of_digits coefficient 0 rfl]
    · congr 1
      simp only [Numeral.exponent10, Numeral.exponentValue, Numeral.fractionChars, Option.elim_none, Option.elim_some, Digits.ofNat]
      omega
    · simp only [Numeral.fractionChars, Option.elim_some, Digits.ofNat, Nat.ofDigitChars_append, pow_zero, mul_one]
      exact Nat.ofDigitChars_ten_toDigits
  · rw [Numeral.read_isSome_iff, ← fits_decimals (by omega) lower]
    simp only [Numeral.exponent10, Numeral.exponentValue, Numeral.fractionChars, Option.elim_none, Option.elim_some,
      Digits.ofNat, fits_zero, true_and, zero_sub]
    rw [show ((Nat.toDigits 10 coefficient.natAbs).length : ℤ) = -exponent10 by omega, neg_neg]

/-- A number whose decimal point stands between the digits of the coefficient. -/
theorem point_notation (nonzero : coefficient ≠ 0) (below : exponent10 < 0) (lower : i64Min ≤ exponent10) {position : ℕ}
    (inside : ((Nat.toDigits 10 coefficient.natAbs).length : ℤ) + exponent10 = position) (positive : 0 < position) :
    ∃ numeral : Numeral,
      numeral.text = signOf coefficient ++ ((Nat.toDigits 10 coefficient.natAbs).take position ++
        '.' :: (Nat.toDigits 10 coefficient.natAbs).drop position) ∧
      numeral.value = scaled coefficient exponent10 ∧ (numeral.read.isSome = true ↔ i64Min < exponent10) := by
  have run := (Digits.ofNat coefficient.natAbs).run
  have leading := head?_toDigits_ne_zero (Int.natAbs_pos.mpr nonzero)
  have digits : Nat.ofDigitChars 10 (Nat.toDigits 10 coefficient.natAbs) 0 = coefficient.natAbs := Nat.ofDigitChars_ten_toDigits
  simp only [Digits.ofNat] at run
  generalize Nat.toDigits 10 coefficient.natAbs = chars at *
  have front : DigitRun (chars.take position) := ⟨by
    rw [ne_eq, List.take_eq_nil_iff]
    exact not_or.mpr ⟨by omega, run.1⟩, fun _ member => run.2 _ (List.mem_of_mem_take member)⟩
  have back : DigitRun (chars.drop position) := ⟨by
    rw [ne_eq, List.drop_eq_nil_iff]
    omega, fun _ member => run.2 _ (List.mem_of_mem_drop member)⟩
  have backLength : ((chars.drop position).length : ℤ) = -exponent10 := by
    rw [List.length_drop]
    omega
  refine ⟨⟨decide (coefficient < 0), ⟨_, front⟩, fun zero => ?_, some ⟨_, back⟩, none⟩, ?_, ?_, ?_⟩
  · rw [← List.take_append_drop position chars] at leading
    exact absurd zero (fun zero => leading (by rw [List.head?_append, zero]; rfl))
  · simp only [Numeral.text, Numeral.sign, sign_eq, Option.elim_none, Option.elim_some, List.append_nil]
  · rw [Numeral.value_of_digits coefficient 0 rfl]
    · congr 1
      simp only [Numeral.exponent10, Numeral.exponentValue, Numeral.fractionChars, Option.elim_none, Option.elim_some, backLength]
      omega
    · simp only [Numeral.fractionChars, Option.elim_some, List.take_append_drop, digits, pow_zero, mul_one]
  · rw [Numeral.read_isSome_iff, ← fits_decimals below lower]
    simp only [Numeral.exponent10, Numeral.exponentValue, Numeral.fractionChars, Option.elim_none, Option.elim_some,
      backLength, fits_zero, true_and, zero_sub, neg_neg]

/-- A number with an exponent of its own: one digit stands before the point, and a zero behind it if there is no other. -/
theorem scientific_notation (nonzero : coefficient ≠ 0) (lower : i64Min ≤ exponent10) {first : Char} {rest : List Char}
    (split : Nat.toDigits 10 coefficient.natAbs = first :: rest) {position : ℤ}
    (outside : ((Nat.toDigits 10 coefficient.natAbs).length : ℤ) + exponent10 = position) (negative : position < 0) :
    ∃ numeral : Numeral,
      numeral.text = signOf coefficient ++ first :: '.' ::
        ((if rest.isEmpty then ['0'] else rest) ++ 'e' :: JsonNumber.display (position - 1)) ∧
      numeral.value = scaled coefficient exponent10 ∧ (numeral.read.isSome = true ↔ i64Min < exponent10 ∨ rest ≠ []) := by
  have run := (Digits.ofNat coefficient.natAbs).run
  have leading := head?_toDigits_ne_zero (Int.natAbs_pos.mpr nonzero)
  have digits : Nat.ofDigitChars 10 (Nat.toDigits 10 coefficient.natAbs) 0 = coefficient.natAbs := Nat.ofDigitChars_ten_toDigits
  have least := i64Min_eq
  have large := i64Max_pos
  simp only [Digits.ofNat, split] at run leading digits outside
  have back : DigitRun (if rest.isEmpty then ['0'] else rest) := by
    cases rest with
    | nil => exact ⟨List.cons_ne_nil _ _, zeros_areDigits 1⟩
    | cons second rest => exact ⟨List.cons_ne_nil _ _, fun _ member => run.2 _ (List.mem_cons_of_mem _ member)⟩
  have front : DigitRun [first] :=
    ⟨List.cons_ne_nil _ _, fun _ member => run.2 _ (List.mem_of_mem_head? (by simpa using (List.mem_singleton.mp member).symm))⟩
  refine ⟨⟨decide (coefficient < 0), ⟨_, front⟩, fun zero => absurd zero leading, some ⟨_, back⟩,
    some ⟨false, .minus, .ofNat (position - 1).natAbs⟩⟩, ?_, ?_, ?_⟩
  · have display : JsonNumber.display (position - 1) = '-' :: Nat.toDigits 10 (position - 1).natAbs := by
      rw [JsonNumber.display, if_pos (by omega)]
      rfl
    simp only [Numeral.text, Numeral.sign, sign_eq, Option.elim_some, Exponent.text, ExponentSign.text, display,
      Bool.false_eq_true, if_false, Digits.ofNat, List.cons_append, List.nil_append]
  · have exponentValue : (-((position - 1).natAbs : ℤ)) = position - 1 := by omega
    cases rest with
    | nil =>
      rw [Numeral.value_of_digits coefficient 1 rfl]
      · congr 1
        simp only [Numeral.exponent10, Numeral.exponentValue, Numeral.fractionChars, Option.elim_some, Exponent.value,
          ExponentSign.apply, Digits.value_ofNat, exponentValue, List.isEmpty_nil, if_true, List.length_singleton] at outside ⊢
        omega
      · simp only [Numeral.fractionChars, Option.elim_some, List.isEmpty_nil, if_true, Nat.ofDigitChars_append, digits]
        rw [Nat.ofDigitChars_cons, Nat.ofDigitChars_nil]
        norm_num
        ring
    | cons second rest =>
      rw [Numeral.value_of_digits coefficient 0 rfl]
      · congr 1
        simp only [Numeral.exponent10, Numeral.exponentValue, Numeral.fractionChars, Option.elim_some, Exponent.value,
          ExponentSign.apply, Digits.value_ofNat, exponentValue, List.isEmpty_cons, Bool.false_eq_true, if_false,
          List.length_cons] at outside ⊢
        omega
      · simp only [Numeral.fractionChars, Option.elim_some, List.isEmpty_cons, Bool.false_eq_true, if_false,
          List.singleton_append, digits, pow_zero, mul_one]
  · rw [Numeral.read_isSome_iff]
    cases rest with
    | nil =>
      simp only [Numeral.exponent10, Numeral.exponentValue, Numeral.fractionChars, Option.elim_some, Exponent.value,
        ExponentSign.apply, Digits.value_ofNat, List.isEmpty_nil, if_true, List.length_singleton, Fits, ne_eq,
        not_true_eq_false, or_false] at outside ⊢
      omega
    | cons second rest =>
      simp only [Numeral.exponent10, Numeral.exponentValue, Numeral.fractionChars, Option.elim_some, Exponent.value,
        ExponentSign.apply, Digits.value_ofNat, List.isEmpty_cons, Bool.false_eq_true, if_false, List.length_cons, Fits,
        ne_eq, reduceCtorEq, not_false_eq_true, or_true, iff_true] at outside ⊢
      omega

end Notations

namespace JsonNumber

theorem stripZeros_of_not_dvd {coefficient : ℤ} (exponent10 : ℤ) (whole : ¬10 ∣ coefficient) :
    stripZeros coefficient exponent10 = (coefficient, exponent10) := by
  rw [stripZeros, if_neg]
  rintro ⟨-, -, divides⟩
  exact whole (Int.dvd_of_emod_eq_zero divides)

/-- The exponent is the least one and cannot be raised, and the coefficient has one digit, or more than can be counted. -/
def LeastExponent (number : JsonNumber) : Prop :=
  number.exponent10.val = i64Min ∧ ¬10 ∣ number.coefficient ∧
    ((Nat.toDigits 10 number.coefficient.natAbs).length = 1 ∨
      i64Max < (Nat.toDigits 10 number.coefficient.natAbs).length)

theorem leastExponent_iff {number : JsonNumber} {coefficient exponent10 : ℤ} (nonzero : coefficient ≠ 0)
    (stripped : stripZeros number.coefficient number.exponent10.val = (coefficient, exponent10)) :
    number.LeastExponent ↔ exponent10 = i64Min ∧
      ((Nat.toDigits 10 coefficient.natAbs).length = 1 ∨ i64Max < (Nat.toDigits 10 coefficient.natAbs).length) := by
  constructor
  · rintro ⟨least, whole, length⟩
    rw [stripZeros_of_not_dvd _ whole] at stripped
    cases stripped
    exact ⟨least, length⟩
  · rintro ⟨rfl, length⟩
    have spec := stripZeros_spec number.coefficient number.exponent10.val
    rw [stripped] at spec
    have least : number.exponent10.val = i64Min := le_antisymm spec.lower number.exponent10.property.1
    have unchanged : coefficient = number.coefficient := spec.unchanged least.symm
    subst unchanged
    exact ⟨least, spec.whole (show i64Min < -1 by decide) nonzero, length⟩

/-- The written text is a numeral of the value, and its machine integers fit but at the least exponent. -/
theorem pushJson_numeral (number : JsonNumber) : ∃ numeral : Numeral, numeral.text = number.pushJson ∧
    numeral.value = number.value ∧ (numeral.read.isSome = true ↔ ¬number.LeastExponent) := by
  have spec := stripZeros_spec number.coefficient number.exponent10.val
  cases stripped : stripZeros number.coefficient number.exponent10.val with
  | mk coefficient exponent10 =>
  rw [stripped] at spec
  have lower : i64Min ≤ exponent10 := number.exponent10.property.1.trans spec.lower
  rw [value, spec.same]
  simp only [pushJson, stripped, splitSign_display]
  by_cases zero : coefficient = 0
  · subst zero
    obtain ⟨numeral, text, numeralValue, read⟩ := zero_notation exponent10
    have coefficientZero : number.coefficient = 0 := scaled_eq_zero_iff.mp (spec.same.trans (scaled_zero _))
    have notLeast : ¬number.LeastExponent := fun least => least.2.1 (coefficientZero ▸ dvd_zero 10)
    exact ⟨numeral, text, numeralValue.trans (scaled_zero _).symm, iff_of_true read notLeast⟩
  · have digit : Nat.toDigits 10 coefficient.natAbs ≠ ['0'] := by
      intro equal
      exact head?_toDigits_ne_zero (Int.natAbs_pos.mpr zero) (by rw [equal]; rfl)
    have places : 0 < (Nat.toDigits 10 coefficient.natAbs).length := Nat.length_toDigits_pos
    have least := i64Min_eq
    have positive := i64Max_pos
    rw [if_neg digit, leastExponent_iff zero stripped]
    by_cases nonneg : 0 ≤ exponent10
    · rw [if_pos nonneg]
      obtain ⟨numeral, text, numeralValue, read⟩ := integer_notation zero nonneg
      exact ⟨numeral, text, numeralValue, iff_of_true read (by omega)⟩
    rw [if_neg nonneg]
    by_cases inside : 0 ≤ ((Nat.toDigits 10 coefficient.natAbs).length : ℤ) + exponent10
    · rw [if_pos inside]
      by_cases front : ((Nat.toDigits 10 coefficient.natAbs).length : ℤ) + exponent10 = 0
      · rw [if_pos front]
        obtain ⟨numeral, text, numeralValue, read⟩ := fraction_notation zero lower front
        exact ⟨numeral, text, numeralValue, read.trans (by omega)⟩
      · rw [if_neg front]
        obtain ⟨numeral, text, numeralValue, read⟩ := point_notation zero (by omega) lower (Int.toNat_of_nonneg inside).symm
          (by omega)
        exact ⟨numeral, text, numeralValue, read.trans (by omega)⟩
    · rw [if_neg inside]
      cases split : Nat.toDigits 10 coefficient.natAbs with
      | nil => exact absurd split Nat.toDigits_ne_nil
      | cons first rest =>
        obtain ⟨numeral, text, numeralValue, read⟩ := scientific_notation zero lower split rfl (by omega)
        have halves : (first :: rest).splitAt 1 = ([first], rest) := List.splitAt_eq
        rw [split] at inside text
        rw [halves]
        refine ⟨numeral, text, numeralValue, read.trans ?_⟩
        have single : rest ≠ [] ↔ 0 < rest.length := List.length_pos_iff.symm
        rw [single]
        simp only [List.length_cons] at inside ⊢
        omega

/-- The text of a number is a numeral of its value. It is read back to an equal number unless the exponent is the least one,
ten does not divide the coefficient, and the coefficient has a single digit or too many to count. -/
theorem pushJson_round_trip (number : JsonNumber) :
    (Denotes number.pushJson number.value ∧
      ∃ back, Parser.number number.pushJson = some (back, []) ∧ (back == number) = true) ↔ ¬number.LeastExponent := by
  obtain ⟨numeral, text, numeralValue, read⟩ := number.pushJson_numeral
  have found := number_text numeral numeral.ends_nil
  rw [List.append_nil, text] at found
  rw [← read, Option.isSome_iff_exists]
  constructor
  · rintro ⟨-, back, reads, -⟩
    rw [found, Option.map_eq_some_iff] at reads
    exact ⟨_, reads.choose_spec.1⟩
  · rintro ⟨back, reads⟩
    rw [reads, Option.map_some] at found
    exact ⟨⟨numeral, text, numeralValue⟩, back, found, (beq_iff back number).mpr (.inl ((Numeral.read_value reads).trans numeralValue))⟩

/-- One at the least exponent is written with a zero decimal, so its exponent is read one too low. -/
theorem pushJson_least_exponent : ∃ number,
    Parser.number "0.1e-9223372036854775807".toList = some (number, []) ∧
      Parser.number number.pushJson = none := by
  obtain ⟨number, found, coefficient, exponent10⟩ : ∃ number,
      Parser.number "0.1e-9223372036854775807".toList = some (number, []) ∧ number.coefficient = 1 ∧
        number.exponent10.val = i64Min := ⟨_, rfl, rfl, rfl⟩
  refine ⟨number, found, ?_⟩
  rw [pushJson, coefficient, exponent10, stripZeros_of_not_dvd _ (by decide)]
  rfl

end JsonNumber

end HellRs.Json
