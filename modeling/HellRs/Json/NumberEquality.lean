import HellRs.Json.Reading

/-! # Equality of JSON numbers

Two numbers compare by their normal forms. The normal form keeps the value unless the exponent has to pass its upper
limit; then it is a tenth of the value, so a number there is equal to its tenth.
-/

namespace HellRs.Json

open Parser

namespace JsonNumber

def value (number : JsonNumber) : ℚ := scaled number.coefficient number.exponent10.val

/-- The loop keeps the value and removes all zeros, or it removes one zero too many at the upper limit. -/
theorem shiftZeros_spec (coefficient : ℤ) (nonzero : coefficient ≠ 0) (exponent10 : I64) :
    (shiftZeros coefficient nonzero exponent10).1 ≠ 0 ∧
      ((¬10 ∣ (shiftZeros coefficient nonzero exponent10).1 ∧
          scaled coefficient exponent10.val =
            scaled (shiftZeros coefficient nonzero exponent10).1 (shiftZeros coefficient nonzero exponent10).2.val) ∨
        ((shiftZeros coefficient nonzero exponent10).2.val = i64Max ∧
          scaled coefficient exponent10.val = scaled (shiftZeros coefficient nonzero exponent10).1 (i64Max + 1))) := by
  fun_induction shiftZeros coefficient nonzero exponent10 with
  | case1 coefficient nonzero exponent10 divides full =>
    have exceeds := checked_eq_none_iff.mp full
    have last : exponent10.val = i64Max := by
      have bounds := exponent10.property
      omega
    have same : scaled coefficient exponent10.val = scaled (coefficient / 10) (exponent10.val + 1) := by
      rw [← scaled_mul_ten, Int.ediv_mul_cancel (Int.dvd_of_emod_eq_zero divides)]
    refine ⟨by omega, .inr ⟨last, same.trans ?_⟩⟩
    simp only [last]
  | case2 coefficient nonzero exponent10 divides nextExponent fits ih =>
    have same : scaled coefficient exponent10.val = scaled (coefficient / 10) nextExponent.val := by
      rw [checked_eq_some_iff.mp fits, ← scaled_mul_ten, Int.ediv_mul_cancel (Int.dvd_of_emod_eq_zero divides)]
    rwa [same]
  | case3 coefficient nonzero exponent10 whole =>
    exact ⟨nonzero, .inl ⟨fun divides => whole (Int.emod_eq_zero_of_dvd divides), rfl⟩⟩

/-- The two kinds of normal forms of numbers other than zero. -/
inductive NormalForm (value : ℚ) (parts : ℤ × I64) : Prop
  | whole (whole : ¬10 ∣ parts.1) (same : value = scaled parts.1 parts.2.val)
  | pastLimit (last : parts.2.val = i64Max) (tenfold : value = scaled parts.1 (i64Max + 1))

theorem normalizedParts_zero {number : JsonNumber} (zero : number.coefficient = 0) :
    number.normalizedParts = (0, ⟨0, by decide⟩) := by
  rw [normalizedParts, dif_pos zero, zero]

theorem normalizedParts_ne_zero {number : JsonNumber} (nonzero : number.coefficient ≠ 0) :
    number.normalizedParts.1 ≠ 0 ∧ NormalForm number.value number.normalizedParts := by
  rw [normalizedParts, dif_neg nonzero]
  obtain ⟨quotient, ⟨whole, same⟩ | ⟨last, tenfold⟩⟩ := shiftZeros_spec number.coefficient nonzero number.exponent10
  · exact ⟨quotient, .whole whole same⟩
  · exact ⟨quotient, .pastLimit last tenfold⟩

/-- The first number needs an exponent past the upper limit, and the second is a tenth of it. -/
def PastLimit (large small : ℚ) : Prop :=
  ∃ coefficient : ℤ, ¬10 ∣ coefficient ∧ large = scaled coefficient (i64Max + 1) ∧ small = scaled coefficient i64Max

theorem PastLimit.ne {large small : ℚ} (past : PastLimit large small) : large ≠ small := by
  obtain ⟨coefficient, whole, rfl, rfl⟩ := past
  intro same
  have := scaled_exponent_le whole same
  omega

theorem PastLimit.ne_zero {large small : ℚ} (past : PastLimit large small) : large ≠ 0 ∧ small ≠ 0 := by
  obtain ⟨coefficient, whole, rfl, rfl⟩ := past
  have nonzero : coefficient ≠ 0 := by
    rintro rfl
    exact whole (dvd_zero 10)
  exact ⟨mt scaled_eq_zero_iff.mp nonzero, mt scaled_eq_zero_iff.mp nonzero⟩

theorem NormalForm.eq_iff {left right : ℚ} {leftParts rightParts : ℤ × I64} (leftNormal : NormalForm left leftParts)
    (rightNormal : NormalForm right rightParts) :
    leftParts = rightParts ↔ left = right ∨ PastLimit left right ∨ PastLimit right left := by
  obtain ⟨coefficient, exponent10⟩ := leftParts
  obtain ⟨coefficient', exponent10'⟩ := rightParts
  have leftBounds := exponent10.property.2
  have rightBounds := exponent10'.property.2
  simp only [Prod.mk.injEq, Subtype.ext_iff]
  rcases leftNormal with ⟨whole, rfl⟩ | ⟨last, rfl⟩ <;> rcases rightNormal with ⟨whole', rfl⟩ | ⟨last', rfl⟩
  all_goals simp only at *
  · -- both are exact, so both values are below the limit
    constructor
    · rintro ⟨rfl, equal⟩
      exact .inl (by rw [equal])
    · rintro (same | ⟨top, topWhole, large, -⟩ | ⟨top, topWhole, large, -⟩)
      · exact scaled_unique whole whole' same
      · have := scaled_exponent_le whole large.symm
        omega
      · have := scaled_exponent_le whole' large.symm
        omega
  · constructor
    · rintro ⟨rfl, equal⟩
      exact .inr (.inr ⟨coefficient, whole, rfl, by rw [equal, last']⟩)
    · rintro (same | ⟨top, topWhole, large, -⟩ | ⟨top, topWhole, large, small⟩)
      · have := scaled_exponent_le whole same.symm
        omega
      · have := scaled_exponent_le whole large.symm
        omega
      · obtain ⟨rfl, equal⟩ := scaled_unique whole topWhole small
        exact ⟨(scaled_inj.mp large).symm, equal.trans last'.symm⟩
  · constructor
    · rintro ⟨rfl, equal⟩
      exact .inr (.inl ⟨coefficient, whole', rfl, by rw [← equal, last]⟩)
    · rintro (same | ⟨top, topWhole, large, small⟩ | ⟨top, topWhole, large, -⟩)
      · have := scaled_exponent_le whole' same
        omega
      · obtain ⟨rfl, equal⟩ := scaled_unique whole' topWhole small
        exact ⟨scaled_inj.mp large, last.trans equal.symm⟩
      · have := scaled_exponent_le whole' large.symm
        omega
  · constructor
    · rintro ⟨rfl, -⟩
      exact .inl rfl
    · rintro (same | ⟨top, topWhole, -, small⟩ | ⟨top, topWhole, -, small⟩)
      · exact ⟨scaled_inj.mp same, last.trans last'.symm⟩
      · have := scaled_exponent_le topWhole small
        omega
      · have := scaled_exponent_le topWhole small
        omega

/-- Two numbers are equal when their values are, or when one is a tenth of the other past the upper limit. -/
theorem beq_iff (left right : JsonNumber) :
    (left == right) = true ↔ left.value = right.value ∨ PastLimit left.value right.value ∨ PastLimit right.value left.value := by
  rw [show (left == right) = (left.normalizedParts == right.normalizedParts) from rfl, beq_iff_eq]
  by_cases leftZero : left.coefficient = 0 <;> by_cases rightZero : right.coefficient = 0
  · rw [normalizedParts_zero leftZero, normalizedParts_zero rightZero, value, value, leftZero, rightZero]
    simp
  · refine iff_of_false (fun equal => ?_) ?_
    · rw [normalizedParts_zero leftZero] at equal
      exact (normalizedParts_ne_zero rightZero).1 (by rw [← equal])
    · rintro (same | past | past)
      · exact rightZero (scaled_eq_zero_iff.mp (same.symm.trans (scaled_eq_zero_iff.mpr leftZero)))
      · exact past.ne_zero.1 (scaled_eq_zero_iff.mpr leftZero)
      · exact past.ne_zero.2 (scaled_eq_zero_iff.mpr leftZero)
  · refine iff_of_false (fun equal => ?_) ?_
    · rw [normalizedParts_zero rightZero] at equal
      exact (normalizedParts_ne_zero leftZero).1 (by rw [equal])
    · rintro (same | past | past)
      · exact leftZero (scaled_eq_zero_iff.mp (same.trans (scaled_eq_zero_iff.mpr rightZero)))
      · exact past.ne_zero.2 (scaled_eq_zero_iff.mpr rightZero)
      · exact past.ne_zero.1 (scaled_eq_zero_iff.mpr rightZero)
  · exact (normalizedParts_ne_zero leftZero).2.eq_iff (normalizedParts_ne_zero rightZero).2

end JsonNumber

/-- A number that is read has the coefficient and the exponent of its numeral. -/
theorem Numeral.read_spec {numeral : Numeral} {result : JsonNumber} (read : numeral.read = some result) :
    result.coefficient = numeral.coefficient ∧ result.exponent10.val = numeral.exponent10 := by
  simp only [Numeral.read, Option.bind_eq_bind, Option.bind_eq_some_iff] at read
  obtain ⟨magnitude, fits, explicit, signed, fractionLength, length, exponent10, difference, equal⟩ := read
  rw [checked_eq_some_iff] at fits signed length difference
  cases equal
  refine ⟨rfl, ?_⟩
  rw [difference, signed, length, Numeral.exponent10, Numeral.exponentValue]
  cases exponent : numeral.exponent with
  | none => rfl
  | some exponent =>
    rw [exponent] at fits
    simp only [Option.elim_some, Exponent.value, fits]

theorem Numeral.read_value {numeral : Numeral} {result : JsonNumber} (read : numeral.read = some result) :
    result.value = numeral.value := by
  rw [numeral.value_eq, JsonNumber.value, (read_spec read).1, (read_spec read).2]

/-- The text of an accepted number denotes the value that the parser computes, and no other. -/
theorem denotes_iff {text : List Char} {result : JsonNumber} (found : number text = some (result, [])) (value : ℚ) :
    Denotes text value ↔ value = result.value := by
  have computed (numeral : Numeral) (same : numeral.text = text) : result.value = numeral.value := by
    have read := number_text numeral numeral.ends_nil
    rw [List.append_nil, same, found, eq_comm, Option.map_eq_some_iff] at read
    obtain ⟨result', read, equal⟩ := read
    rw [← (Prod.mk.inj equal).1]
    exact Numeral.read_value read
  constructor
  · rintro ⟨numeral, same, rfl⟩
    exact (computed numeral same).symm
  · rintro rfl
    obtain ⟨numeral, same, -⟩ := number_sound found
    rw [List.append_nil] at same
    exact ⟨numeral, same.symm, (computed numeral same.symm).symm⟩

/-- Two accepted texts give equal numbers exactly when they denote the same value, unless one value is a tenth of the other
past the upper limit. -/
theorem equality_by_value {left right : List Char} {leftNumber rightNumber : JsonNumber}
    (leftFound : number left = some (leftNumber, [])) (rightFound : number right = some (rightNumber, [])) :
    ∃ leftValue rightValue, (∀ value, Denotes left value ↔ value = leftValue) ∧
      (∀ value, Denotes right value ↔ value = rightValue) ∧
      (((leftNumber == rightNumber) = true ↔ leftValue = rightValue) ↔
        ¬(JsonNumber.PastLimit leftValue rightValue ∨ JsonNumber.PastLimit rightValue leftValue)) := by
  refine ⟨leftNumber.value, rightNumber.value, denotes_iff leftFound, denotes_iff rightFound, ?_⟩
  rw [JsonNumber.beq_iff]
  constructor
  · rintro same (past | past)
    · exact past.ne (same.mp (.inr (.inl past)))
    · exact past.ne (same.mp (.inr (.inr past))).symm
  · intro within
    exact or_iff_left within

theorem equality_by_value_one : ∃ leftNumber rightNumber,
    number ['1', '.', '0'] = some (leftNumber, []) ∧ number ['1'] = some (rightNumber, []) ∧
      ∃ leftValue rightValue, (∀ value, Denotes ['1', '.', '0'] value ↔ value = leftValue) ∧
        (∀ value, Denotes ['1'] value ↔ value = rightValue) ∧
        (((leftNumber == rightNumber) = true ↔ leftValue = rightValue) ↔
          ¬(JsonNumber.PastLimit leftValue rightValue ∨ JsonNumber.PastLimit rightValue leftValue)) :=
  ⟨_, _, rfl, rfl, equality_by_value rfl rfl⟩

/-- Ten at the greatest exponent is equal to one at the greatest exponent. -/
theorem equality_past_limit : ∃ leftNumber rightNumber,
    number "10e9223372036854775807".toList = some (leftNumber, []) ∧
      number "1e9223372036854775807".toList = some (rightNumber, []) ∧ (leftNumber == rightNumber) = true ∧
      ¬∃ value, Denotes "10e9223372036854775807".toList value ∧ Denotes "1e9223372036854775807".toList value := by
  obtain ⟨leftNumber, leftFound, leftValue⟩ : ∃ leftNumber, number "10e9223372036854775807".toList = some (leftNumber, []) ∧
      leftNumber.value = scaled 10 i64Max := ⟨_, rfl, rfl⟩
  obtain ⟨rightNumber, rightFound, rightValue⟩ : ∃ rightNumber, number "1e9223372036854775807".toList = some (rightNumber, []) ∧
      rightNumber.value = scaled 1 i64Max := ⟨_, rfl, rfl⟩
  refine ⟨leftNumber, rightNumber, leftFound, rightFound, ?_, ?_⟩
  · have tenfold : scaled 10 i64Max = scaled 1 (i64Max + 1) := scaled_mul_ten 1 i64Max
    rw [JsonNumber.beq_iff, leftValue, rightValue]
    exact .inr (.inl ⟨1, by decide, tenfold, rfl⟩)
  · rintro ⟨value, left, right⟩
    rw [denotes_iff leftFound, leftValue] at left
    rw [denotes_iff rightFound, rightValue] at right
    have same : (10 : ℤ) = 1 := scaled_inj.mp (left.symm.trans right)
    omega

end HellRs.Json
