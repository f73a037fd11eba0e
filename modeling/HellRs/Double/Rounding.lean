import HellRs.Double.FixedText

/-! # Rounding on the digits

The digits that are kept are those of the quotient by a power of ten, and the digits that are cut off decide between it and its
successor as the remainder does.
-/

namespace HellRs.Double

open BigInteger

/-! ## The digits that are kept -/

theorem incrementDecimalDigits_append (digits : List Char) (last : Char) :
    incrementDecimalDigits (digits ++ [last]) =
      if last ≠ '9' then digits ++ [Char.ofNat (last.toNat + 1)] else incrementDecimalDigits digits ++ ['0'] := by
  unfold incrementDecimalDigits
  rw [List.reverse_append, List.reverse_singleton, List.singleton_append, incrementReversed]
  split
  · rw [List.reverse_cons, List.reverse_reverse]
  · rw [List.reverse_cons]

/-- The carry goes through to a digit in front of the first one, if it has to. -/
theorem incrementDecimalDigits_toDigits {number : ℕ} (positive : 0 < number) :
    incrementDecimalDigits (Nat.toDigits 10 number) = Nat.toDigits 10 (number + 1) := by
  induction number using Nat.strong_induction_on with
  | _ number ih =>
    rcases Nat.lt_or_ge number 10 with small | large
    · interval_cases number <;> rfl
    · have after : Nat.toDigits 10 (number + 1) = Nat.toDigits 10 ((number + 1) / 10) ++ [((number + 1) % 10).digitChar] :=
        Nat.toDigits_of_base_le (by decide) (by omega)
      rw [Nat.toDigits_of_base_le (by decide) large, incrementDecimalDigits_append, after]
      have lastFits := Nat.mod_lt number (show 0 < 10 by decide)
      by_cases carry : number % 10 = 9
      · rw [carry, if_neg (by decide), ih (number / 10) (by omega) (by omega), show (number + 1) / 10 = number / 10 + 1 by omega,
          show (number + 1) % 10 = 0 by omega]
        rfl
      · rw [show (number + 1) / 10 = number / 10 by omega, show (number + 1) % 10 = number % 10 + 1 by omega]
        generalize number % 10 = last at *
        interval_cases last <;> first | rfl | exact absurd rfl carry

theorem getLast?_toDigits (number : ℕ) : (Nat.toDigits 10 number).getLast? = some (number % 10).digitChar := by
  rcases Nat.lt_or_ge number 10 with small | large
  · rw [Nat.toDigits_of_lt_base small, Nat.mod_eq_of_lt small]
    rfl
  · rw [Nat.toDigits_of_base_le (by decide) large, List.getLast?_append]
    rfl

/-- The first digit that is cut off, the digits behind it and the last digit that is kept say where the remainder lies. -/
theorem roundDecimalUp_fixedDigits (number width : ℕ) {last : ℕ} (lastFits : last < 10) :
    roundDecimalUp (fixedDigits width number) last.digitChar = true ↔
      10 ^ width < 2 * (number % 10 ^ width) ∨ (10 ^ width = 2 * (number % 10 ^ width) ∧ last % 2 = 1) := by
  cases width with
  | zero => simp [fixedDigits, roundDecimalUp, Nat.mod_one]
  | succ width =>
    rw [fixedDigits_cons]
    unfold roundDecimalUp
    have isLast : last.digitChar.toNat - '0'.toNat = last := Nat.toNat_digitChar_sub_48_of_lt_ten lastFits
    simp only [Bool.or_eq_true, Bool.and_eq_true, decide_eq_true_eq, any_fixedDigits, isLast]
    have firstFits := Nat.mod_lt (number / 10 ^ width) (show 0 < 10 by decide)
    have restFits := Nat.mod_lt number (Nat.pow_pos (show 0 < 10 by decide) : 0 < 10 ^ width)
    rw [Nat.mod_pow_succ, pow_succ]
    generalize number / 10 ^ width % 10 = first at *
    generalize number % 10 ^ width = rest at *
    generalize 10 ^ width = power at *
    interval_cases first <;> simp +decide <;> omega

theorem isNearestEven_scaled (number width : ℕ) :
    IsNearestEven (scaled number (-width)) ((if 10 ^ width < 2 * (number % 10 ^ width) ∨
      (10 ^ width = 2 * (number % 10 ^ width) ∧ number / 10 ^ width % 2 = 1) then number / 10 ^ width + 1 else number / 10 ^ width : ℕ) : ℤ) := by
  have nearest := @isNearestEven_add_div (number / 10 ^ width) (number % 10 ^ width) (10 ^ width) (Nat.mod_lt _ (Nat.pow_pos (by decide)))
  have power : (10 : ℚ) ^ width ≠ 0 := pow_ne_zero _ (by norm_num)
  have whole : ((number / 10 ^ width : ℕ) : ℚ) + ((number % 10 ^ width : ℕ) : ℚ) / ((10 ^ width : ℕ) : ℚ) = scaled number (-width) := by
    have divided : ((10 ^ width * (number / 10 ^ width) + number % 10 ^ width : ℕ) : ℚ) = number := by rw [Nat.div_add_mod]
    push_cast at divided
    rw [scaled, zpow_neg, zpow_natCast]
    push_cast
    rw [← divided, add_mul, mul_comm _ (((number / 10 ^ width : ℕ)) : ℚ), mul_assoc, mul_inv_cancel₀ power, mul_one, div_eq_mul_inv]
  rwa [whole] at nearest

/-! ## Rounding -/

theorem lt_pow_length (number : ℕ) : number < 10 ^ (Nat.toDigits 10 number).length :=
  (Nat.length_toDigits_le_iff (by decide) Nat.length_toDigits_pos).mp le_rfl

/-- The place lies before the digits. -/
theorem round_before {number : ℕ} {places : ℤ} (before : places < 0) :
    IsNearestEven (scaled number (places - (Nat.toDigits 10 number).length)) 0 := by
  obtain ⟨width, isWidth⟩ := Int.eq_ofNat_of_zero_le (show 0 ≤ (Nat.toDigits 10 number).length - places by omega)
  have less := lt_pow_length number
  have power : 10 * 10 ^ (Nat.toDigits 10 number).length ≤ 10 ^ width := by
    rw [← pow_succ']
    exact Nat.pow_le_pow_right (by decide) (by omega)
  have nearest := isNearestEven_scaled number width
  rw [Nat.mod_eq_of_lt (by omega), Nat.div_eq_of_lt (by omega), if_neg (by omega)] at nearest
  rwa [show places - (Nat.toDigits 10 number).length = -(width : ℤ) by omega]

/-- The digits before and behind the place. -/
theorem toDigits_places {number places width : ℕ} (length : (Nat.toDigits 10 number).length = places + width) (positive : 0 < width) :
    ((Nat.toDigits 10 number).take places = if places = 0 then [] else Nat.toDigits 10 (number / 10 ^ width)) ∧
      (Nat.toDigits 10 number).drop places = fixedDigits width number ∧ (places = 0 ↔ number / 10 ^ width = 0) := by
  by_cases first : places = 0
  · subst first
    have isWidth : (Nat.toDigits 10 number).length = width := by omega
    refine ⟨rfl, ?_, fun _ => Nat.div_eq_of_lt (isWidth ▸ lt_pow_length number), fun _ => rfl⟩
    rw [List.drop_zero, toDigits_eq_fixedDigits number, isWidth]
  · obtain ⟨upper, split⟩ := @toDigits_eq_append number width (by omega)
    have before : (Nat.toDigits 10 (number / 10 ^ width)).length = places := by
      have := congrArg List.length split
      rw [List.length_append, length_fixedDigits] at this
      omega
    rw [if_neg first]
    refine ⟨?_, ?_, fun isFirst => absurd isFirst first, by omega⟩
    · rw [split, List.take_left' before]
    · rw [split, List.drop_left' before]

theorem roundShortestDecimal_of_lt {number places : ℕ} (less : places < (Nat.toDigits 10 number).length) :
    ∃ rounded : ℕ, roundShortestDecimal (Nat.toDigits 10 number) places = Nat.toDigits 10 rounded ∧
      IsNearestEven (scaled number (places - (Nat.toDigits 10 number).length)) rounded := by
  obtain ⟨width, length⟩ := Nat.exists_eq_add_of_le less.le
  obtain ⟨kept, cut, none⟩ := toDigits_places length (by omega)
  have nearest := isNearestEven_scaled number width
  rw [show (places - (Nat.toDigits 10 number).length : ℤ) = -(width : ℤ) by omega]
  refine ⟨_, ?_, nearest⟩
  have up (last : ℕ) (lastFits : last < 10) := roundDecimalUp_fixedDigits number width lastFits
  have full : places - ((Nat.toDigits 10 number).take places).length = 0 := by rw [List.length_take]; omega
  unfold roundShortestDecimal
  rw [if_neg (by rw [not_or]; exact ⟨by omega, Nat.toDigits_ne_nil⟩)]
  dsimp only
  rw [Int.toNat_natCast, full, List.replicate_zero, List.append_nil, kept, cut]
  by_cases first : places = 0
  · have isUp := up 0 (by decide)
    rw [none.mp first, if_pos first]
    change roundDecimalUp (fixedDigits width number) '0' = true ↔ _ at isUp
    split
    next goesUp =>
      rw [if_pos (isUp.mp goesUp)]
      rfl
    next stays =>
      rw [if_neg (fun goesUp => stays (isUp.mpr goesUp))]
      rfl
  · have isUp := up (number / 10 ^ width % 10) (Nat.mod_lt _ (by decide))
    rw [Nat.mod_mod_of_dvd _ (by decide : 2 ∣ 10)] at isUp
    rw [if_neg first, getLast?_toDigits, Option.getD_some]
    split
    next goesUp =>
      rw [if_pos (isUp.mp goesUp), incrementDecimalDigits_toDigits (Nat.pos_of_ne_zero fun zero => first (none.mpr zero)),
        if_neg (by simp [Nat.toDigits_ne_nil])]
    next stays => rw [if_neg (fun goesUp => stays (isUp.mpr goesUp)), if_neg (by simp [Nat.toDigits_ne_nil])]

theorem roundShortestDecimal_of_ge {number places : ℕ} (positive : 0 < number) (ge : (Nat.toDigits 10 number).length ≤ places) :
    roundShortestDecimal (Nat.toDigits 10 number) places =
      Nat.toDigits 10 (number * 10 ^ (places - (Nat.toDigits 10 number).length)) := by
  have split := toDigits_split positive (show 0 < 10 ^ (places - (Nat.toDigits 10 number).length) from Nat.pow_pos (by decide))
  rw [Nat.add_zero, fixedDigits_zero] at split
  unfold roundShortestDecimal
  rw [if_neg (by rw [not_or]; exact ⟨by omega, Nat.toDigits_ne_nil⟩)]
  dsimp only
  rw [Int.toNat_natCast, List.drop_eq_nil_of_le ge, List.take_of_length_le ge]
  simp only [roundDecimalUp, Bool.false_eq_true, if_false]
  rw [← split, if_neg (by simp [Nat.toDigits_ne_nil])]

theorem roundShortestDecimal_toDigits {number : ℕ} (positive : 0 < number) (places : ℤ) :
    ∃ rounded : ℕ, roundShortestDecimal (Nat.toDigits 10 number) places = Nat.toDigits 10 rounded ∧
      IsNearestEven (scaled number (places - (Nat.toDigits 10 number).length)) rounded := by
  rcases Int.lt_or_le places 0 with before | inside
  · refine ⟨0, ?_, round_before before⟩
    rw [roundShortestDecimal, if_pos (.inl before)]
    rfl
  · obtain ⟨places, rfl⟩ := Int.eq_ofNat_of_zero_le inside
    rcases Nat.lt_or_ge places (Nat.toDigits 10 number).length with less | ge
    · exact roundShortestDecimal_of_lt less
    · refine ⟨_, roundShortestDecimal_of_ge positive ge, ?_⟩
      obtain ⟨width, rfl⟩ := Nat.exists_eq_add_of_le ge
      have whole : scaled number (((Nat.toDigits 10 number).length + width : ℕ) - (Nat.toDigits 10 number).length) =
          ((number * 10 ^ width : ℕ) : ℚ) := by
        rw [show (((Nat.toDigits 10 number).length + width : ℕ) - (Nat.toDigits 10 number).length : ℤ) = width by omega, scaled, zpow_natCast]
        push_cast
        rfl
      rw [whole, Nat.add_sub_cancel_left]
      exact isNearestEven_natCast _

/-! ## The text -/

theorem length_fixedText (negative : Bool) (precision scaled : ℕ) :
    (fixedText negative precision scaled).length = negative.toNat + (Nat.toDigits 10 (scaled / 10 ^ precision)).length +
      if precision = 0 then 0 else precision + 1 := by
  unfold fixedText
  by_cases whole : precision = 0 <;> cases negative <;> simp [whole, Nat.add_comm, Nat.add_left_comm]

/-- The digits in front of the point and behind it. -/
theorem padded_eq (precision scaled : ℕ) :
    (if precision ≠ 0 ∧ (Nat.toDigits 10 scaled).length ≤ precision
      then List.replicate (precision + 1 - (Nat.toDigits 10 scaled).length) '0' ++ Nat.toDigits 10 scaled
      else Nat.toDigits 10 scaled) = Nat.toDigits 10 (scaled / 10 ^ precision) ++ fixedDigits precision scaled := by
  split
  next short =>
    have less : scaled < 10 ^ precision := (Nat.length_toDigits_le_iff (by decide) (Nat.pos_of_ne_zero short.1)).mp short.2
    have padded := @zeroPadded_eq (precision + 1) scaled (by omega) (by rw [pow_succ]; omega)
    rw [fixedDigits_cons, Nat.div_eq_of_lt less] at padded
    rw [Nat.div_eq_of_lt less]
    exact padded
  next long =>
    rcases Nat.eq_zero_or_pos precision with rfl | positive
    · simp [fixedDigits]
    · exact (@toDigits_eq_append scaled precision (by omega)).2

theorem renderScaledDecimal_toDigits (precision : ℕ) (negative : Bool) (scaled : ℕ) :
    renderScaledDecimal (Nat.toDigits 10 scaled) precision negative =
      if reserved precision (fixedText negative precision scaled) ≤ i64Max then some (fixedText negative precision scaled) else none := by
  unfold renderScaledDecimal
  rw [padded_eq, reserved, length_fixedText]
  dsimp only
  rw [List.length_append, length_fixedDigits]
  by_cases whole : precision = 0
  · subst whole
    have same : (((Nat.toDigits 10 (scaled / 10 ^ 0)).length + 0 : ℕ) + negative.toNat + 1 : ℤ) =
        ((negative.toNat + (Nat.toDigits 10 (scaled / 10 ^ 0)).length + 0 + 1 : ℕ) : ℤ) := by omega
    rw [if_pos rfl, if_pos rfl, if_pos rfl, same]
    rfl
  · have same : (((Nat.toDigits 10 (scaled / 10 ^ precision)).length + precision : ℕ) + negative.toNat + 1 : ℤ) =
        ((negative.toNat + (Nat.toDigits 10 (scaled / 10 ^ precision)).length + (precision + 1) + 0 : ℕ) : ℤ) := by omega
    rw [if_neg whole, if_neg whole, if_neg whole, same, Nat.add_sub_cancel, List.take_left, List.drop_left, fixedText, if_neg whole]

/-! ## The parts of the shortest decimal -/

namespace ShortestDecimal

variable (decimal : ShortestDecimal)

def fractionChars : List Char := decimal.fraction.elim [] Digits.chars

/-- The digits before and behind the point as one number. -/
def number : ℕ := Nat.ofDigitChars 10 (decimal.whole.chars ++ decimal.fractionChars) 0

theorem areDigits : ∀ character ∈ decimal.whole.chars ++ decimal.fractionChars, character.isDigit = true := by
  intro character member
  rcases List.mem_append.mp member with before | behind
  · exact decimal.whole.run.2 character before
  · unfold fractionChars at behind
    cases isFraction : decimal.fraction with
    | none => rw [isFraction] at behind; cases behind
    | some digits => rw [isFraction] at behind; exact digits.run.2 character behind

theorem not_isMark {character : Char} (inside : character ∈ decimal.mantissa) : (character = 'e' || character = 'E') = false := by
  have digit (isDigit : character.isDigit = true) : (character = 'e' || character = 'E') = false := by
    rw [Bool.or_eq_false_iff, decide_eq_false_iff_not, decide_eq_false_iff_not]
    constructor <;> rintro rfl <;> cases isDigit
  unfold mantissa at inside
  rcases List.mem_append.mp inside with before | behind
  · exact digit (decimal.whole.run.2 character before)
  · cases isFraction : decimal.fraction with
    | none => rw [isFraction] at behind; cases behind
    | some digits =>
      rw [isFraction] at behind
      rcases List.mem_cons.mp behind with rfl | member
      · rfl
      · exact digit (digits.run.2 character member)

theorem splitExponent_text : splitExponent decimal.text = some (decimal.mantissa, decimal.exponentValue) := by
  have passes : ∀ character ∈ decimal.mantissa, (!(character = 'e' || character = 'E')) = true := fun character inside => by
    rw [decimal.not_isMark inside]
    rfl
  have bounded := decimal.bounded
  unfold splitExponent text exponentValue
  cases isExponent : decimal.exponent with
  | none =>
    dsimp only [Option.elim_none]
    rw [List.append_nil, List.dropWhile_eq_nil_iff.mpr passes]
  | some exponent =>
    rw [isExponent] at bounded
    dsimp only [Option.elim_some] at *
    have stops : (!((if exponent.upper then 'E' else 'e') = 'e' || (if exponent.upper then 'E' else 'e') = 'E')) = false := by
      cases exponent.upper <;> rfl
    rw [List.dropWhile_append_of_pos passes, List.takeWhile_append_of_pos passes, List.dropWhile_cons_of_neg (by rw [stops]; decide),
      List.takeWhile_cons_of_neg (by rw [stops]; decide), List.append_nil]
    dsimp only
    rw [parseI64_signed, checked_of_fits]
    · rfl
    · unfold withSign
      split <;> simp only [i64Min] <;> omega
    · unfold withSign
      split <;> simp only [i64Max] <;> omega

theorem mantissa_parts : decimal.mantissa.takeWhile (· ≠ '.') = decimal.whole.chars ∧
    decimal.mantissa.filter Char.isDigit = decimal.whole.chars ++ decimal.fractionChars := by
  have passes : ∀ character ∈ decimal.whole.chars, decide (character ≠ '.') = true := fun character inside => by
    refine decide_eq_true fun point => ?_
    have isDigit := decimal.whole.run.2 character inside
    rw [point] at isDigit
    cases isDigit
  have kept : decimal.whole.chars.filter Char.isDigit = decimal.whole.chars := List.filter_eq_self.mpr decimal.whole.run.2
  unfold mantissa fractionChars
  rw [List.takeWhile_append_of_pos passes, List.filter_append, kept]
  cases decimal.fraction with
  | none => exact ⟨List.append_nil _, rfl⟩
  | some digits =>
    refine ⟨List.append_nil _, ?_⟩
    rw [Option.elim_some, Option.elim_some, List.filter_cons_of_neg (by decide), List.filter_eq_self.mpr digits.run.2]

theorem value_mul_pow (precision : ℕ) :
    decimal.value * 10 ^ precision = scaled decimal.number (decimal.exponentValue - decimal.fractionChars.length + precision) := by
  have ten : (10 : ℚ) ≠ 0 := by norm_num
  have power : (10 : ℚ) ^ decimal.fractionChars.length ≠ 0 := pow_ne_zero _ ten
  have whole : (decimal.number : ℚ) = _ := ofDigitChars_point decimal.whole decimal.fraction
  unfold value scaled
  rw [zpow_add₀ ten, zpow_sub₀ ten, zpow_natCast, zpow_natCast, Int.cast_natCast, whole]
  change _ = _ * 10 ^ decimal.fractionChars.length * _
  field_simp

end ShortestDecimal

/-! ## The whole conversion -/

theorem saturated_of_fits {value : ℤ} (lower : i64Min ≤ value) (upper : value ≤ i64Max) : saturated value = value := by
  unfold saturated
  omega

theorem precision_lt_reserved (negative : Bool) (precision rounded : ℕ) : precision < reserved precision (fixedText negative precision rounded) := by
  rw [reserved, length_fixedText]
  split <;> omega

theorem length_lt_reserved (negative : Bool) (precision rounded : ℕ) :
    (Nat.toDigits 10 rounded).length < reserved precision (fixedText negative precision rounded) := by
  have padded := congrArg List.length (padded_eq precision rounded)
  rw [List.length_append, length_fixedDigits] at padded
  have longer : (Nat.toDigits 10 rounded).length ≤ (Nat.toDigits 10 (rounded / 10 ^ precision)).length + precision := by
    rw [← padded]
    split
    · rw [List.length_append]
      omega
    · rfl
  rw [reserved, length_fixedText]
  split <;> omega

theorem length_toDigits_mul_pow {number : ℕ} (positive : 0 < number) (width : ℕ) :
    (Nat.toDigits 10 (number * 10 ^ width)).length = (Nat.toDigits 10 number).length + width := by
  have split := congrArg List.length (toDigits_split positive (show 0 < 10 ^ width from Nat.pow_pos (by decide)))
  rwa [List.length_append, length_fixedDigits, Nat.add_zero] at split

/-- Rounding and rendering at a place that may lie beyond the machine integers, where no text fits. -/
theorem render_round {number : ℕ} (positive : 0 < number) {places : ℤ} (lower : i64Min ≤ places)
    (fits : (Nat.toDigits 10 number).length ≤ i64Max) (precision : ℕ) (negative : Bool) :
    ∃ rounded : ℕ, IsNearestEven (scaled number (places - (Nat.toDigits 10 number).length)) rounded ∧
      renderScaledDecimal (roundShortestDecimal (Nat.toDigits 10 number) (saturated places)) precision negative =
        if reserved precision (fixedText negative precision rounded) ≤ i64Max then some (fixedText negative precision rounded) else none := by
  obtain ⟨rounded, isRounded, nearest⟩ := roundShortestDecimal_toDigits positive places
  refine ⟨rounded, nearest, ?_⟩
  rcases Int.lt_or_le i64Max places with beyond | inside
  · have isMost : saturated places = (i64Max.toNat : ℕ) := by
      have := i64Max_pos
      have := i64Min_le_i64Max
      unfold saturated
      omega
    have places_eq : places = (places.toNat : ℕ) := by have := i64Max_pos; omega
    rw [places_eq, roundShortestDecimal_of_ge positive (by omega)] at isRounded
    have isLength := congrArg List.length isRounded
    rw [length_toDigits_mul_pow positive] at isLength
    have long := length_lt_reserved negative precision rounded
    have most := length_lt_reserved negative precision (number * 10 ^ (i64Max.toNat - (Nat.toDigits 10 number).length))
    rw [length_toDigits_mul_pow positive] at most
    rw [isMost, roundShortestDecimal_of_ge positive (by omega), renderScaledDecimal_toDigits, if_neg (by omega), if_neg (by omega)]
  · rw [saturated_of_fits lower inside, isRounded, renderScaledDecimal_toDigits]

namespace ShortestDecimal

variable (decimal : ShortestDecimal)

/-- The zeros in front of the first significant digit. -/
def firstSignificant : ℕ := ((decimal.whole.chars ++ decimal.fractionChars).takeWhile (· = '0')).length

theorem bounds : decimal.whole.chars.length + decimal.fractionChars.length + decimal.exponentValue.natAbs ≤ 2 ^ 62 ∧
    decimal.firstSignificant ≤ decimal.whole.chars.length + decimal.fractionChars.length := by
  have bounded := decimal.bounded
  have fraction : decimal.fractionChars.length = decimal.fraction.elim 0 fun digits => digits.chars.length := by
    unfold fractionChars
    cases decimal.fraction <;> rfl
  have exponent : decimal.exponentValue.natAbs = decimal.exponent.elim 0 fun exponent => exponent.digits.value := by
    unfold exponentValue
    cases decimal.exponent with
    | none => rfl
    | some exponent =>
      dsimp only [Option.elim_some]
      unfold withSign
      split <;> omega
  refine ⟨by omega, ?_⟩
  rw [← List.length_append]
  exact (List.takeWhile_prefix _).length_le

theorem render_significant (precision : ℕ) (negative : Bool) :
    ∃ rounded : ℕ, IsNearestEven (decimal.value * 10 ^ precision) rounded ∧
      renderScaledDecimal (roundShortestDecimal ((decimal.whole.chars ++ decimal.fractionChars).drop decimal.firstSignificant)
        (saturated (decimal.whole.chars.length + decimal.exponentValue - decimal.firstSignificant + precision))) precision negative =
        if reserved precision (fixedText negative precision rounded) ≤ i64Max then some (fixedText negative precision rounded) else none := by
  have significant := drop_leading_zeros decimal.areDigits
  change (decimal.whole.chars ++ decimal.fractionChars).drop decimal.firstSignificant = if decimal.number = 0 then _ else _ at significant
  rw [decimal.value_mul_pow, significant]
  rcases Nat.eq_zero_or_pos decimal.number with zero | positive
  · refine ⟨0, ?_, ?_⟩
    · rw [zero, Int.ofNat_zero, scaled_zero]
      exact isNearestEven_natCast 0
    · rw [if_pos zero, ← renderScaledDecimal_toDigits, roundShortestDecimal, if_pos (.inr rfl)]
      rfl
  · rw [if_neg (by omega)] at significant ⊢
    have length := congrArg List.length significant
    rw [List.length_drop, List.length_append] at length
    change _ = (Nat.toDigits 10 decimal.number).length at length
    obtain ⟨bounded, zerosBound⟩ := decimal.bounds
    have place : decimal.exponentValue - decimal.fractionChars.length + precision =
        decimal.whole.chars.length + decimal.exponentValue - decimal.firstSignificant + precision -
          (Nat.toDigits 10 decimal.number).length := by omega
    rw [place]
    exact render_round positive (by simp only [i64Min]; omega) (by simp only [i64Max]; omega) precision negative

end ShortestDecimal

/-- The text has the decimals that are asked for, of the value rounded to the nearest and from the half to the even, unless no
allocation can hold it. -/
theorem formatShortestDecimalFixed_eq (decimal : ShortestDecimal) (precision : ℕ) (negative : Bool) :
    ∃ rounded : ℕ, IsNearestEven (decimal.value * 10 ^ precision) rounded ∧
      formatShortestDecimalFixed decimal.text precision negative =
        if reserved precision (fixedText negative precision rounded) ≤ i64Max then some (fixedText negative precision rounded) else none := by
  obtain ⟨rounded, nearest, rendered⟩ := decimal.render_significant precision negative
  refine ⟨rounded, nearest, ?_⟩
  obtain ⟨bounded, zerosBound⟩ := decimal.bounds
  obtain ⟨isWhole, areDigits⟩ := decimal.mantissa_parts
  have point : saturated (decimal.whole.chars.length + decimal.exponentValue) = decimal.whole.chars.length + decimal.exponentValue :=
    saturated_of_fits (by simp only [i64Min]; omega) (by simp only [i64Max]; omega)
  have position : saturated (decimal.whole.chars.length + decimal.exponentValue - decimal.firstSignificant) =
      decimal.whole.chars.length + decimal.exponentValue - decimal.firstSignificant :=
    saturated_of_fits (by simp only [i64Min]; omega) (by simp only [i64Max]; omega)
  unfold formatShortestDecimalFixed
  rw [decimal.splitExponent_text]
  simp only [Option.bind_eq_bind, Option.bind_some]
  rw [isWhole, areDigits]
  change (checked (precision : ℤ)).bind (fun precision' => renderScaledDecimal (roundShortestDecimal (List.drop decimal.firstSignificant _)
    (saturated (saturated (saturated _ - decimal.firstSignificant) + precision'.val))) precision negative) = _
  rw [point, position]
  by_cases fits : (precision : ℤ) ≤ i64Max
  · rw [checked_of_fits (by simp only [i64Min]; omega) fits, Option.bind_some, rendered]
  · have long := precision_lt_reserved negative precision rounded
    rw [checked_eq_none_iff.mpr (fun both => fits both.2), if_neg (by omega)]
    rfl

example : formatShortestDecimalFixed ['9', '9', '.', '9', '5'] 1 true = some ['-', '1', '0', '0', '.', '0'] := by decide

end HellRs.Double
