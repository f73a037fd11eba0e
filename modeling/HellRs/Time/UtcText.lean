import HellRs.Time.UtcTime

/-! # Texts of UTC times

What `UtcTime::parse_iso` accepts, and where this is not exactly the ISO texts: a part of the time may be written with a plus,
as the machine integers of the language may, and no digit of a zero fraction is asked for. The text that is shown is exact.
-/

namespace HellRs.Time

open BigInteger Gregorian

/-! ## Cutting -/

theorem splitFraction_eq_iff {text second : List Char} {fraction : Option (List Char)} :
    splitFraction text = (second, fraction) ↔
      text = second ++ fraction.elim [] ('.' :: ·) ∧ '.' ∉ if fraction.isSome then second else text := by
  unfold splitFraction
  cases cut : splitOnce '.' text with
  | none =>
    have outside := splitOnce_eq_none_iff.mp cut
    cases fraction with
    | none => simp [outside, eq_comm]
    | some fraction =>
      refine ⟨nofun, fun ⟨whole, _⟩ => absurd ?_ outside⟩
      simp [whole]
  | some parts =>
    have whole := splitOnce_eq_some_iff.mp cut
    cases fraction with
    | none =>
      refine ⟨nofun, fun ⟨_, outside⟩ => absurd ?_ outside⟩
      simp [whole]
    | some fraction =>
      have same := @splitOnce_eq_some_iff '.' text second fraction
      rw [cut] at same
      obtain ⟨second', fraction'⟩ := parts
      simpa using same

theorem stripSuffix_eq_some_iff {suffix : Char} {text rest : List Char} : stripSuffix suffix text = some rest ↔ text = rest ++ [suffix] := by
  unfold stripSuffix
  constructor
  · intro stripped
    split at stripped
    next last =>
      cases stripped
      obtain ⟨front, rfl⟩ := List.getLast?_eq_some_iff.mp last
      rw [List.dropLast_concat]
    next => cases stripped
  · rintro rfl
    simp

/-- A text with separators behind two and behind five characters. -/
theorem split_clock {time : List Char} (length : 8 ≤ time.length) (first : time[2]? = some ':') (second : time[5]? = some ':') :
    time = time.take 2 ++ ':' :: ((time.drop 3).take 2 ++ ':' :: time.drop 6) := by
  match time, length with
  | _ :: _ :: _ :: _ :: _ :: _ :: _, _ =>
    cases first
    cases second
    rfl

theorem cut_clock {hour minute : List Char} (hourLength : hour.length = 2) (minuteLength : minute.length = 2) (rest : List Char) :
    (hour ++ ':' :: (minute ++ ':' :: rest)).length = 6 + rest.length ∧ (hour ++ ':' :: (minute ++ ':' :: rest))[2]? = some ':' ∧
      (hour ++ ':' :: (minute ++ ':' :: rest))[5]? = some ':' ∧ (hour ++ ':' :: (minute ++ ':' :: rest)).take 2 = hour ∧
      ((hour ++ ':' :: (minute ++ ':' :: rest)).drop 3).take 2 = minute ∧ (hour ++ ':' :: (minute ++ ':' :: rest)).drop 6 = rest := by
  match hour, hourLength, minute, minuteLength with
  | [_, _], _, [_, _], _ => exact ⟨by simp; omega, rfl, rfl, rfl, rfl, rfl⟩

/-! ## Numbers -/

@[simp] theorem length_field (signed : Bool) (number : ℕ) : (field signed number).length = 2 := by
  unfold field
  split
  · rfl
  · exact length_fixedDigits 2 number

theorem parseU32_digits {digits : List Char} (run : DigitRun digits) (short : digits.length ≤ 2) :
    parseU32 digits = some (Nat.ofDigitChars 10 digits 0) := by
  have notPlus : digits.head? ≠ some '+' := by
    intro plus
    exact absurd (run.2 _ (List.mem_of_mem_head? plus)) (by decide)
  have accepted : (digits.isEmpty || !digits.all Char.isDigit) = false := by
    rw [List.all_eq_true.mpr run.2, List.isEmpty_eq_false_iff.mpr run.1]
    rfl
  have less : Nat.ofDigitChars 10 digits 0 < 2 ^ 32 := calc
    _ < 10 ^ digits.length := ofDigitChars_lt run.2
    _ ≤ 10 ^ 2 := Nat.pow_le_pow_right (by decide) short
    _ < 2 ^ 32 := by decide
  unfold parseU32
  rw [if_neg notPlus]
  dsimp only
  rw [accepted, if_neg Bool.false_ne_true, if_pos less]

/-- A number of two characters is read from its field. -/
theorem parseU32_field {signed : Bool} {number : ℕ} (fits : FieldFits signed number) : parseU32 (field signed number) = some number := by
  cases signed with
  | false =>
    have := parseU32_digits (run_fixedDigits (show 0 < 2 by decide) number) (length_fixedDigits 2 number).le
    rwa [ofDigitChars_fixedDigits_of_lt fits] at this
  | true =>
    have fits : number < 10 := fits
    interval_cases number <;> rfl

theorem field_of_parseU32 {text : List Char} {number : ℕ} (parsed : parseU32 text = some number) (length : text.length = 2) :
    ∃ signed, text = field signed number ∧ FieldFits signed number := by
  match text, length with
  | [first, second], _ =>
    by_cases plus : first = '+'
    · subst plus
      unfold parseU32 at parsed
      simp only [List.head?_cons, if_true, List.tail_cons] at parsed
      split at parsed
      next => cases parsed
      next digits =>
        have isDigit : second.isDigit = true := by simpa using digits
        obtain ⟨same, less⟩ := digitChar_toNat_sub isDigit
        split at parsed
        next =>
          cases parsed
          refine ⟨true, ?_, ?_⟩
          · simp only [field, if_true, Nat.ofDigitChars_cons, Nat.ofDigitChars_nil, Nat.mul_zero, Nat.zero_add, same]
          · simpa [FieldFits, Nat.ofDigitChars_cons] using less
        next => cases parsed
    · have notPlus : [first, second].head? ≠ some '+' := fun same => plus (Option.some.inj same)
      unfold parseU32 at parsed
      rw [if_neg notPlus] at parsed
      dsimp only at parsed
      split at parsed
      next => cases parsed
      next digits =>
        have areDigits : ∀ digit ∈ [first, second], digit.isDigit = true := by simpa using digits
        split at parsed
        next =>
          cases parsed
          exact ⟨false, (fixedDigits_ofDigitChars areDigits).symm, ofDigitChars_lt areDigits⟩
        next => cases parsed

/-- The digits of a fraction beyond the twelfth are cut off. -/
theorem parseFractionPicoseconds_eq {fraction : List Char} (run : DigitRun fraction) :
    parseFractionPicoseconds fraction = some ((fractionPicoseconds fraction : ℕ) : ℤ) := by
  have accepted : (fraction.isEmpty || !fraction.all Char.isDigit) = false := by
    rw [List.all_eq_true.mpr run.2, List.isEmpty_eq_false_iff.mpr run.1]
    rfl
  have same : Nat.ofDigitChars 10 (fraction.take 12) 0 * 10 ^ (12 - (fraction.take 12).length) = fractionPicoseconds fraction := by
    unfold fractionPicoseconds
    rcases Nat.le_total fraction.length 12 with short | long
    · have power : 10 ^ 12 = 10 ^ fraction.length * 10 ^ (12 - fraction.length) := by
        rw [← pow_add, Nat.add_sub_cancel' short]
      rw [List.take_of_length_le short, power, Nat.mul_left_comm, Nat.mul_div_cancel_left _ (Nat.pow_pos (by decide))]
    · have less := @ofDigitChars_lt (fraction.drop 12) fun digit member => run.2 digit (List.mem_of_mem_drop member)
      have power : 10 ^ fraction.length = 10 ^ (fraction.drop 12).length * 10 ^ 12 := by
        rw [← pow_add, List.length_drop, Nat.sub_add_cancel long]
      have whole := Nat.ofDigitChars_append (b := 10) (l := fraction.take 12) (m := fraction.drop 12) 0
      have tail := @Nat.ofDigitChars_eq_ofDigitChars_zero (fraction.drop 12) (Nat.ofDigitChars 10 (fraction.take 12) 0)
      rw [List.take_append_drop, tail] at whole
      rw [List.length_take, Nat.min_eq_left long, Nat.sub_self, pow_zero, Nat.mul_one, power,
        Nat.mul_div_mul_right _ _ (Nat.pow_pos (by decide)), whole, Nat.mul_add_div (Nat.pow_pos (by decide)),
        Nat.div_eq_of_lt less, Nat.add_zero]
  unfold parseFractionPicoseconds
  rw [accepted, if_neg Bool.false_ne_true]
  dsimp only
  rw [same]

theorem run_of_parseFraction {fraction : List Char} {value : ℤ} (parsed : parseFractionPicoseconds fraction = some value) :
    DigitRun fraction := by
  unfold parseFractionPicoseconds at parsed
  split at parsed
  next => cases parsed
  next digits =>
    rw [Bool.or_eq_true, not_or, Bool.not_eq_true, Bool.not_eq_true, List.isEmpty_eq_false_iff, Bool.not_eq_false', List.all_eq_true] at digits
    exact digits

theorem not_mem_field {signed : Bool} {number : ℕ} (fits : FieldFits signed number) : '.' ∉ field signed number := by
  cases signed with
  | false => exact fun inside => absurd (fixedDigits_areDigits 2 number _ inside) (by decide)
  | true =>
    have fits : number < 10 := fits
    interval_cases number <;> decide

theorem IsoDate.no_separator {text : List Char} {date : Date} (isText : IsoDate text date) : 'T' ∉ text := by
  obtain ⟨negative, year, -, -, rfl⟩ := isText
  have outside (width number : ℕ) : 'T' ∉ fixedDigits width number := fun inside =>
    absurd (fixedDigits_areDigits width number _ inside) (by decide)
  cases negative <;> simp [outside]

/-! ## The time of day -/

theorem splitFraction_second {clock : Clock} (fits : clock.Fits) :
    splitFraction (field clock.secondSigned clock.second ++ clock.fraction.elim [] ('.' :: ·)) =
      (field clock.secondSigned clock.second, clock.fraction) := by
  refine splitFraction_eq_iff.mpr ⟨rfl, ?_⟩
  have outside := not_mem_field fits.second
  cases clock.fraction with
  | none => simpa using outside
  | some fraction => exact outside

namespace UtcTime

/-- The instant of a clock on a day, as the parser computes it. -/
def ClockInstant (day : Day) (clock : Clock) (time : UtcTime) : Prop :=
  (clock.IsTime ∧ time = ⟨day, clock.picoseconds⟩) ∨ (clock.IsMidnight ∧ time = ⟨day.addDays (ofInt 1), 0⟩)

theorem clock_of_parseTime {day : Day} {text : List Char} {time : UtcTime} (parsed : parseTime day text = some time) :
    ∃ clock : Clock, clock.Fits ∧ text = clock.text ∧ ClockInstant day clock time := by
  unfold parseTime at parsed
  split at parsed
  next => cases parsed
  next shape =>
    rw [not_or, not_or, Nat.not_lt, not_not, not_not] at shape
    obtain ⟨length, first, second⟩ := shape
    have whole := split_clock length first second
    simp only [Option.bind_eq_bind, Option.bind_eq_some_iff] at parsed
    obtain ⟨hour, hourParsed, minute, minuteParsed, parsed⟩ := parsed
    obtain ⟨hourSigned, hourText, hourFits⟩ := field_of_parseU32 hourParsed (by rw [List.length_take]; omega)
    obtain ⟨minuteSigned, minuteText, minuteFits⟩ := field_of_parseU32 minuteParsed (by rw [List.length_take, List.length_drop]; omega)
    cases isParts : splitFraction (text.drop 6) with
    | mk secondText fraction =>
      have rest := (splitFraction_eq_iff.mp isParts).1
      rw [isParts] at parsed
      dsimp only at parsed
      split at parsed
      next => cases parsed
      next bounds =>
        rw [not_or, not_not, Nat.not_lt] at bounds
        obtain ⟨secondLength, minuteBound⟩ := bounds
        rw [Option.bind_eq_some_iff] at parsed
        obtain ⟨second, secondParsed, parsed⟩ := parsed
        obtain ⟨secondSigned, isSecond, secondFits⟩ := field_of_parseU32 secondParsed secondLength
        have isText : text = (Clock.mk hour minute second hourSigned minuteSigned secondSigned fraction).text := by
          rw [whole, hourText, minuteText, rest, isSecond]
          rfl
        split at parsed
        next midnight =>
          split at parsed
          next => cases parsed
          next zeros =>
            cases parsed
            rw [not_or, not_or, not_not, not_not] at zeros
            obtain ⟨noMinute, noSecond, zeros⟩ := zeros
            have zeros : ∀ fraction', fraction = some fraction' → ∀ digit ∈ fraction', digit = '0' := by
              rintro _ rfl
              simpa using zeros
            exact ⟨_, ⟨hourFits, minuteFits, secondFits, fun fraction' same digit member => by rw [zeros fraction' same digit member]; rfl⟩,
              isText, .inr ⟨⟨midnight, noMinute, noSecond, zeros⟩, rfl⟩⟩
        next =>
          split at parsed
          next => cases parsed
          next bounds =>
            rw [not_or, Nat.not_lt, Nat.not_lt] at bounds
            rw [Option.bind_eq_some_iff] at parsed
            obtain ⟨value, fractionParsed, parsed⟩ := parsed
            cases parsed
            cases fraction with
            | none =>
              cases fractionParsed
              refine ⟨_, ⟨hourFits, minuteFits, secondFits, ?_⟩, isText, .inl ⟨⟨bounds.1, minuteBound, bounds.2, ?_⟩, rfl⟩⟩
              · exact nofun
              · exact nofun
            | some fraction =>
              have run := run_of_parseFraction fractionParsed
              cases (parseFractionPicoseconds_eq run).symm.trans fractionParsed
              refine ⟨_, ⟨hourFits, minuteFits, secondFits, ?_⟩, isText, .inl ⟨⟨bounds.1, minuteBound, bounds.2, ?_⟩, rfl⟩⟩
              · rintro _ ⟨⟩
                exact run.2
              · rintro ⟨⟩
                exact run.1 rfl

theorem parseTime_of_clock {day : Day} {clock : Clock} {time : UtcTime} (fits : clock.Fits) (instant : ClockInstant day clock time) :
    parseTime day clock.text = some time := by
  obtain ⟨length, first, second, isHour, isMinute, isRest⟩ := cut_clock (length_field clock.hourSigned clock.hour)
    (length_field clock.minuteSigned clock.minute) (field clock.secondSigned clock.second ++ clock.fraction.elim [] ('.' :: ·))
  have enough : ¬clock.text.length < 8 := by
    rw [Clock.text, length, List.length_append, length_field]
    omega
  have minuteBound : ¬clock.minute > 59 := by
    rcases instant with ⟨isTime, -⟩ | ⟨isMidnight, -⟩
    · exact Nat.not_lt.mpr isTime.2.1
    · rw [isMidnight.2.1]; decide
  unfold parseTime
  rw [if_neg (by rw [not_or, not_or, not_not, not_not]; exact ⟨enough, first, second⟩)]
  unfold Clock.text
  rw [isHour, isMinute, isRest, parseU32_field fits.hour, parseU32_field fits.minute]
  simp only [Option.bind_eq_bind, Option.bind_some]
  rw [splitFraction_second fits]
  dsimp only
  rw [if_neg (by rw [not_or, not_not]; exact ⟨length_field _ _, minuteBound⟩), parseU32_field fits.second, Option.bind_some]
  rcases instant with ⟨⟨hourBound, -, secondBound, present⟩, rfl⟩ | ⟨⟨midnight, noMinute, noSecond, zeros⟩, rfl⟩
  · rw [if_neg (by omega), if_neg (by omega)]
    unfold Clock.picoseconds
    cases isFraction : clock.fraction with
    | none => rfl
    | some fraction =>
      have run : DigitRun fraction := ⟨fun empty => present (empty ▸ isFraction), fits.fraction fraction isFraction⟩
      rw [Option.elim_some, parseFractionPicoseconds_eq run]
      rfl
  · have onlyZeros : ¬(clock.fraction.any fun fraction => fraction.any (· ≠ '0')) = true := by
      cases isFraction : clock.fraction with
      | none => exact Bool.false_ne_true
      | some fraction => simpa using zeros fraction isFraction
    rw [if_pos midnight, if_neg (by rw [not_or, not_or, not_not, not_not]; exact ⟨noMinute, noSecond, onlyZeros⟩)]

theorem parseTime_eq_some_iff {day : Day} {text : List Char} {time : UtcTime} :
    parseTime day text = some time ↔ ∃ clock : Clock, clock.Fits ∧ text = clock.text ∧ ClockInstant day clock time :=
  ⟨clock_of_parseTime, fun ⟨_, fits, isText, instant⟩ => isText ▸ parseTime_of_clock fits instant⟩

end UtcTime

/-! ## The whole text -/

namespace UtcTime

theorem addDays_one {day : Day} {date : Date} (isDate : day.Is date) : (day.addDays (ofInt 1)).Is date.next := by
  unfold Day.Is Day.addDays at *
  rw [date.number_next, value_add, value_ofInt, isDate]
  omega

theorem parseIso_eq_some_iff {text : List Char} {time : UtcTime} :
    parseIso text = some time ↔ ∃ date clock, Writes text date clock ∧ Instant date clock time := by
  unfold parseIso
  simp only [Option.bind_eq_bind, Option.bind_eq_some_iff, Prod.exists, splitOnce_eq_some_iff, stripSuffix_eq_some_iff,
    Day.parseIso_eq_some_iff, parseTime_eq_some_iff]
  constructor
  · rintro ⟨dateText, _, ⟨rfl, -⟩, _, rfl, day, ⟨date, isText, isDate⟩, clock, fits, rfl, instant⟩
    refine ⟨date, clock, ⟨⟨dateText, isText, rfl⟩, fits⟩, ?_⟩
    rcases instant with ⟨isTime, rfl⟩ | ⟨isMidnight, rfl⟩
    · exact .inl ⟨isTime, isDate, rfl⟩
    · exact .inr ⟨isMidnight, addDays_one isDate, rfl⟩
  · rintro ⟨date, clock, ⟨⟨dateText, isText, rfl⟩, fits⟩, instant⟩
    have isDate : (Day.mk (ofInt (date.number - epoch))).Is date := value_ofInt _
    refine ⟨dateText, _, ⟨rfl, isText.no_separator⟩, _, rfl, _, ⟨date, isText, isDate⟩, clock, fits, rfl, ?_⟩
    rcases instant with ⟨isTime, isDay, isPicoseconds⟩ | ⟨isMidnight, isDay, isPicoseconds⟩
    · exact .inl ⟨isTime, by rw [← isPicoseconds, isDate.day_unique isDay]⟩
    · exact .inr ⟨isMidnight, by rw [← isPicoseconds, (addDays_one isDate).day_unique isDay]⟩

end UtcTime

/-! ## A text is written in one way -/

theorem field_inj {signed signed' : Bool} {number number' : ℕ} (fits : FieldFits signed number) (fits' : FieldFits signed' number')
    (same : field signed number = field signed' number') : signed = signed' ∧ number = number' := by
  have numbers : number = number' := by
    have parsed := parseU32_field fits
    rw [same, parseU32_field fits'] at parsed
    exact (Option.some.inj parsed).symm
  have notPlus {number : ℕ} : '+' ∉ field false number := fun inside => absurd (fixedDigits_areDigits 2 number _ inside) (by decide)
  refine ⟨?_, numbers⟩
  cases signed <;> cases signed'
  · rfl
  · exact absurd (by rw [same]; exact List.mem_cons_self) (@notPlus number)
  · exact absurd (by rw [← same]; exact List.mem_cons_self) (@notPlus number')
  · rfl

theorem Clock.text_inj {clock clock' : Clock} (fits : clock.Fits) (fits' : clock'.Fits) (same : clock.text = clock'.text) :
    clock = clock' := by
  have parts {clock : Clock} (fits : clock.Fits) : splitFraction (clock.text.drop 6) = (field clock.secondSigned clock.second, clock.fraction) ∧
      clock.text.take 2 = field clock.hourSigned clock.hour ∧ (clock.text.drop 3).take 2 = field clock.minuteSigned clock.minute := by
    obtain ⟨-, -, -, isHour, isMinute, isRest⟩ := cut_clock (length_field clock.hourSigned clock.hour)
      (length_field clock.minuteSigned clock.minute) (field clock.secondSigned clock.second ++ clock.fraction.elim [] ('.' :: ·))
    unfold Clock.text
    rw [isRest]
    exact ⟨splitFraction_second fits, isHour, isMinute⟩
  obtain ⟨isRest, isHour, isMinute⟩ := parts fits
  obtain ⟨isRest', isHour', isMinute'⟩ := parts fits'
  rw [← same] at isRest' isHour' isMinute'
  obtain ⟨sameSecond, sameFraction⟩ := Prod.mk.inj (isRest.symm.trans isRest')
  obtain ⟨hourSigned, hour⟩ := field_inj fits.hour fits'.hour (isHour.symm.trans isHour')
  obtain ⟨minuteSigned, minute⟩ := field_inj fits.minute fits'.minute (isMinute.symm.trans isMinute')
  obtain ⟨secondSigned, second⟩ := field_inj fits.second fits'.second sameSecond
  cases clock
  cases clock'
  congr

theorem Writes.clock_unique {text : List Char} {date date' : Date} {clock clock' : Clock} (writes : Writes text date clock)
    (writes' : Writes text date' clock') : clock = clock' := by
  obtain ⟨dateText, isDate, whole⟩ := writes.split
  obtain ⟨dateText', isDate', whole'⟩ := writes'.split
  have split := splitOnce_eq_some_iff.mpr ⟨whole, isDate.no_separator⟩
  have split' := splitOnce_eq_some_iff.mpr ⟨whole', isDate'.no_separator⟩
  have same := (Prod.mk.inj (Option.some.inj (split.symm.trans split'))).2
  exact Clock.text_inj writes.fits writes'.fits (List.append_cancel_right same)

theorem exists_instant {date : Date} {clock : Clock} (accepted : clock.IsTime ∨ clock.IsMidnight) : ∃ time, Instant date clock time := by
  rcases accepted with isTime | isMidnight
  · exact ⟨⟨⟨ofInt (date.number - epoch)⟩, clock.picoseconds⟩, .inl ⟨isTime, value_ofInt _, rfl⟩⟩
  · exact ⟨⟨⟨ofInt (date.next.number - epoch)⟩, 0⟩, .inr ⟨isMidnight, value_ofInt _, rfl⟩⟩

theorem Instant.accepted {date : Date} {clock : Clock} {time : UtcTime} (instant : Instant date clock time) :
    clock.IsTime ∨ clock.IsMidnight :=
  instant.imp And.left And.left

/-- A loose text is accepted although it denotes nothing. -/
theorem Loose.not_exact {text : List Char} (loose : Loose text) : ¬ExactAt text := by
  obtain ⟨date, clock, writes, accepted, notStrict⟩ := loose
  intro isExact
  obtain ⟨time, instant⟩ := @exists_instant date clock accepted
  obtain ⟨date', clock', writes', strict, -⟩ := (isExact time).mp (UtcTime.parseIso_eq_some_iff.mpr ⟨date, clock, writes, instant⟩)
  exact notStrict (writes.clock_unique writes' ▸ strict)

theorem exact_of_not_loose {text : List Char} (tight : ¬Loose text) : ExactAt text := by
  intro time
  rw [UtcTime.parseIso_eq_some_iff]
  constructor
  · rintro ⟨date, clock, writes, instant⟩
    have strict : clock.Strict := by
      by_contra notStrict
      exact tight ⟨date, clock, writes, instant.accepted, notStrict⟩
    exact ⟨date, clock, writes, strict, instant⟩
  · rintro ⟨date, clock, writes, -, instant⟩
    exact ⟨date, clock, writes, instant⟩

/-! ## The text that is shown -/

theorem zeroPaddedInt_eq {number : ℕ} {width : ℕ} (positive : 0 < width) (fits : number < 10 ^ width) :
    zeroPaddedInt width number = fixedDigits width number := by
  rw [zeroPaddedInt, if_neg (by omega), Int.natAbs_natCast, zeroPadded_eq positive fits]

/-- The zeros that are cut off behind a fraction do not change its value. -/
theorem fractionPicoseconds_trimmed {number : ℕ} (fits : number < 10 ^ 12) :
    fractionPicoseconds ((fixedDigits 12 number).rdropWhile (· = '0')) = number := by
  obtain ⟨count, whole⟩ := exists_rdropWhile_replicate '0' (fixedDigits 12 number)
  have value := ofDigitChars_fixedDigits_of_lt fits
  have length := length_fixedDigits 12 number
  generalize (fixedDigits 12 number).rdropWhile (· = '0') = kept at whole ⊢
  rw [whole, Nat.ofDigitChars_append, Nat.ofDigitChars_replicate_zero] at value
  rw [whole, List.length_append, List.length_replicate] at length
  have power : 10 ^ 12 = 10 ^ kept.length * 10 ^ count := by rw [← pow_add, length]
  rw [fractionPicoseconds, power, Nat.mul_left_comm, Nat.mul_div_cancel_left _ (Nat.pow_pos (by decide)), Nat.mul_comm, value]

theorem trimmed_ne_nil {number : ℕ} (fits : number < 10 ^ 12) (nonzero : number ≠ 0) :
    (fixedDigits 12 number).rdropWhile (· = '0') ≠ [] := by
  intro empty
  have value := fractionPicoseconds_trimmed fits
  rw [empty] at value
  exact nonzero value.symm

/-- The clock of a time of day. -/
def clockOf (hour minute second fraction : ℕ) : Clock where
  hour := hour
  minute := minute
  second := second
  hourSigned := false
  minuteSigned := false
  secondSigned := false
  fraction := if fraction = 0 then none else some ((fixedDigits 12 fraction).rdropWhile (· = '0'))

theorem display_eq_text {hour minute second fraction : ℕ} (hourFits : hour ≤ 23) (minuteFits : minute ≤ 59) (secondFits : second ≤ 60)
    (fractionFits : fraction < 10 ^ 12) :
    (TimeOfDay.mk hour minute (second * picosecondsPerSecond + fraction)).display = (clockOf hour minute second fraction).text := by
  have whole : (second * picosecondsPerSecond + fraction : ℤ) / picosecondsPerSecond = second := by
    simp only [picosecondsPerSecond]
    omega
  have part : (second * picosecondsPerSecond + fraction : ℤ) % picosecondsPerSecond = fraction := by
    simp only [picosecondsPerSecond]
    omega
  unfold TimeOfDay.display Clock.text formatSecond formatHour
  dsimp only
  rw [whole, part, if_neg (by omega), zeroPaddedInt_eq (by decide) (by omega), zeroPaddedInt_eq (by decide) (by omega),
    zeroPaddedInt_eq (by decide) (by omega)]
  unfold clockOf
  by_cases noFraction : fraction = 0
  · simp [noFraction, field]
  · rw [if_neg (by omega), zeroPaddedInt_eq (by decide) fractionFits]
    simp [noFraction, field]

theorem clockOf_fits {hour minute second fraction : ℕ} (hourFits : hour ≤ 23) (minuteFits : minute ≤ 59) (secondFits : second ≤ 60) :
    (clockOf hour minute second fraction).Fits where
  hour := show hour < 100 by omega
  minute := show minute < 100 by omega
  second := show second < 100 by omega
  fraction := by
    intro digits isFraction digit member
    unfold clockOf at isFraction
    dsimp only at isFraction
    split at isFraction
    next => cases isFraction
    next =>
      cases isFraction
      exact fixedDigits_areDigits 12 fraction digit ((List.rdropWhile_prefix _ _).subset member)

theorem clockOf_isTime {hour minute second fraction : ℕ} (hourFits : hour ≤ 23) (minuteFits : minute ≤ 59) (secondFits : second ≤ 60)
    (fractionFits : fraction < 10 ^ 12) : (clockOf hour minute second fraction).IsTime := by
  refine ⟨hourFits, minuteFits, secondFits, fun empty => ?_⟩
  unfold clockOf at empty
  dsimp only at empty
  split at empty
  next => cases empty
  next nonzero => exact trimmed_ne_nil fractionFits nonzero (Option.some.inj empty)

theorem clockOf_picoseconds {fraction : ℕ} (hour minute second : ℕ) (fractionFits : fraction < 10 ^ 12) :
    (clockOf hour minute second fraction).picoseconds =
      hour * picosecondsPerHour + minute * picosecondsPerMinute + (second * picosecondsPerSecond + fraction) := by
  have value : (clockOf hour minute second fraction).fraction.elim 0 fractionPicoseconds = fraction := by
    unfold clockOf
    by_cases noFraction : fraction = 0
    · rw [noFraction]; rfl
    · simp only [noFraction, if_false, Option.elim_some, fractionPicoseconds_trimmed fractionFits]
  rw [Clock.picoseconds, value, ← add_assoc]
  rfl

/-- The time of day of the picoseconds, with a leap second at its end. -/
theorem fromPicoseconds_eq {picoseconds : ℤ} (lower : 0 ≤ picoseconds) (upper : picoseconds < 86401 * picosecondsPerSecond) :
    ∃ hour minute second fraction : ℕ, hour ≤ 23 ∧ minute ≤ 59 ∧ second ≤ 60 ∧ fraction < 10 ^ 12 ∧
      TimeOfDay.fromPicoseconds picoseconds = ⟨hour, minute, second * picosecondsPerSecond + fraction⟩ ∧
      picoseconds = hour * picosecondsPerHour + minute * picosecondsPerMinute + (second * picosecondsPerSecond + fraction) := by
  simp only [picosecondsPerSecond] at upper
  obtain ⟨hour, isHour⟩ := Int.eq_ofNat_of_zero_le (show 0 ≤ min (picoseconds / picosecondsPerHour) 23 by
    simp only [picosecondsPerHour, picosecondsPerMinute, picosecondsPerSecond]; omega)
  have hourFits : hour ≤ 23 := by omega
  have afterHour : 0 ≤ picoseconds - hour * picosecondsPerHour ∧ picoseconds - hour * picosecondsPerHour < 3601 * picosecondsPerSecond := by
    simp only [picosecondsPerHour, picosecondsPerMinute, picosecondsPerSecond] at *
    omega
  obtain ⟨minute, isMinute⟩ := Int.eq_ofNat_of_zero_le
    (show 0 ≤ min ((picoseconds - hour * picosecondsPerHour) / picosecondsPerMinute) 59 by
      simp only [picosecondsPerMinute, picosecondsPerSecond] at *; omega)
  have minuteFits : minute ≤ 59 := by omega
  generalize isRest : picoseconds - hour * picosecondsPerHour - minute * picosecondsPerMinute = rest
  have restFits : 0 ≤ rest ∧ rest < 61 * picosecondsPerSecond := by
    simp only [picosecondsPerHour, picosecondsPerMinute, picosecondsPerSecond] at *
    omega
  refine ⟨hour, minute, (rest / picosecondsPerSecond).toNat, (rest % picosecondsPerSecond).toNat, hourFits, minuteFits, ?_⟩
  have parts : ((rest / picosecondsPerSecond).toNat * picosecondsPerSecond + (rest % picosecondsPerSecond).toNat : ℤ) = rest := by
    simp only [picosecondsPerSecond] at *
    omega
  rw [parts]
  refine ⟨?_, ?_, ?_, by omega⟩
  · simp only [picosecondsPerSecond] at *
    omega
  · simp only [picosecondsPerSecond] at *
    omega
  · have whole : (hour : ℤ).bmod (2 ^ 64) = hour := Int.bmod_eq_of_le (by omega) (by omega)
    unfold TimeOfDay.fromPicoseconds
    rw [isHour]
    dsimp only
    rw [isMinute]
    exact congrArg₂ (TimeOfDay.mk · minute ·) whole isRest

/-- The text that is shown for a UTC time denotes it. -/
theorem parseIso_iso8601Show {time : UtcTime} {date : Date} (isDate : time.day.Is date) (yearFits : date.year.natAbs < 10000)
    (lower : 0 ≤ time.dayTimePicoseconds) (upper : time.dayTimePicoseconds < 86401 * picosecondsPerSecond) :
    UtcTime.parseIso time.iso8601Show = some time := by
  obtain ⟨hour, minute, second, fraction, hourFits, minuteFits, secondFits, fractionFits, parts, whole⟩ := fromPicoseconds_eq lower upper
  refine UtcTime.parseIso_eq_some_iff.mpr ⟨date, clockOf hour minute second fraction, ⟨⟨time.day.iso8601Show,
    isoDate_iso8601Show isDate yearFits, ?_⟩, clockOf_fits hourFits minuteFits secondFits⟩,
    .inl ⟨clockOf_isTime hourFits minuteFits secondFits fractionFits, isDate, ?_⟩⟩
  · rw [UtcTime.iso8601Show, parts, display_eq_text hourFits minuteFits secondFits fractionFits]
  · rw [whole, clockOf_picoseconds hour minute second fractionFits]

/-- The texts where parsing is exact are all but the loose ones, and every time that is shown with a year of four digits is read
back. -/
theorem utc_exact_iff (text : List Char) (time : UtcTime) :
    (ExactAt text ↔ ¬Loose text) ∧
    (-9999 ≤ time.day.toGregorian.1.value → time.day.toGregorian.1.value ≤ 9999 → 0 ≤ time.dayTimePicoseconds →
      time.dayTimePicoseconds < 86401 * picosecondsPerSecond → UtcTime.parseIso time.iso8601Show = some time) := by
  refine ⟨⟨fun isExact loose => loose.not_exact isExact, exact_of_not_loose⟩, fun lowerYear upperYear lower upper => ?_⟩
  obtain ⟨date, isDate⟩ := time.day.exists_date
  rw [toGregorian_eq isDate, value_ofInt] at lowerYear upperYear
  exact parseIso_iso8601Show isDate (by omega) lower upper

/-- A plus takes the place of the first digit of the hour, and no digit follows the dot at midnight. -/
theorem plus_and_dot_accepted :
    ¬ExactAt ['2', '0', '2', '0', '-', '0', '1', '-', '0', '1', 'T', '+', '5', ':', '0', '0', ':', '0', '0', 'Z'] ∧
    ¬ExactAt ['2', '0', '2', '0', '-', '0', '1', '-', '0', '1', 'T', '2', '4', ':', '0', '0', ':', '0', '0', '.', 'Z'] := by
  have isDate : IsoDate ['2', '0', '2', '0', '-', '0', '1', '-', '0', '1'] ⟨2020, 1, 1, by decide, by decide⟩ :=
    ⟨false, 2020, by decide, rfl, by decide⟩
  constructor
  · refine Loose.not_exact ⟨_, ⟨5, 0, 0, true, false, false, .none⟩, ⟨⟨_, isDate, rfl⟩, ⟨?_, ?_, ?_, nofun⟩⟩, .inl ⟨?_, ?_, ?_, nofun⟩, nofun⟩
    all_goals decide
  · refine Loose.not_exact ⟨_, ⟨24, 0, 0, false, false, false, some []⟩, ⟨⟨_, isDate, rfl⟩, ⟨?_, ?_, ?_, ?_⟩⟩,
      .inr ⟨rfl, rfl, rfl, ?_⟩, fun strict => strict.2.2.2 rfl⟩
    · decide
    · decide
    · decide
    · rintro _ ⟨⟩ _ ⟨⟩
    · rintro _ ⟨⟩ _ ⟨⟩

end HellRs.Time
