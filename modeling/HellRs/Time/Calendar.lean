import HellRs.Time.Day

/-! # Days and dates

The conversions of `Day` are the numbering of the Gregorian dates, and its texts are the ISO texts of these dates.
-/

namespace HellRs.Time

open BigInteger Gregorian

/-- The day numbers count from 17 November 1858. -/
def epoch : ℤ := 678881

example : (⟨1858, 11, 17, by decide, by decide⟩ : Date).number = epoch := by decide

/-- The day is the date. -/
def Day.Is (day : Day) (date : Date) : Prop := day.modifiedJulianDay.value = date.number - epoch

theorem Day.exists_date (day : Day) : ∃ date, day.Is date := by
  obtain ⟨date, same⟩ := Date.exists_number_eq (day.modifiedJulianDay.value + epoch)
  exact ⟨date, by rw [Day.Is, same]; omega⟩

theorem Day.Is.date_unique {day : Day} {date date' : Date} (first : day.Is date) (second : day.Is date') : date = date' := by
  unfold Day.Is at first second
  exact Date.number_inj (by omega)

theorem Day.Is.day_unique {day day' : Day} {date : Date} (first : day.Is date) (second : day'.Is date) : day = day' := by
  cases day
  cases day'
  exact congrArg Day.mk (value_inj.mp (first.trans second.symm))

/-! ## The conversions -/

theorem remainder_eq (integer : BigInteger) (divisor : Divisor) :
    ((integer.divRemEuclidSmall divisor).2 : ℕ) = (integer.value % divisor.val).toNat := by
  have := (value_divRemEuclidSmall integer divisor).2
  omega

@[simp] theorem eraYears_val : (eraYears.val : ℕ) = 400 := rfl

theorem isLeapYear_iff (year : BigInteger) : isLeapYear year = true ↔ IsLeap year.value := by
  unfold isLeapYear IsLeap
  rw [remainder_eq, eraYears_val]
  simp only [Bool.or_eq_true, Bool.and_eq_true, decide_eq_true_eq]
  omega

theorem daysInMonth_eq (year : BigInteger) (month : ℕ) : daysInMonth year month = monthLength year.value month := by
  unfold daysInMonth monthLength
  split <;> simp [isLeapYear_iff]

theorem value_gregorianToMjd (year : BigInteger) (month : ℕ) {day : ℕ} (positive : 1 ≤ day) :
    (gregorianToMjd year month day).value = dayNumber year.value month day - epoch := by
  have isMarchYear : (if month ≤ 2 then year.subtract (ofInt 1) else year).value = marchYear year.value month := by
    unfold marchYear
    split
    next => rw [value_subtract, value_ofInt]
    next => rfl
  unfold gregorianToMjd
  dsimp only
  rw [remainder_eq, value_add, value_multiply, value_ofInt, value_ofInt, (value_divRemEuclidSmall _ _).1, isMarchYear, eraYears_val]
  unfold dayNumber yearStart monthStart shift epoch
  rw [Nat.add_sub_assoc positive]
  push_cast
  omega

theorem value_step (later : Prop) [Decidable later] (year : BigInteger) :
    (if later then year.add (ofInt 1) else year).value = year.value + if later then 1 else 0 := by
  split
  next => rw [value_add, value_ofInt]
  next => exact (Int.add_zero _).symm

theorem mjdToGregorian_eq (number : BigInteger) :
    mjdToGregorian number = (ofInt (dateParts (number.value + epoch)).1, (dateParts (number.value + epoch)).2) := by
  have isDays : (number.add (ofInt 678881)).value = number.value + epoch := by rw [value_add, value_ofInt]; rfl
  have isEra : ((number.add (ofInt 678881)).divRemEuclidSmall eraDays).1.value = (number.value + epoch) / 146097 := by
    rw [← isDays]
    exact (value_divRemEuclidSmall _ eraDays).1
  have isDayOfEra : ((number.add (ofInt 678881)).divRemEuclidSmall eraDays).2.val = ((number.value + epoch) % 146097).toNat := by
    rw [← isDays]
    exact remainder_eq _ eraDays
  unfold mjdToGregorian
  dsimp only
  generalize (number.add (ofInt 678881)).divRemEuclidSmall eraDays = parts at isEra isDayOfEra ⊢
  unfold dateParts yearOfDay monthOfDay monthStart unshift yearStart
  simp only [isDayOfEra, Nat.mul_comm 365]
  refine Prod.ext (value_inj.mp ?_) rfl
  rw [value_step, value_add, value_multiply, isEra, value_ofInt, value_ofInt, value_ofInt]

/-- The parts of a day are those of its date. -/
theorem toGregorian_eq {day : Day} {date : Date} (isDate : day.Is date) : day.toGregorian = (ofInt date.year, date.month, date.day) := by
  have same : day.modifiedJulianDay.value + epoch = date.number := by rw [isDate]; omega
  rw [Day.toGregorian, mjdToGregorian_eq, same, date.parts_number]

theorem checkedU32_eq_some_iff {number : ℤ} {machine : ℕ} : checkedU32 number = some machine ↔ number = machine ∧ machine < 2 ^ 32 := by
  unfold checkedU32
  split
  next => rw [Option.some.injEq]; omega
  next => exact ⟨nofun, fun same => by omega⟩

/-- The valid dates are accepted, as the day that they are. -/
theorem fromGregorianValid_eq_some_iff {year : BigInteger} {month day : ℤ} {result : Day} :
    Day.fromGregorianValid year month day = some result ↔
      ∃ date : Date, year = ofInt date.year ∧ month = date.month ∧ day = date.day ∧ result.Is date := by
  unfold Day.fromGregorianValid
  simp only [Option.bind_eq_bind, Option.bind_eq_some_iff, checkedU32_eq_some_iff, daysInMonth_eq]
  constructor
  · rintro ⟨monthNumber, ⟨rfl, -⟩, dayNumber, ⟨rfl, -⟩, accepted⟩
    split at accepted
    next => cases accepted
    next valid =>
      cases accepted
      simp only [not_or, not_not] at valid
      obtain ⟨monthFits, nonzero, dayFits⟩ := valid
      refine ⟨⟨year.value, monthNumber, dayNumber, monthFits, Nat.pos_of_ne_zero nonzero, Nat.le_of_not_lt dayFits⟩,
        value_inj.mp (value_ofInt _).symm, rfl, rfl, value_gregorianToMjd year monthNumber (Nat.pos_of_ne_zero nonzero)⟩
  · rintro ⟨date, rfl, rfl, rfl, isDate⟩
    have monthFits := date.monthFits
    have dayFits := date.dayFits
    have short := monthLength_le date.year date.month
    refine ⟨date.month, ⟨rfl, by omega⟩, date.day, ⟨rfl, by omega⟩, ?_⟩
    rw [value_ofInt, if_neg (by omega), Option.some.injEq]
    refine Day.Is.day_unique ?_ isDate
    rw [Day.Is, value_gregorianToMjd _ _ dayFits.1, value_ofInt]
    rfl

/-! ## Texts -/

/-- The ISO text of a date whose year has four digits. -/
def IsoDate (text : List Char) (date : Date) : Prop := ∃ (negative : Bool) (year : ℕ), year < 10000 ∧ date.year = withSign negative year ∧
  text = (if negative then ['-'] else []) ++ (fixedDigits 4 year ++ '-' :: (fixedDigits 2 date.month ++ '-' :: fixedDigits 2 date.day))

theorem exists_of_length_eq_ten {α : Type} {items : List α} (length : items.length = 10) :
    ∃ first second third fourth fifth sixth seventh eighth ninth tenth,
      items = [first, second, third, fourth, fifth, sixth, seventh, eighth, ninth, tenth] := by
  match items, length with
  | [_, _, _, _, _, _, _, _, _, _], _ => exact ⟨_, _, _, _, _, _, _, _, _, _, rfl⟩

/-- A text of the length of a date, in parts. -/
theorem split_date {input : List Char} (length : input.length = 10) (first : input[4]? = some '-') (second : input[7]? = some '-') :
    input = input.take 4 ++ '-' :: ((input.drop 5).take 2 ++ '-' :: (input.drop 8).take 2) := by
  obtain ⟨_, _, _, _, _, _, _, _, _, _, rfl⟩ := exists_of_length_eq_ten length
  cases first
  cases second
  rfl

/-- The parts of a text that is put together as a date. -/
theorem cut_date {year month day : List Char} (yearLength : year.length = 4) (monthLength : month.length = 2) (dayLength : day.length = 2) :
    (year ++ '-' :: (month ++ '-' :: day)).length = 10 ∧ (year ++ '-' :: (month ++ '-' :: day))[4]? = some '-' ∧
      (year ++ '-' :: (month ++ '-' :: day))[7]? = some '-' ∧ (year ++ '-' :: (month ++ '-' :: day)).take 4 = year ∧
      ((year ++ '-' :: (month ++ '-' :: day)).drop 5).take 2 = month ∧ ((year ++ '-' :: (month ++ '-' :: day)).drop 8).take 2 = day := by
  match year, yearLength, month, monthLength, day, dayLength with
  | [_, _, _, _], _, [_, _], _, [_, _], _ => exact ⟨rfl, rfl, rfl, rfl, rfl, rfl⟩

theorem stripSign_digits {digits : List Char} (areDigits : ∀ digit ∈ digits, digit.isDigit = true) : stripSign digits = (false, digits) := by
  unfold stripSign
  split
  next => exact absurd (areDigits _ List.mem_cons_self) (by decide)
  next => exact absurd (areDigits _ List.mem_cons_self) (by decide)
  next => rfl

theorem parseI64_digits {digits : List Char} (run : DigitRun digits) (short : digits.length = 2) :
    ∃ machine : I64, parseI64 digits = some machine ∧ machine.val = Nat.ofDigitChars 10 digits 0 := by
  have less := ofDigitChars_lt run.2
  rw [short] at less
  refine ⟨_, (parseI64_signed .none ⟨digits, run⟩).trans (checked_of_fits ?_ ?_), rfl⟩
  · simp [withSign, Sign.negative, i64Min]
  · simp only [withSign, Sign.negative, Digits.value, i64Max, Bool.false_eq_true, if_false]
    omega

theorem parse_year (negative : Bool) {digits : List Char} (run : DigitRun digits) :
    parse (if negative then '-' :: digits else digits) = some (ofInt (withSign negative (Nat.ofDigitChars 10 digits 0))) := by
  obtain ⟨integer, parsed, same⟩ := @parse_of_denotes (if negative then '-' :: digits else digits)
    (withSign negative (Nat.ofDigitChars 10 digits 0))
    ⟨[], if negative then .minus else .none, ⟨digits, run⟩, [], by cases negative <;> simp [Sign.text],
      fun _ never => absurd never List.not_mem_nil, fun _ never => absurd never List.not_mem_nil, by cases negative <;> rfl⟩
  rw [parsed, value_inj.mp (same.trans (value_ofInt _).symm)]

theorem stripMinus_digits {digits : List Char} (areDigits : ∀ digit ∈ digits, digit.isDigit = true) (nonempty : digits ≠ [])
    (rest : List Char) : stripMinus (digits ++ rest) = (false, digits ++ rest) := by
  cases digits with
  | nil => exact absurd rfl nonempty
  | cons first digits =>
    unfold stripMinus
    split
    next minus =>
      rw [(List.cons.inj minus).1] at areDigits
      exact absurd (areDigits _ List.mem_cons_self) (by decide)
    next => rfl

/-- The minus that is stripped. -/
theorem eq_stripMinus (input : List Char) : input = (if (stripMinus input).1 then ['-'] else []) ++ (stripMinus input).2 := by
  unfold stripMinus
  split <;> rfl

theorem stripMinus_signed (negative : Bool) {digits : List Char} (run : DigitRun digits) (rest : List Char) :
    stripMinus ((if negative then ['-'] else []) ++ (digits ++ rest)) = (negative, digits ++ rest) := by
  cases negative with
  | true => rfl
  | false => exact stripMinus_digits run.2 run.1 rest

/-- Digits in text form. -/
theorem eq_fixedDigits {digits : List Char} (areDigits : digits.all Char.isDigit = true) {width number : ℕ} (length : digits.length = width)
    (same : Nat.ofDigitChars 10 digits 0 = number) : digits = fixedDigits width number := by
  rw [← same, ← length, fixedDigits_ofDigitChars (List.all_eq_true.mp areDigits)]

theorem run_of_length {digits : List Char} (areDigits : digits.all Char.isDigit = true) {length : ℕ} (isLength : digits.length = length + 1) :
    DigitRun digits :=
  ⟨List.ne_nil_of_length_pos (by omega), List.all_eq_true.mp areDigits⟩

namespace Day

theorem isoDate_of_parseIso {text : List Char} {day : Day} (parsed : parseIso text = some day) :
    ∃ date, IsoDate text date ∧ day.Is date := by
  have signed := eq_stripMinus text
  unfold parseIso at parsed
  generalize stripMinus text = parts at parsed signed
  obtain ⟨negative, input⟩ := parts
  dsimp only at parsed signed
  split at parsed
  next => cases parsed
  next shape =>
    rw [not_or, not_not, not_not] at shape
    obtain ⟨length, first⟩ := shape
    split at parsed
    next => cases parsed
    next digits =>
      simp only [not_or, not_not, Bool.not_eq_true', Bool.not_eq_false] at digits
      obtain ⟨second, yearDigits, monthDigits, dayDigits⟩ := digits
      have split := split_date length first second
      generalize hy : input.take 4 = year at *
      generalize hm : (input.drop 5).take 2 = month at *
      generalize hd : (input.drop 8).take 2 = dayOfMonth at *
      have yearLength : year.length = 4 := by rw [← hy, List.length_take, length]; rfl
      have monthLength : month.length = 2 := by rw [← hm, List.length_take, List.length_drop, length]; rfl
      have dayLength : dayOfMonth.length = 2 := by rw [← hd, List.length_take, List.length_drop, length]; rfl
      obtain ⟨machine, monthParsed, isMonth⟩ := parseI64_digits (run_of_length monthDigits monthLength) monthLength
      obtain ⟨machine', dayParsed, isDay⟩ := parseI64_digits (run_of_length dayDigits dayLength) dayLength
      rw [parse_year negative (run_of_length yearDigits yearLength), monthParsed, dayParsed] at parsed
      simp only [Option.bind_eq_bind, Option.bind_some, fromGregorianValid_eq_some_iff] at parsed
      obtain ⟨date, sameYear, sameMonth, sameDay, isDate⟩ := parsed
      have yearLess := ofDigitChars_lt (List.all_eq_true.mp yearDigits)
      rw [yearLength] at yearLess
      have sameYear : withSign negative (Nat.ofDigitChars 10 year 0) = date.year := by
        rw [← value_ofInt (withSign _ _), sameYear, value_ofInt]
      refine ⟨date, ⟨negative, _, yearLess, sameYear.symm, ?_⟩, isDate⟩
      rw [signed, split, ← eq_fixedDigits yearDigits yearLength rfl, ← eq_fixedDigits monthDigits monthLength (by omega),
        ← eq_fixedDigits dayDigits dayLength (by omega)]

theorem parseIso_of_isoDate {text : List Char} {date : Date} {day : Day} (isText : IsoDate text date) (isDate : day.Is date) :
    parseIso text = some day := by
  obtain ⟨negative, year, yearFits, isYear, rfl⟩ := isText
  have monthFits := date.monthFits
  have dayFits := date.dayFits
  have short := monthLength_le date.year date.month
  have yearRun := run_fixedDigits (show 0 < 4 by decide) year
  obtain ⟨machine, monthParsed, isMonth⟩ := parseI64_digits (run_fixedDigits (show 0 < 2 by decide) date.month) (length_fixedDigits _ _)
  obtain ⟨machine', dayParsed, isDay⟩ := parseI64_digits (run_fixedDigits (show 0 < 2 by decide) date.day) (length_fixedDigits _ _)
  have yearDigits := List.all_eq_true.mpr yearRun.2
  have monthDigits := List.all_eq_true.mpr (fixedDigits_areDigits 2 date.month)
  have dayDigits := List.all_eq_true.mpr (fixedDigits_areDigits 2 date.day)
  have parsedYear := parse_year negative yearRun
  rw [ofDigitChars_fixedDigits_of_lt (by omega)] at isMonth isDay
  rw [ofDigitChars_fixedDigits_of_lt yearFits] at parsedYear
  obtain ⟨length, first, second, isYearPart, isMonthPart, isDayPart⟩ :=
    cut_date (length_fixedDigits 4 year) (length_fixedDigits 2 date.month) (length_fixedDigits 2 date.day)
  unfold parseIso
  rw [stripMinus_signed negative yearRun]
  dsimp only
  rw [if_neg (by simp only [length, first, ne_eq, not_true_eq_false, or_self, not_false_eq_true]), isYearPart, isMonthPart, isDayPart,
    if_neg (by simp only [second, yearDigits, monthDigits, dayDigits]; decide), parsedYear, monthParsed, dayParsed]
  exact fromGregorianValid_eq_some_iff.mpr ⟨date, by rw [isYear], isMonth, isDay, isDate⟩

theorem parseIso_eq_some_iff {text : List Char} {day : Day} : parseIso text = some day ↔ ∃ date, IsoDate text date ∧ day.Is date :=
  ⟨isoDate_of_parseIso, fun ⟨_, isText, isDate⟩ => parseIso_of_isoDate isText isDate⟩

end Day

theorem formatYear_eq {year : ℤ} (fits : year.natAbs < 10000) :
    formatYear (ofInt year) = (if year < 0 then ['-'] else []) ++ fixedDigits 4 year.natAbs := by
  have run : DigitRun (Nat.toDigits 10 year.natAbs) := (Digits.ofNat year.natAbs).run
  have stripped := stripMinus_signed (decide (year < 0)) run []
  rw [List.append_nil] at stripped
  unfold formatYear
  rw [display_eq, value_ofInt, Json.JsonNumber.display]
  simp only [decide_eq_true_eq] at stripped
  rw [stripped]
  simp only [decide_eq_true_eq]
  rw [← zeroPadded_eq (by decide) fits]
  rfl

/-- A day whose year has four digits is shown as the text of its date. -/
theorem isoDate_iso8601Show {day : Day} {date : Date} (isDate : day.Is date) (fits : date.year.natAbs < 10000) :
    IsoDate day.iso8601Show date := by
  have monthFits := date.monthFits
  have dayFits := date.dayFits
  have short := monthLength_le date.year date.month
  refine ⟨decide (date.year < 0), date.year.natAbs, fits, (withSign_natAbs date.year).symm, ?_⟩
  unfold Day.iso8601Show
  rw [toGregorian_eq isDate]
  simp only [formatYear_eq fits, List.append_assoc, decide_eq_true_eq]
  rw [zeroPadded_eq (by decide) (show date.month < 10 ^ 2 by omega), zeroPadded_eq (by decide) (show date.day < 10 ^ 2 by omega)]

/-- Days and dates correspond to each other, consecutive dates are consecutive days, and the texts of days are the ISO texts of
their dates. -/
theorem calendar_bijection :
    (∀ day : Day, Day.fromGregorianValid day.toGregorian.1 day.toGregorian.2.1 day.toGregorian.2.2 = some day) ∧
    (∀ date : Date, ∃ day, Day.fromGregorianValid (ofInt date.year) date.month date.day = some day ∧
      day.toGregorian = (ofInt date.year, date.month, date.day)) ∧
    (∀ (date : Date) (day day' : Day), Day.fromGregorianValid (ofInt date.year) date.month date.day = some day →
      Day.fromGregorianValid (ofInt date.next.year) date.next.month date.next.day = some day' →
      day'.modifiedJulianDay.value = day.modifiedJulianDay.value + 1) ∧
    (∀ day : Day, -9999 ≤ day.toGregorian.1.value → day.toGregorian.1.value ≤ 9999 → Day.parseIso day.iso8601Show = some day) ∧
    ∀ (text : List Char) (day : Day), Day.parseIso text = some day →
      ∃ date : Date, IsoDate text date ∧ day.toGregorian = (ofInt date.year, date.month, date.day) := by
  have isDateOf {date : Date} {day : Day} (valid : Day.fromGregorianValid (ofInt date.year) date.month date.day = some day) :
      day.Is date := by
    obtain ⟨date', sameYear, sameMonth, sameDay, isDate⟩ := fromGregorianValid_eq_some_iff.mp valid
    have same : date = date' := by
      refine Date.ext ?_ (by omega) (by omega)
      rw [← value_ofInt date.year, sameYear, value_ofInt]
    exact same ▸ isDate
  refine ⟨fun day => ?_, fun date => ?_, fun date day day' first second => ?_, fun day lower upper => ?_, fun text day parsed => ?_⟩
  · obtain ⟨date, isDate⟩ := day.exists_date
    rw [toGregorian_eq isDate]
    exact fromGregorianValid_eq_some_iff.mpr ⟨date, rfl, rfl, rfl, isDate⟩
  · have isDate : (Day.mk (ofInt (date.number - epoch))).Is date := value_ofInt _
    exact ⟨_, fromGregorianValid_eq_some_iff.mpr ⟨date, rfl, rfl, rfl, isDate⟩, toGregorian_eq isDate⟩
  · rw [isDateOf first, isDateOf second, date.number_next]
    omega
  · obtain ⟨date, isDate⟩ := day.exists_date
    rw [toGregorian_eq isDate, value_ofInt] at lower upper
    exact Day.parseIso_of_isoDate (isoDate_iso8601Show isDate (by omega)) isDate
  · obtain ⟨date, isText, isDate⟩ := Day.isoDate_of_parseIso parsed
    exact ⟨date, isText, toGregorian_eq isDate⟩

end HellRs.Time
