import HellRs.Time.Calendar

/-! # UTC times

A UTC time is a day and the picoseconds since its begin. The offsets of the source count bytes; a text that has anything but
ASCII in front of or between the parts that are cut off is rejected in any case.
-/

namespace HellRs.Time

open BigInteger

abbrev picosecondsPerSecond : ℤ := 1000000000000

abbrev picosecondsPerMinute : ℤ := 60 * picosecondsPerSecond

abbrev picosecondsPerHour : ℤ := 60 * picosecondsPerMinute

structure TimeOfDay where
  hour : ℤ
  minute : ℤ
  secondPicoseconds : ℤ

/-- `UtcTime` of the guest time API. -/
structure UtcTime where
  day : Day
  dayTimePicoseconds : ℤ
deriving DecidableEq

/-- An integer filled up with zeros behind its sign. -/
def zeroPaddedInt (width : ℕ) (value : ℤ) : List Char :=
  if value < 0 then '-' :: zeroPadded (width - 1) value.natAbs else zeroPadded width value.natAbs

def formatHour (hour : ℤ) : List Char := if hour < 0 then '-' :: zeroPadded 2 hour.natAbs else zeroPaddedInt 2 hour

def formatSecond (second fraction : ℤ) : List Char :=
  if fraction = 0 then zeroPaddedInt 2 second
  else zeroPaddedInt 2 second ++ '.' :: (zeroPaddedInt 12 fraction).rdropWhile (· = '0')

namespace TimeOfDay

def fromPicoseconds (picoseconds : ℤ) : TimeOfDay :=
  let hour := min (picoseconds / picosecondsPerHour) 23
  let afterHour := picoseconds - hour * picosecondsPerHour
  let minute := min (afterHour / picosecondsPerMinute) 59
  ⟨hour.bmod (2 ^ 64), minute, afterHour - minute * picosecondsPerMinute⟩

def display (time : TimeOfDay) : List Char :=
  let second := time.secondPicoseconds / picosecondsPerSecond
  let fraction := time.secondPicoseconds % picosecondsPerSecond
  formatHour time.hour ++ ':' :: (zeroPaddedInt 2 time.minute ++ ':' :: formatSecond second fraction)

end TimeOfDay

/-- The whole seconds and the digits behind a dot, if there is one. -/
def splitFraction (text : List Char) : List Char × Option (List Char) :=
  match splitOnce '.' text with
  | none => (text, none)
  | some (second, fraction) => (second, some fraction)

/-- `strip_suffix`. -/
def stripSuffix (suffix : Char) (text : List Char) : Option (List Char) :=
  if text.getLast? = some suffix then some text.dropLast else none

/-- `str::parse` of a `u32`, which may begin with a plus. -/
def parseU32 (text : List Char) : Option ℕ :=
  let digits := if text.head? = some '+' then text.tail else text
  if digits.isEmpty || !digits.all Char.isDigit then none
  else if Nat.ofDigitChars 10 digits 0 < 2 ^ 32 then some (Nat.ofDigitChars 10 digits 0)
  else none

def parseFractionPicoseconds (fraction : List Char) : Option ℤ :=
  if fraction.isEmpty || !fraction.all Char.isDigit then none
  else
    let retained := fraction.take 12
    some (Nat.ofDigitChars 10 retained 0 * 10 ^ (12 - retained.length) : ℕ)

namespace UtcTime

/-- The part of `parse_iso` behind the date. -/
def parseTime (day : Day) (time : List Char) : Option UtcTime :=
  if time.length < 8 ∨ time[2]? ≠ some ':' ∨ time[5]? ≠ some ':' then none
  else do
    let hour ← parseU32 (time.take 2)
    let minute ← parseU32 ((time.drop 3).take 2)
    let (second, fraction) := splitFraction (time.drop 6)
    if second.length ≠ 2 ∨ minute > 59 then none
    else
      let second ← parseU32 second
      if hour = 24 then
        if minute ≠ 0 ∨ second ≠ 0 ∨ fraction.any fun fraction => fraction.any (· ≠ '0') then none
        else some ⟨day.addDays (ofInt 1), 0⟩
      else if hour > 23 ∨ second > 60 then none
      else
        let fraction ← fraction.elim (some 0) parseFractionPicoseconds
        some ⟨day, hour * picosecondsPerHour + minute * picosecondsPerMinute + second * picosecondsPerSecond + fraction⟩

def parseIso (input : List Char) : Option UtcTime := do
  let (date, time) ← splitOnce 'T' input
  let time ← stripSuffix 'Z' time
  let day ← Day.parseIso date
  parseTime day time

def iso8601Show (time : UtcTime) : List Char :=
  time.day.iso8601Show ++ 'T' :: ((TimeOfDay.fromPicoseconds time.dayTimePicoseconds).display ++ ['Z'])

end UtcTime

/-! ## What the texts denote -/

/-- The text of a time of day in parts. A part may be written as a plus and a digit. -/
structure Clock where
  hour : ℕ
  minute : ℕ
  second : ℕ
  hourSigned : Bool
  minuteSigned : Bool
  secondSigned : Bool
  fraction : Option (List Char)

/-- Two characters that write a number. -/
def field (signed : Bool) (number : ℕ) : List Char := if signed then ['+', number.digitChar] else fixedDigits 2 number

/-- The number has the digits that a field takes. -/
def FieldFits (signed : Bool) (number : ℕ) : Prop := number < if signed then 10 else 100

instance (signed : Bool) (number : ℕ) : Decidable (FieldFits signed number) := inferInstanceAs (Decidable (_ < _))

/-- The picoseconds of a fraction, of which the digits beyond the twelfth are cut off. -/
def fractionPicoseconds (fraction : List Char) : ℕ := Nat.ofDigitChars 10 fraction 0 * 10 ^ 12 / 10 ^ fraction.length

namespace Clock

def text (clock : Clock) : List Char :=
  field clock.hourSigned clock.hour ++ ':' :: (field clock.minuteSigned clock.minute ++ ':' ::
    (field clock.secondSigned clock.second ++ clock.fraction.elim [] ('.' :: ·)))

/-- The parts are written with digits, and a fraction has one. -/
def Strict (clock : Clock) : Prop :=
  clock.hourSigned = false ∧ clock.minuteSigned = false ∧ clock.secondSigned = false ∧ clock.fraction ≠ some []

structure Fits (clock : Clock) : Prop where
  hour : FieldFits clock.hourSigned clock.hour
  minute : FieldFits clock.minuteSigned clock.minute
  second : FieldFits clock.secondSigned clock.second
  fraction : ∀ fraction, clock.fraction = some fraction → ∀ digit ∈ fraction, digit.isDigit = true

/-- A time before midnight. -/
def IsTime (clock : Clock) : Prop := clock.hour ≤ 23 ∧ clock.minute ≤ 59 ∧ clock.second ≤ 60 ∧ clock.fraction ≠ some []

/-- Midnight at the end of the day. -/
def IsMidnight (clock : Clock) : Prop :=
  clock.hour = 24 ∧ clock.minute = 0 ∧ clock.second = 0 ∧ ∀ fraction, clock.fraction = some fraction → ∀ digit ∈ fraction, digit = '0'

def picoseconds (clock : Clock) : ℤ :=
  clock.hour * picosecondsPerHour + clock.minute * picosecondsPerMinute + clock.second * picosecondsPerSecond +
    (clock.fraction.elim 0 fractionPicoseconds : ℕ)

end Clock

open Gregorian

/-- The text writes the date and the clock. -/
structure Writes (text : List Char) (date : Date) (clock : Clock) : Prop where
  split : ∃ dateText, IsoDate dateText date ∧ text = dateText ++ 'T' :: (clock.text ++ ['Z'])
  fits : clock.Fits

/-- The instant of a date and a clock. -/
def Instant (date : Date) (clock : Clock) (time : UtcTime) : Prop :=
  (clock.IsTime ∧ time.day.Is date ∧ time.dayTimePicoseconds = clock.picoseconds) ∨
    (clock.IsMidnight ∧ time.day.Is date.next ∧ time.dayTimePicoseconds = 0)

/-- The ISO text denotes the UTC time. -/
def Denotes (text : List Char) (time : UtcTime) : Prop := ∃ date clock, Writes text date clock ∧ clock.Strict ∧ Instant date clock time

/-- The parser accepts exactly the ISO texts, with the values that they denote. -/
def ExactAt (text : List Char) : Prop := ∀ time, UtcTime.parseIso text = some time ↔ Denotes text time

/-- A part of the time begins with a plus, or an empty fraction follows `24:00:00`. -/
def Loose (text : List Char) : Prop :=
  ∃ date clock, Writes text date clock ∧ (clock.IsTime ∨ clock.IsMidnight) ∧ ¬clock.Strict

end HellRs.Time
