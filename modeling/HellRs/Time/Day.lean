import HellRs.Integer.DecimalText
import HellRs.Lib.Gregorian

/-! # Days

A day is its modified Julian day number, an integer of any length. Texts are lists of characters: all that the parsers accept
is ASCII, so the offsets of the source in bytes are offsets in characters where it matters.
-/

namespace HellRs.Time

open BigInteger

/-- `Day` of the guest time API. -/
structure Day where
  modifiedJulianDay : BigInteger
deriving DecidableEq

/-- The years of an era, by which the source divides. -/
def eraYears : Divisor := ⟨400, by decide⟩

/-- The days of an era. -/
def eraDays : Divisor := ⟨146097, by decide⟩

def isLeapYear (year : BigInteger) : Bool :=
  let remainder : ℕ := (year.divRemEuclidSmall eraYears).2
  remainder = 0 || (remainder % 4 = 0 && remainder % 100 ≠ 0)

def daysInMonth (year : BigInteger) : ℕ → ℕ
  | 1 | 3 | 5 | 7 | 8 | 10 | 12 => 31
  | 4 | 6 | 9 | 11 => 30
  | 2 => if isLeapYear year then 29 else 28
  | _ => 0

def gregorianToMjd (year : BigInteger) (month day : ℕ) : BigInteger :=
  let adjustedYear := if month ≤ 2 then year.subtract (ofInt 1) else year
  let (era, remainder) := adjustedYear.divRemEuclidSmall eraYears
  let yearOfEra : ℕ := remainder
  let shiftedMonth := if month > 2 then month - 3 else month + 9
  let dayOfYear := (153 * shiftedMonth + 2) / 5 + day - 1
  let daysOfEra := yearOfEra * 365 + yearOfEra / 4 - yearOfEra / 100 + dayOfYear
  (era.multiply (ofInt 146097)).add (ofInt (daysOfEra - 678881))

def mjdToGregorian (modifiedJulianDay : BigInteger) : BigInteger × ℕ × ℕ :=
  let days := modifiedJulianDay.add (ofInt 678881)
  let (era, remainder) := days.divRemEuclidSmall eraDays
  let dayOfEra : ℕ := remainder
  let yearOfEra := (dayOfEra - dayOfEra / 1460 + dayOfEra / 36524 - dayOfEra / 146096) / 365
  let year := (era.multiply (ofInt 400)).add (ofInt yearOfEra)
  let dayOfYear := dayOfEra - (365 * yearOfEra + yearOfEra / 4 - yearOfEra / 100)
  let monthPrime := (5 * dayOfYear + 2) / 153
  let day := dayOfYear - (153 * monthPrime + 2) / 5 + 1
  let month := if monthPrime < 10 then monthPrime + 3 else monthPrime - 9
  (if month ≤ 2 then year.add (ofInt 1) else year, month, day)

/-- `u32::try_from` of an `i64`. -/
def checkedU32 (value : ℤ) : Option ℕ := if 0 ≤ value ∧ value < 2 ^ 32 then some value.toNat else none

/-- `strip_prefix('-')`. -/
def stripMinus : List Char → Bool × List Char
  | '-' :: rest => (true, rest)
  | input => (false, input)

def formatYear (year : BigInteger) : List Char :=
  let (negative, magnitude) := stripMinus year.display
  (if negative then ['-'] else []) ++ magnitude.leftpad 4 '0'

namespace Day

def fromGregorianValid (year : BigInteger) (month day : ℤ) : Option Day := do
  let month ← checkedU32 month
  let day ← checkedU32 day
  if ¬(1 ≤ month ∧ month ≤ 12) ∨ day = 0 ∨ daysInMonth year month < day then none else some ⟨gregorianToMjd year month day⟩

def parseIso (input : List Char) : Option Day :=
  let (negative, input) := stripMinus input
  if input.length ≠ 10 ∨ input[4]? ≠ some '-' then none
  else
    let year := input.take 4
    let month := (input.drop 5).take 2
    let day := (input.drop 8).take 2
    if input[7]? ≠ some '-' ∨ !year.all Char.isDigit ∨ !month.all Char.isDigit ∨ !day.all Char.isDigit then none
    else do
      let year ← parse (if negative then '-' :: year else year)
      fromGregorianValid year (← parseI64 month).val (← parseI64 day).val

def toGregorian (day : Day) : BigInteger × ℕ × ℕ := mjdToGregorian day.modifiedJulianDay

def addDays (day : Day) (days : BigInteger) : Day := ⟨day.modifiedJulianDay.add days⟩

def iso8601Show (day : Day) : List Char :=
  let (year, month, day) := day.toGregorian
  formatYear year ++ '-' :: (zeroPadded 2 month ++ '-' :: zeroPadded 2 day)

end Day

end HellRs.Time
