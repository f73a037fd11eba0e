import Mathlib

/-! # The Gregorian calendar

Dates of all years, negative ones included, and their numbering by eras. An era has 400 years of 146097 days. Years count
from March here, so that the leap day is the last day of its year.
-/

namespace HellRs.Gregorian

def IsLeap (year : ℤ) : Prop := year % 4 = 0 ∧ (year % 100 ≠ 0 ∨ year % 400 = 0)

instance (year : ℤ) : Decidable (IsLeap year) := inferInstanceAs (Decidable (_ ∧ _))

def monthLength (year : ℤ) : ℕ → ℕ
  | 1 | 3 | 5 | 7 | 8 | 10 | 12 => 31
  | 4 | 6 | 9 | 11 => 30
  | 2 => if IsLeap year then 29 else 28
  | _ => 0

@[ext] structure Date where
  year : ℤ
  month : ℕ
  day : ℕ
  monthFits : 1 ≤ month ∧ month ≤ 12
  dayFits : 1 ≤ day ∧ day ≤ monthLength year month

theorem monthLength_pos {year : ℤ} {month : ℕ} (fits : 1 ≤ month ∧ month ≤ 12) : 1 ≤ monthLength year month := by
  obtain ⟨lower, upper⟩ := fits
  interval_cases month <;> simp only [monthLength] <;> first | decide | (split <;> decide)

theorem monthLength_le (year : ℤ) (month : ℕ) : monthLength year month ≤ 31 := by
  unfold monthLength
  split <;> first | decide | (split <;> decide)

/-- The following day. -/
def Date.next (date : Date) : Date :=
  if more : date.day < monthLength date.year date.month then
    ⟨date.year, date.month, date.day + 1, date.monthFits, by omega, more⟩
  else if month : date.month < 12 then
    ⟨date.year, date.month + 1, 1, ⟨by omega, by omega⟩, le_rfl, monthLength_pos ⟨by omega, by omega⟩⟩
  else ⟨date.year + 1, 1, 1, by decide, le_rfl, monthLength_pos (by decide)⟩

/-! ## The days of an era -/

/-- The days of the era before a year of it. -/
def yearStart (yearOfEra : ℕ) : ℕ := yearOfEra * 365 + yearOfEra / 4 - yearOfEra / 100

/-- The leap day of a year that counts from March falls into the following February. -/
def yearLength (yearOfEra : ℕ) : ℕ := if IsLeap (yearOfEra + 1) then 366 else 365

def yearOfDay (dayOfEra : ℕ) : ℕ := (dayOfEra - dayOfEra / 1460 + dayOfEra / 36524 - dayOfEra / 146096) / 365

theorem yearOfDay_le_succ {dayOfEra : ℕ} (inside : dayOfEra + 1 < 146097) : yearOfDay dayOfEra ≤ yearOfDay (dayOfEra + 1) := by
  unfold yearOfDay
  exact Nat.div_le_div_right (by omega)

theorem yearOfDay_mono {day later : ℕ} (before : day ≤ later) (inside : later < 146097) : yearOfDay day ≤ yearOfDay later := by
  induction later, before using Nat.le_induction with
  | base => exact le_rfl
  | succ later _ ih => exact (ih (by omega)).trans (yearOfDay_le_succ inside)

set_option maxRecDepth 8000 in
/-- The first and the last day of each year of an era, and what comes after it. -/
theorem year_ends : ∀ year < 400, yearOfDay (yearStart year) = year ∧ yearOfDay (yearStart year + yearLength year - 1) = year ∧
    yearStart year + yearLength year = if year = 399 then 146097 else yearStart (year + 1) := by
  decide

theorem yearLength_pos (year : ℕ) : 0 < yearLength year := by
  unfold yearLength
  split <;> decide

theorem yearStart_mono {year later : ℕ} (before : year ≤ later) : yearStart year ≤ yearStart later := by
  refine @monotone_nat_of_le_succ ℕ _ yearStart (fun year => ?_) year later before
  unfold yearStart
  omega

/-- A day of a year is inside the era. -/
theorem yearStart_add_lt {year day : ℕ} (isYear : year < 400) (isDay : day < yearLength year) : yearStart year + day < 146097 := by
  obtain ⟨-, -, after⟩ := year_ends year isYear
  split at after
  next => omega
  next notLast =>
    have : yearStart (year + 1) ≤ yearStart 399 := yearStart_mono (by omega)
    have : yearStart 399 = 145731 := by decide
    omega

theorem yearOfDay_yearStart {year day : ℕ} (isYear : year < 400) (isDay : day < yearLength year) :
    yearOfDay (yearStart year + day) = year := by
  obtain ⟨first, last, -⟩ := year_ends year isYear
  have inside := yearStart_add_lt isYear isDay
  have lastInside := yearStart_add_lt isYear (Nat.sub_lt (yearLength_pos year) Nat.one_pos)
  refine le_antisymm ?_ ?_
  · calc yearOfDay (yearStart year + day) ≤ yearOfDay (yearStart year + (yearLength year - 1)) :=
          yearOfDay_mono (by omega) lastInside
      _ = yearOfDay (yearStart year + yearLength year - 1) := by rw [Nat.add_sub_assoc (yearLength_pos year)]
      _ = year := last
  · calc year = yearOfDay (yearStart year) := first.symm
      _ ≤ yearOfDay (yearStart year + day) := yearOfDay_mono (Nat.le_add_right _ _) inside

theorem exists_year {year day : ℕ} (isYear : year < 400) (before : day < yearStart year + yearLength year) :
    ∃ year' < 400, yearStart year' ≤ day ∧ day < yearStart year' + yearLength year' := by
  induction year with
  | zero => exact ⟨0, by decide, Nat.zero_le _, before⟩
  | succ year ih =>
    by_cases inside : yearStart (year + 1) ≤ day
    · exact ⟨year + 1, isYear, inside, before⟩
    · obtain ⟨-, -, after⟩ := year_ends year (by omega)
      rw [if_neg (by omega)] at after
      exact ih (by omega) (by omega)

/-- The year of a day of the era and the day of that year. -/
theorem yearOfDay_spec {dayOfEra : ℕ} (inside : dayOfEra < 146097) : yearOfDay dayOfEra < 400 ∧
    yearStart (yearOfDay dayOfEra) ≤ dayOfEra ∧ dayOfEra - yearStart (yearOfDay dayOfEra) < yearLength (yearOfDay dayOfEra) := by
  obtain ⟨-, -, after⟩ := year_ends 399 (by decide)
  rw [if_pos rfl] at after
  obtain ⟨year, isYear, lower, upper⟩ := exists_year (show 399 < 400 by decide) (after ▸ inside)
  have same : yearOfDay dayOfEra = year := by
    have := @yearOfDay_yearStart year (dayOfEra - yearStart year) isYear (by omega)
    rwa [Nat.add_sub_cancel' lower] at this
  rw [same]
  exact ⟨isYear, lower, by omega⟩

/-! ## The days of a year -/

/-- The days of the year before a month of it, where March is month zero. -/
def monthStart (shiftedMonth : ℕ) : ℕ := (153 * shiftedMonth + 2) / 5

def monthOfDay (dayOfYear : ℕ) : ℕ := (5 * dayOfYear + 2) / 153

/-- The place of a month in a year that counts from March. -/
def shift (month : ℕ) : ℕ := if month > 2 then month - 3 else month + 9

def unshift (shiftedMonth : ℕ) : ℕ := if shiftedMonth < 10 then shiftedMonth + 3 else shiftedMonth - 9

/-- The year in which the year from March on begins. -/
def marchYear (year : ℤ) (month : ℕ) : ℤ := if month ≤ 2 then year - 1 else year

theorem unshift_shift {month : ℕ} (fits : 1 ≤ month ∧ month ≤ 12) : unshift (shift month) = month := by
  unfold unshift shift
  split <;> split <;> omega

theorem shift_lt {month : ℕ} (fits : 1 ≤ month ∧ month ≤ 12) : shift month < 12 := by
  unfold shift
  split <;> omega

theorem isLeap_emod (year : ℤ) : IsLeap ((year % 400).toNat + 1) ↔ IsLeap (year + 1) := by
  unfold IsLeap
  omega

theorem yearLength_marchYear (year : ℤ) : yearLength (year % 400).toNat = if IsLeap (year + 1) then 366 else 365 := by
  unfold yearLength
  simp only [isLeap_emod]

/-- The months of a year fill it without gaps. -/
theorem monthStart_add_monthLength {year : ℤ} {month : ℕ} (fits : 1 ≤ month ∧ month ≤ 12) :
    monthStart (shift month) + monthLength year month =
      if month = 2 then yearLength (marchYear year month % 400).toNat else monthStart (shift month + 1) := by
  obtain ⟨lower, upper⟩ := fits
  split
  next february =>
    rw [february, yearLength_marchYear]
    simp only [monthLength, marchYear, le_refl, if_true, Int.sub_add_cancel]
    split <;> rfl
  next other => interval_cases month <;> first | rfl | exact absurd rfl other

theorem monthStart_mono {month later : ℕ} (before : month ≤ later) : monthStart month ≤ monthStart later := by
  unfold monthStart
  omega

theorem monthOfDay_monthStart {shiftedMonth day : ℕ} (last : day < monthStart (shiftedMonth + 1) - monthStart shiftedMonth) :
    monthOfDay (monthStart shiftedMonth + day) = shiftedMonth := by
  unfold monthOfDay monthStart at *
  omega

/-- The month of a day of the year and the day of that month. -/
theorem monthOfDay_spec (dayOfYear : ℕ) : monthStart (monthOfDay dayOfYear) ≤ dayOfYear ∧
    dayOfYear < monthStart (monthOfDay dayOfYear + 1) := by
  unfold monthOfDay monthStart
  omega

theorem shift_unshift {shiftedMonth : ℕ} (fits : shiftedMonth < 12) : shift (unshift shiftedMonth) = shiftedMonth := by
  unfold shift unshift
  split <;> split <;> omega

theorem unshift_fits {shiftedMonth : ℕ} (fits : shiftedMonth < 12) : 1 ≤ unshift shiftedMonth ∧ unshift shiftedMonth ≤ 12 := by
  unfold unshift
  split <;> omega

theorem yearLength_bounds (year : ℕ) : 365 ≤ yearLength year ∧ yearLength year ≤ 366 := by
  unfold yearLength
  split <;> omega

/-! ## Dates and day numbers -/

/-- The days from 1 March of the year zero to a date. -/
def dayNumber (year : ℤ) (month day : ℕ) : ℤ :=
  marchYear year month / 400 * 146097 + (yearStart (marchYear year month % 400).toNat + (monthStart (shift month) + (day - 1)) : ℕ)

def dateParts (number : ℤ) : ℤ × ℕ × ℕ :=
  let dayOfEra := (number % 146097).toNat
  let year := yearOfDay dayOfEra
  let dayOfYear := dayOfEra - yearStart year
  let month := unshift (monthOfDay dayOfYear)
  (number / 146097 * 400 + year + if month ≤ 2 then 1 else 0, month, dayOfYear - monthStart (monthOfDay dayOfYear) + 1)

namespace Date

variable (date : Date)

/-- The year of the era to which a date belongs. -/
def yearOfEra : ℕ := (marchYear date.year date.month % 400).toNat

def dayOfYear : ℕ := monthStart (shift date.month) + (date.day - 1)

theorem yearOfEra_lt : date.yearOfEra < 400 := by
  unfold yearOfEra
  omega

/-- The days of a month stay before the following month. -/
theorem day_lt : date.day - 1 < monthStart (shift date.month + 1) - monthStart (shift date.month) := by
  have whole := @monthStart_add_monthLength date.year date.month date.monthFits
  have fits := date.dayFits
  split at whole
  next february =>
    rw [february] at fits ⊢
    have short : monthLength date.year 2 ≤ 29 := by
      simp only [monthLength]
      split <;> decide
    have : monthStart (shift 2 + 1) - monthStart (shift 2) = 30 := by decide
    omega
  next => omega

theorem dayOfYear_lt : date.dayOfYear < yearLength date.yearOfEra := by
  have whole := @monthStart_add_monthLength date.year date.month date.monthFits
  have fits := date.dayFits
  have long := yearLength_bounds date.yearOfEra
  unfold dayOfYear
  split at whole
  next => unfold yearOfEra; omega
  next other =>
    have early : shift date.month + 1 ≤ 11 := by
      have := date.monthFits
      unfold shift
      split <;> omega
    have := monthStart_mono early
    have : monthStart 11 = 337 := by decide
    omega

theorem dayOfEra_lt : yearStart date.yearOfEra + date.dayOfYear < 146097 := yearStart_add_lt date.yearOfEra_lt date.dayOfYear_lt

def number : ℤ := dayNumber date.year date.month date.day

theorem number_eq : date.number = marchYear date.year date.month / 400 * 146097 + (yearStart date.yearOfEra + date.dayOfYear : ℕ) := rfl

theorem parts_number : dateParts date.number = (date.year, date.month, date.day) := by
  have inside := date.dayOfEra_lt
  have era : date.number / 146097 = marchYear date.year date.month / 400 := by rw [number_eq]; omega
  have dayOfEra : (date.number % 146097).toNat = yearStart date.yearOfEra + date.dayOfYear := by rw [number_eq]; omega
  have isYear := yearOfDay_yearStart date.yearOfEra_lt date.dayOfYear_lt
  have isMonth : monthOfDay date.dayOfYear = shift date.month := monthOfDay_monthStart date.day_lt
  have fits := date.dayFits
  simp only [dateParts, era, dayOfEra, isYear, Nat.add_sub_cancel_left, isMonth, unshift_shift date.monthFits, Prod.mk.injEq, true_and]
  constructor
  · unfold yearOfEra marchYear
    split <;> omega
  · unfold dayOfYear
    omega

/-- Different dates have different numbers. -/
theorem number_inj {date date' : Date} (same : date.number = date'.number) : date = date' := by
  have parts := date.parts_number
  rw [same, date'.parts_number, Prod.mk.injEq, Prod.mk.injEq] at parts
  exact Date.ext parts.1.symm parts.2.1.symm parts.2.2.symm

/-- Every number is the number of a date. -/
theorem exists_number_eq (number : ℤ) : ∃ date : Date, date.number = number := by
  have inside : (number % 146097).toNat < 146097 := by omega
  obtain ⟨isYear, start, isDay⟩ := yearOfDay_spec inside
  generalize isDayOfEra : (number % 146097).toNat = dayOfEra at *
  generalize yearOfDay dayOfEra = year at *
  obtain ⟨monthFirst, monthLast⟩ := monthOfDay_spec (dayOfEra - yearStart year)
  have isMonth : monthOfDay (dayOfEra - yearStart year) < 12 := by
    have := yearLength_bounds year
    unfold monthOfDay
    omega
  generalize monthOfDay (dayOfEra - yearStart year) = month at *
  have monthFits := unshift_fits isMonth
  have isMarchYear : marchYear (number / 146097 * 400 + year + if unshift month ≤ 2 then 1 else 0) (unshift month) =
      number / 146097 * 400 + year := by
    unfold marchYear
    split <;> omega
  have isYearOfEra : ((number / 146097 * 400 + year) % 400).toNat = year := by omega
  have whole := @monthStart_add_monthLength (number / 146097 * 400 + year + if unshift month ≤ 2 then 1 else 0) _ monthFits
  rw [isMarchYear, isYearOfEra, shift_unshift isMonth] at whole
  generalize (number / 146097 * 400 + year + if unshift month ≤ 2 then 1 else 0) = calendarYear at isMarchYear whole
  refine ⟨⟨calendarYear, unshift month, dayOfEra - yearStart year - monthStart month + 1, monthFits, by omega, ?_⟩, ?_⟩
  · split at whole <;> omega
  · rw [Date.number, dayNumber, isMarchYear, isYearOfEra, shift_unshift isMonth, Nat.add_sub_cancel]
    omega

/-- Consecutive dates have consecutive numbers. -/
theorem number_next : date.next.number = date.number + 1 := by
  have whole := @monthStart_add_monthLength date.year date.month date.monthFits
  have monthFits := date.monthFits
  have fits := date.dayFits
  unfold next
  split
  next more =>
    simp only [number, dayNumber]
    omega
  next last =>
    have isLast : date.day = monthLength date.year date.month := by omega
    split
    next earlier =>
      by_cases february : date.month = 2
      · rw [if_pos february] at whole
        simp only [number, dayNumber, february, isLast] at whole ⊢
        have before : marchYear date.year 2 = date.year - 1 := rfl
        have after : marchYear date.year (2 + 1) = date.year := rfl
        have isYear : ((date.year - 1) % 400).toNat < 400 := by omega
        obtain ⟨-, -, following⟩ := year_ends _ isYear
        have first : monthStart (shift (2 + 1)) = 0 := by decide
        have start : yearStart 0 = 0 := by decide
        have positive := @monthLength_pos date.year 2 (by decide)
        rw [before] at whole ⊢
        rw [after, first]
        split at following
        next endOfEra =>
          have none : (date.year % 400).toNat = 0 := by omega
          rw [none, start]
          omega
        next inEra =>
          have same : (date.year % 400).toNat = ((date.year - 1) % 400).toNat + 1 := by omega
          rw [same]
          omega
      · rw [if_neg february] at whole
        have sameYear : marchYear date.year (date.month + 1) = marchYear date.year date.month := by
          unfold marchYear
          split <;> split <;> omega
        have following : shift (date.month + 1) = shift date.month + 1 := by
          unfold shift
          split <;> split <;> omega
        simp only [number, dayNumber, sameYear, following, isLast]
        omega
    next december =>
      have isDecember : date.month = 12 := by omega
      have after : marchYear (date.year + 1) 1 = date.year := Int.add_sub_cancel date.year 1
      have before : marchYear date.year 12 = date.year := rfl
      have length : monthLength date.year 12 = 31 := rfl
      have start : monthStart (shift 12) = 275 := by decide
      have start' : monthStart (shift 1) = 306 := by decide
      rw [isDecember, length] at isLast
      simp only [number, dayNumber, isDecember, isLast, after, before, start, start']
      omega

end Date

end HellRs.Gregorian
