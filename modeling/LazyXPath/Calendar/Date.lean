/-!
# Dates

Dates of the proleptic Gregorian calendar, with a year zero, in the years from -262143 to 262142. A
date is given by year, month and day; `Date.dayNumber` counts the days, which makes dates a segment
of the integers. Months are added by counting months and clamping the day to the length of the month.
-/

namespace LazyXPath.Calendar

/-- Whether a year has 366 days. -/
def isLeapYear (year : Int) : Bool := year % 4 = 0 && (year % 100 != 0 || year % 400 = 0)

/-- The number of days of a month. -/
def daysInMonth (year : Int) : Nat → Nat
  | 2 => if isLeapYear year then 29 else 28
  | 4 | 6 | 9 | 11 => 30
  | _ => 31

/-- The first year. -/
abbrev firstYear : Int := -262143

/-- The last year. -/
abbrev lastYear : Int := 262142

/-- A date of the calendar. -/
structure Date where
  year : Int
  month : Nat
  day : Nat
  year_mem : firstYear ≤ year ∧ year ≤ lastYear
  month_mem : 1 ≤ month ∧ month ≤ 12
  day_mem : 1 ≤ day ∧ day ≤ daysInMonth year month
deriving DecidableEq

namespace Date

/-- The date with the given year, month and day, if there is one. -/
def ofParts? (year : Int) (month day : Nat) : Option Date :=
  if h : (firstYear ≤ year ∧ year ≤ lastYear) ∧ (1 ≤ month ∧ month ≤ 12) ∧
      (1 ≤ day ∧ day ≤ daysInMonth year month) then
    some ⟨year, month, day, h.1, h.2.1, h.2.2⟩
  else none

instance : Inhabited Date := ⟨⟨2000, 1, 1, by decide, by decide, by decide⟩⟩

/-- The number of days before the given month of a year that starts with March. -/
def daysBefore (month : Nat) : Nat := (153 * month + 2) / 5

/-- The number of days from the first of March of the year zero. -/
def dayNumber (d : Date) : Int :=
  -- years run from March to February, so that a leap day is the last day of its year
  let year := if d.month ≤ 2 then d.year - 1 else d.year
  let month := if d.month ≤ 2 then d.month + 9 else d.month - 3
  365 * year + year / 4 - year / 100 + year / 400 + (daysBefore month + (d.day - 1) : Nat)

/-- The date with the given day number, if it is in range. -/
def ofDayNumber? (n : Int) : Option Date :=
  let era := n / 146097
  let dayOfEra := (n % 146097).toNat
  let yearOfEra := (dayOfEra - dayOfEra / 1460 + dayOfEra / 36524 - dayOfEra / 146096) / 365
  let dayOfYear := dayOfEra - (365 * yearOfEra + yearOfEra / 4 - yearOfEra / 100)
  let month := (5 * dayOfYear + 2) / 153
  let day := dayOfYear - daysBefore month + 1
  let year := 400 * era + yearOfEra
  if month < 10 then ofParts? year (month + 3) day else ofParts? (year + 1) (month - 9) day

/-- The date a number of days later. -/
def addDays? (d : Date) (n : Int) : Option Date := ofDayNumber? (d.dayNumber + n)

/-- The next day. -/
def next? (d : Date) : Option Date := d.addDays? 1

/-- The number of months since the beginning of the year zero. -/
def monthNumber (d : Date) : Int := 12 * d.year + (d.month - 1 : Nat)

/-- The date a number of months later; a day after the end of that month becomes its last day. -/
def addMonths? (d : Date) (n : Int) : Option Date :=
  let target := d.monthNumber + n
  let year := target / 12
  let month := (target % 12).toNat + 1
  ofParts? year month (min d.day (daysInMonth year month))

end Date

end LazyXPath.Calendar
