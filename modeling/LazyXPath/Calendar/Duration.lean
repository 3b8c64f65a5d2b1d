import LazyXPath.Calendar.Time
import LazyXPath.Decimal.Arithmetic
import LazyXPath.Decimal.Quotient
import LazyXPath.Decimal.Text

/-!
# Durations

A year-month duration is a number of months, and a day-time duration a decimal number of seconds.
Both are written and read in the form `P…Y…M…DT…H…M…S`, in which each component is optional but not
all of them are.

A day-time duration moves a point of the time line by a whole number of nanoseconds
(`nanosOfSeconds?`), the seconds being truncated.
-/

namespace LazyXPath.Calendar

/-! ### Nanoseconds -/

/-- The greatest distance on the time line, in nanoseconds: a 64-bit number of milliseconds. -/
def longestShift : Nat := (twoTo 63 - 1) * 1000000

/-- The greatest whole number of seconds that a shift is built from. -/
def longestSeconds : Nat := (twoTo 63 - 1) / 1000

/-- Whether an integer is a signed 64-bit number. -/
def fitsLong (i : Int) : Bool := -(twoTo 63 : Int) ≤ i && i < (twoTo 63 : Int)

/-- The nanoseconds of a decimal number of seconds, truncated. -/
def nanosOfSeconds? (seconds : Decimal) : Option Int := do
  let whole := seconds.trunc
  let fraction ← seconds.sub? whole
  let billion ← Decimal.ofInt? nanosPerSecond
  let nanos := (← fraction.mul? billion).toInt
  if whole.toInt.natAbs ≤ longestSeconds then
    let total := whole.toInt * nanosPerSecond + nanos
    if total.natAbs ≤ longestShift then some total else none
  else none

/-- The number of seconds of a number of nanoseconds. -/
def secondsOfNanos (n : Int) : Decimal :=
  let whole := (Decimal.ofInt? (n.tdiv nanosPerSecond)).getD .zero
  let fraction := (Decimal.mk? (n.tmod nanosPerSecond) 9).getD .zero
  (whole.add? fraction).getD .zero

/-! ### Reading -/

/-- What a duration literal stands for. -/
structure DurationParts where
  months : Int
  seconds : Decimal
  /-- Whether there is a year or a month component. -/
  hasYearMonth : Bool
  /-- Whether there is a component below the month. -/
  hasDayTime : Bool

/-- Reads a component with the given designator, if the text starts with one. -/
def readComponent (designator : Char) (cs : List Char) : Option (List Char) × List Char :=
  let digits := cs.takeWhile Char.isDigit
  match cs.drop digits.length with
  | c :: rest => if c = designator then (some digits, rest) else (none, cs)
  | [] => (none, cs)

/-- Reads a component with the given designator and with a fractional part, if the text starts with
one. -/
def readFractional (designator : Char) (cs : List Char) :
    Option (List Char × List Char) × List Char :=
  let digits := cs.takeWhile Char.isDigit
  match cs.drop digits.length with
  | '.' :: rest =>
    let fraction := rest.takeWhile Char.isDigit
    match rest.drop fraction.length with
    | c :: rest => if c = designator then (some (digits, fraction), rest) else (none, cs)
    | [] => (none, cs)
  | _ => (none, cs)

/-- The count of a component that is a signed 64-bit number; an absent one counts zero. -/
def componentCount : Option (List Char) → Option Int
  | none => some 0
  | some digits =>
    if isNumeral digits ∧ fitsLong (digitsValue digits) then some (digitsValue digits) else none

/-- The number of seconds of a component of the given unit; an absent one has none. -/
def componentSeconds (unit : Nat) : Option (List Char) → Option Decimal
  | none => some .zero
  | some digits => do
    if !isNumeral digits then none
    let n ← Decimal.ofDigits? false digits []
    n.mul? (← Decimal.ofInt? unit)

/-- The number of seconds of a component with a fractional part. -/
def fractionalSeconds : Option (List Char × List Char) → Option Decimal
  | none => some .zero
  | some (digits, fraction) =>
    if isNumeral digits && isNumeral fraction then Decimal.ofDigits? false digits fraction
    else none

/-- Adds the hours, minutes and seconds of a text, one after the other, to a number of seconds, and
says whether there are any. -/
def readClock (start : Decimal) (cs : List Char) : Option (Decimal × Bool) := do
  let (hours, cs) := readComponent 'H' cs
  let (minutes, cs) := readComponent 'M' cs
  let (seconds, cs) := readComponent 'S' cs
  let (fractional, cs) := if seconds.isSome then (none, cs) else readFractional 'S' cs
  if !cs.isEmpty then none
  let total ← start.add? (← componentSeconds 3600 hours)
  let total ← total.add? (← componentSeconds 60 minutes)
  let total ← total.add? (← componentSeconds 1 seconds)
  let total ← total.add? (← fractionalSeconds fractional)
  return (total, hours.isSome || minutes.isSome || seconds.isSome || fractional.isSome)

/-- Reads a duration literal. -/
def readDuration? (text : List Char) : Option DurationParts := do
  let (negative, body) := match text with
    | '-' :: cs => (true, cs)
    | cs => (false, cs)
  let body ← match body with
    | 'P' :: cs => some cs
    | _ => none
  let (calendar, clock) ← match splitAtFirst 'T' body with
    | some (_, []) => none
    | some (d, t) => some (d, t)
    | none => some (body, [])
  let (years, rest) := readComponent 'Y' calendar
  let (months, rest) := readComponent 'M' rest
  let (days, rest) := readComponent 'D' rest
  if !rest.isEmpty then none
  let fromYears := 12 * (← componentCount years)
  let total := fromYears + (← componentCount months)
  if !(fitsLong fromYears && fitsLong total) then none
  let day ← Decimal.ofInt? 86400
  let fromDays ← (← Decimal.ofInt? (← componentCount days)).mul? day
  let (seconds, hasClock) ← readClock fromDays clock
  let hasYearMonth := years.isSome || months.isSome
  let hasDayTime := days.isSome || hasClock
  if !(hasYearMonth || hasDayTime) then none
  return {
    months := if negative then -total else total
    seconds := if negative then -seconds else seconds
    hasYearMonth, hasDayTime }

/-- Whether an integer is a signed 32-bit number. -/
def fitsInt (i : Int) : Bool := -(twoTo 31 : Int) ≤ i && i < (twoTo 31 : Int)

/-- Reads a duration literal with year and month components only, as a number of months. -/
def readYearMonth? (text : List Char) : Option Int := do
  let parts ← readDuration? text
  if !parts.hasDayTime && fitsInt parts.months then some parts.months else none

/-- Reads a duration literal without year and month components, as a number of seconds. -/
def readDayTime? (text : List Char) : Option Decimal := do
  let parts ← readDuration? text
  if parts.hasYearMonth then none else some parts.seconds

/-! ### Writing -/

/-- The literal of a number of months. -/
def yearMonthText (months : Int) : String :=
  if months = 0 then "P0M"
  else
    let n := months.natAbs
    (if months < 0 then "-P" else "P") ++
      (if n / 12 = 0 then "" else toString (n / 12) ++ "Y") ++
      (if n % 12 = 0 then "" else toString (n % 12) ++ "M")

/-- Splits off the whole number of units: the rounded quotient is truncated, and the rest is what
remains when that many units are taken away. -/
def splitUnit (unit : Nat) (rest : Decimal) : Decimal × Decimal :=
  let unit := (Decimal.ofInt? unit).getD .zero
  let whole := ((rest.div? unit).getD .zero).trunc
  (whole, (rest.sub? ((whole.mul? unit).getD .zero)).getD .zero)

/-- A component of a duration literal, which is left out if it is zero. -/
def componentText (n : Decimal) (designator : String) : String :=
  if n.isZero then "" else n.toText ++ designator

/-- The literal of a number of seconds. -/
def dayTimeText (seconds : Decimal) : String :=
  if seconds.isZero then "PT0S"
  else
    let (days, rest) := splitUnit 86400 seconds.abs
    let (hours, rest) := splitUnit 3600 rest
    let (minutes, rest) := splitUnit 60 rest
    let clock :=
      componentText hours "H" ++ componentText minutes "M" ++ componentText rest "S"
    (if seconds.isNegative then "-P" else "P") ++ componentText days "D" ++
      if clock.isEmpty then "" else "T" ++ clock

end LazyXPath.Calendar
