import LazyXPath.Calendar.Duration

/-!
# Date and time literals

Readers and writers of dates, times, points in time and the five kinds of recurring dates. A literal
may end in an offset: `Z`, or hours and minutes up to fourteen hours. Years have at least four digits
and no superfluous zeros in front; fractions of a second are truncated to nanoseconds; and
`24:00:00` is midnight of the next day.

A reader takes a text and gives a value with the rest of the text. A literal is read if nothing but
an offset is left (`withOffset`).
-/

namespace LazyXPath.Calendar

/-! ### Reading -/

/-- A reader takes a value from the front of a text. -/
abbrev Reader (α : Type) := List Char → Option (α × List Char)

/-- Reads exactly the given character. -/
def expect (c : Char) : List Char → Option (List Char)
  | [] => none
  | d :: rest => if d = c then some rest else none

/-- Reads exactly two digits. -/
def twoDigits : Reader Nat
  | a :: b :: rest =>
    if a.isDigit && b.isDigit then some (10 * digitValue a + digitValue b, rest) else none
  | _ => none

/-- Reads a year. -/
def readYear : Reader Int := fun cs => do
  let (negative, body) := match cs with
    | '-' :: rest => (true, rest)
    | _ => (false, cs)
  let digits := body.takeWhile Char.isDigit
  if digits.length < 4 || (4 < digits.length && digits.head? == some '0') then none
  let year := digitsValue digits
  if twoTo 31 ≤ year then none
  return (if negative then -(year : Int) else year, body.drop digits.length)

/-- Reads a fraction of a second, if there is one, as nanoseconds. -/
def readNanos : Reader Nat
  | '.' :: rest =>
    let digits := rest.takeWhile Char.isDigit
    if digits.isEmpty then none
    else
      let nanos := (digits ++ List.replicate 9 '0').take 9
      some (digitsValue nanos, rest.drop digits.length)
  | cs => some (0, cs)

/-- Reads an offset up to the end of the text; the offset is absent if nothing is left. -/
def readOffset? : List Char → Option (Option Offset)
  | [] => some none
  | ['Z'] => some (some ⟨0⟩)
  | sign :: rest => do
    let negative ← if sign = '+' then some false else if sign = '-' then some true else none
    let (hours, rest) ← twoDigits rest
    let rest ← expect ':' rest
    let (minutes, rest) ← twoDigits rest
    if 59 < minutes || 14 < hours || (hours == 14 && minutes != 0) || !rest.isEmpty then none
    let seconds : Int := (hours * 3600 + minutes * 60 : Nat)
    return some ⟨if negative then -seconds else seconds⟩

/-- Reads a value followed by an offset or by nothing. -/
def withOffset {α : Type} (reader : Reader α) (cs : List Char) : Option (α × Option Offset) := do
  let (value, rest) ← reader cs
  return (value, ← readOffset? rest)

/-- Reads year, month and day. -/
def readDate : Reader Date := fun cs => do
  let (year, cs) ← readYear cs
  let (month, cs) ← twoDigits (← expect '-' cs)
  let (day, cs) ← twoDigits (← expect '-' cs)
  return (← Date.ofParts? year month day, cs)

/-- Reads hour, minute and second, and says whether they are the end of the day. -/
def readTime : Reader (TimeOfDay × Bool) := fun cs => do
  let (hour, cs) ← twoDigits cs
  let (minute, cs) ← twoDigits (← expect ':' cs)
  let (second, cs) ← twoDigits (← expect ':' cs)
  let (nanos, cs) ← readNanos cs
  if hour == 24 && minute == 0 && second == 0 && nanos == 0 then
    return ((.midnight, true), cs)
  return ((← TimeOfDay.ofParts? hour minute second nanos, false), cs)

/-- Reads a date and a time. -/
def readDateTime : Reader DateTime := fun cs => do
  let (date, cs) ← readDate cs
  let ((time, endOfDay), cs) ← readTime (← expect 'T' cs)
  return (⟨← if endOfDay then date.next? else some date, time⟩, cs)

/-- Reads a month of a year. -/
def readYearAndMonth : Reader (Int × Nat) := fun cs => do
  let (year, cs) ← readYear cs
  let (month, cs) ← twoDigits (← expect '-' cs)
  if 1 ≤ month ∧ month ≤ 12 then some ((year, month), cs) else none

/-- Reads a month of any year. -/
def readMonth : Reader Nat := fun cs => do
  let (month, cs) ← twoDigits (← expect '-' (← expect '-' cs))
  if 1 ≤ month ∧ month ≤ 12 then some (month, cs) else none

/-- Reads a day of a month of any year. The twenty-ninth of February is one. -/
def readMonthAndDay : Reader (Nat × Nat) := fun cs => do
  let (month, cs) ← twoDigits (← expect '-' (← expect '-' cs))
  let (day, cs) ← twoDigits (← expect '-' cs)
  if (Date.ofParts? 2000 month day).isSome then some ((month, day), cs) else none

/-- Reads a day of any month. -/
def readDay : Reader Nat := fun cs => do
  let (day, cs) ← twoDigits (← expect '-' (← expect '-' (← expect '-' cs)))
  if 1 ≤ day ∧ day ≤ 31 then some (day, cs) else none

/-- Reads a date literal. -/
def dateOfText? : List Char → Option (Date × Option Offset) := withOffset readDate

/-- Reads a time literal. -/
def timeOfText? (cs : List Char) : Option (TimeOfDay × Option Offset) := do
  let ((time, _), offset) ← withOffset readTime cs
  return (time, offset)

/-- Reads a literal of a point in time. -/
def dateTimeOfText? : List Char → Option (DateTime × Option Offset) := withOffset readDateTime

/-! ### Writing -/

/-- A year, with a sign if it is negative. -/
def yearText (year : Int) : String := (if year < 0 then "-" else "") ++ padded 4 year.natAbs

/-- An offset; an absent one is not written. -/
def offsetText : Option Offset → String
  | none => ""
  | some offset =>
    if offset.seconds = 0 then "Z"
    else
      let n := offset.seconds.natAbs
      (if offset.seconds < 0 then "-" else "+") ++ padded 2 (n / 3600) ++ ":" ++
        padded 2 (n % 3600 / 60)

/-- The digits of a number of nanoseconds as a fraction, without trailing zeros. -/
def fractionDigits (nanos : Nat) : List Char :=
  ((padded 9 nanos).toList.reverse.dropWhile (· == '0')).reverse

/-- The second of a minute, with its fraction if there is one. -/
def secondText (second nanos : Nat) : String :=
  if nanos = 0 then padded 2 second
  else padded 2 second ++ "." ++ String.ofList (fractionDigits nanos)

/-- A date. -/
def dateText (d : Date) (offset : Option Offset) : String :=
  yearText d.year ++ "-" ++ padded 2 d.month ++ "-" ++ padded 2 d.day ++ offsetText offset

/-- A time of day. -/
def timeText (t : TimeOfDay) (offset : Option Offset) : String :=
  padded 2 t.hour ++ ":" ++ padded 2 t.minute ++ ":" ++ secondText t.second t.nanosecond ++
    offsetText offset

/-- A date and a time. -/
def dateTimeText (t : DateTime) (offset : Option Offset) : String :=
  dateText t.date none ++ "T" ++ timeText t.time offset

/-- A year with an offset. -/
def yearLiteral (year : Int) (offset : Option Offset) : String := yearText year ++ offsetText offset

/-- A month of a year. -/
def yearMonthLiteral (year : Int) (month : Nat) (offset : Option Offset) : String :=
  yearText year ++ "-" ++ padded 2 month ++ offsetText offset

/-- A month of any year. -/
def monthLiteral (month : Nat) (offset : Option Offset) : String :=
  "--" ++ padded 2 month ++ offsetText offset

/-- A day of a month of any year. -/
def monthDayLiteral (month day : Nat) (offset : Option Offset) : String :=
  "--" ++ padded 2 month ++ "-" ++ padded 2 day ++ offsetText offset

/-- A day of any month. -/
def dayLiteral (day : Nat) (offset : Option Offset) : String :=
  "---" ++ padded 2 day ++ offsetText offset

end LazyXPath.Calendar
