import LazyXPath.Operator.Numeric

/-!
# Arithmetic on dates, times and durations

Points in time are compared and subtracted on the time line of universal time: a date stands for its
midnight, a time of day for that time on one fixed day, and a local time without an offset counts as
universal. Durations shift them. Months are added by the calendar, seconds on the time line, and a
time of day goes around the clock.
-/

namespace LazyXPath

open Calendar

/-- The kinds of points in time. -/
inductive TemporalKind where
  | dateTime
  | date
  | time
deriving DecidableEq, Inhabited

/-- The kind of a type of points in time. -/
def TemporalKind.ofType? (t : ItemType) : Option TemporalKind :=
  if t.isSubtypeOf .dateTime then some .dateTime
  else if t = .date then some .date
  else if t = .time then some .time
  else none

/-- The kinds of ordered durations. -/
inductive DurationKind where
  | yearMonth
  | dayTime
deriving DecidableEq, Inhabited

/-- The kind of a type of ordered durations. -/
def DurationKind.ofType? : ItemType → Option DurationKind
  | .yearMonthDuration => some .yearMonth
  | .dayTimeDuration => some .dayTime
  | _ => none

/-- The day on which times of day are compared. -/
def referenceDate : Date := ⟨1972, 12, 31, by decide, by decide, by decide⟩

namespace Atomic

/-- The complaint about an operand of the wrong type. -/
def unexpected {α : Type} (v : Atomic) : Except Error α := .error (.unexpectedOperand v.itemType)

/-- The point of universal time that a value stands for. -/
def universal (v : Atomic) : Except Error DateTime := do
  let (t, offset) ← match v with
    | dateTime t z => .ok (t, z)
    | date d z => .ok (⟨d, .midnight⟩, z)
    | time t z => .ok (⟨referenceDate, t⟩, z)
    | _ => v.unexpected
  match t.toUniversal? offset with
  | some u => .ok u
  | none => .error .dateTimeOutOfRange

/-- The number of months of a year-month duration. -/
def months (v : Atomic) : Except Error Int :=
  match v with
  | yearMonthDuration m => .ok m
  | _ => v.unexpected

/-- The number of seconds of a day-time duration. -/
def seconds (v : Atomic) : Except Error Decimal :=
  match v with
  | dayTimeDuration s => .ok s
  | _ => v.unexpected

/-- A date if there is one, an error otherwise. -/
def inCalendar {α : Type} : Option α → Except Error α
  | some a => .ok a
  | none => .error .dateTimeOutOfRange

/-- A number of months that has to be a signed 32-bit number. -/
def checkedMonths (m : Int) : Except Error Int :=
  if fitsInt m then .ok m else .error .durationOutOfRange

/-- A number of seconds if there is one, an error otherwise. -/
def checkedSeconds : Option Decimal → Except Error Decimal
  | some s => .ok s
  | none => .error .durationOutOfRange

/-- The point in time shifted by a number of months. -/
def shiftMonths (v : Atomic) (m : Int) : Except Error Atomic :=
  match v with
  | dateTime t z => return .dateTime (← inCalendar (t.addMonths? m)) z
  | date d z => return .date (← inCalendar (d.addMonths? m)) z
  | _ => v.unexpected

/-- The point in time shifted by a number of nanoseconds. -/
def shiftNanos (v : Atomic) (n : Int) : Except Error Atomic :=
  match v with
  | dateTime t z => return .dateTime (← inCalendar (t.shift? n)) z
  | date d z => do
    let t ← inCalendar ((⟨d, .midnight⟩ : DateTime).shift? n)
    return .date t.date z
  | time t z => .ok (.time (t.shift n) z)
  | _ => v.unexpected

/-- The point in time shifted by a duration, backward if asked. -/
def shift (v d : Atomic) (backward : Bool) : Except Error Atomic :=
  match d with
  | yearMonthDuration m => do
    v.shiftMonths (← if backward then checkedMonths (-m) else .ok m)
  | dayTimeDuration s => do
    v.shiftNanos (← inCalendar (nanosOfSeconds? (if backward then -s else s)))
  | _ => d.unexpected

/-- The time from `b` to `a`. -/
def difference (a b : Atomic) : Except Error Atomic := do
  let s ← a.universal
  let t ← b.universal
  return .dayTimeDuration (secondsOfNanos (s.instant - t.instant))

/-- A number by which a duration is multiplied or divided. -/
def factor (v : Atomic) : Except Error Float := do
  let x ← (← v.typed).promoteDouble
  if x.isNaN then .error .factorNotANumber else .ok x

/-- A number of months multiplied or divided by a factor, a half going up. -/
def scaledMonths (m : Int) (x : Float) (divide : Bool) : Except Error Int :=
  let m := Binary.ofInt m
  let scaled := if divide then m / x else m * x
  let rounded := (scaled + 0.5).floor
  match (Binary.datum rounded).trunc? with
  | some n => if n.natAbs < twoTo 31 then .ok n else .error .durationOutOfRange
  | none => .error .durationOutOfRange

/-- A number of seconds multiplied or divided by a factor. -/
def scaledSeconds (s : Decimal) (x : Float) (divide : Bool) : Except Error Decimal :=
  if x.isInf then if divide then .ok .zero else .error .durationOutOfRange
  else do
    let f ← checkedSeconds (Decimal.ofDouble? x)
    checkedSeconds (if divide then s.div? f else s.mul? f)

/-- The duration multiplied or divided by a number. -/
def scale (kind : DurationKind) (d n : Atomic) (divide : Bool) : Except Error Atomic := do
  let x ← n.factor
  if divide && x == 0.0 then .error .durationOutOfRange
  match kind with
  | .yearMonth => return .yearMonthDuration (← scaledMonths (← d.months) x divide)
  | .dayTime => return .dayTimeDuration (← scaledSeconds (← d.seconds) x divide)

/-- Whether a duration is zero. -/
def isZeroDuration : Atomic → Bool
  | yearMonthDuration m => m == 0
  | dayTimeDuration s => s.isZero
  | _ => false

end Atomic

end LazyXPath
