import LazyXPath.Calendar.Date

/-!
# Times of day and the time line

A time of day is a number of nanoseconds since midnight; there are no leap seconds. A **date and
time** is a point of the time line, and `DateTime.instant` counts its nanoseconds. An **offset** is the
distance of a local time from universal time in seconds.
-/

namespace LazyXPath.Calendar

/-- Nanoseconds of a second. -/
abbrev nanosPerSecond : Nat := 1000000000

/-- Nanoseconds of a day. -/
abbrev nanosPerDay : Nat := 86400 * nanosPerSecond

/-- A time of day. -/
structure TimeOfDay where
  nanos : Nat
  nanos_lt : nanos < nanosPerDay
deriving DecidableEq

namespace TimeOfDay

/-- The beginning of the day. -/
def midnight : TimeOfDay := ⟨0, by decide⟩

instance : Inhabited TimeOfDay := ⟨midnight⟩

/-- The time with the given hour, minute, second and nanoseconds, if there is one. -/
def ofParts? (hour minute second nanos : Nat) : Option TimeOfDay :=
  if h : hour < 24 ∧ minute < 60 ∧ second < 60 ∧ nanos < nanosPerSecond then
    some ⟨((hour * 60 + minute) * 60 + second) * nanosPerSecond + nanos, by
      simp only [nanosPerDay, nanosPerSecond] at *; omega⟩
  else none

/-- The hour. -/
def hour (t : TimeOfDay) : Nat := t.nanos / nanosPerSecond / 3600

/-- The minute of the hour. -/
def minute (t : TimeOfDay) : Nat := t.nanos / nanosPerSecond / 60 % 60

/-- The second of the minute. -/
def second (t : TimeOfDay) : Nat := t.nanos / nanosPerSecond % 60

/-- The nanosecond of the second. -/
def nanosecond (t : TimeOfDay) : Nat := t.nanos % nanosPerSecond

/-- The time at which an instant falls. -/
def ofInstant (n : Int) : TimeOfDay :=
  ⟨(n % nanosPerDay).toNat, by simp only [nanosPerDay, nanosPerSecond]; omega⟩

/-- The time a number of nanoseconds later, past midnight if need be. -/
def shift (t : TimeOfDay) (n : Int) : TimeOfDay := ofInstant (t.nanos + n)

end TimeOfDay

/-- The distance of a local time from universal time. -/
structure Offset where
  seconds : Int
deriving DecidableEq, Inhabited

/-- The offset of the given number of seconds, if it is shorter than a day. -/
def Offset.ofSeconds? (s : Int) : Option Offset := if s.natAbs < 86400 then some ⟨s⟩ else none

/-- A date and a time of day. -/
structure DateTime where
  date : Date
  time : TimeOfDay
deriving DecidableEq, Inhabited

namespace DateTime

/-- The position on the time line, in nanoseconds. -/
def instant (t : DateTime) : Int := t.date.dayNumber * nanosPerDay + t.time.nanos

/-- The point with the given position, if its date is in range. -/
def ofInstant? (n : Int) : Option DateTime :=
  (Date.ofDayNumber? (n / nanosPerDay)).map (⟨·, TimeOfDay.ofInstant n⟩)

/-- The point a number of nanoseconds later. -/
def shift? (t : DateTime) (n : Int) : Option DateTime := ofInstant? (t.instant + n)

/-- The point a number of months later, at the same time of day. -/
def addMonths? (t : DateTime) (n : Int) : Option DateTime :=
  (t.date.addMonths? n).map (⟨·, t.time⟩)

/-- The point in universal time; a local time without an offset counts as universal. -/
def toUniversal? (t : DateTime) : Option Offset → Option DateTime
  | none => some t
  | some offset => t.shift? (-offset.seconds * nanosPerSecond)

end DateTime

end LazyXPath.Calendar
