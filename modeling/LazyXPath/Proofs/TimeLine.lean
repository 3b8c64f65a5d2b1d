import LazyXPath.Proofs.RoundTrip.Calendar
import Mathlib.Tactic.ByContra
import Mathlib.Tactic.SplitIfs

/-!
# The time line

Day numbers make the dates a segment of the integers: a date is found again by its number
(`Date.ofDayNumber?_dayNumber`), and a date that is found for a number has that number
(`Date.dayNumber_of_ofDayNumber?`). Instants do the same for dates with a time
(`DateTime.ofInstant?_eq_some_iff`). So a shift moves the instant by exactly the distance that it is asked for, and
so does the step to universal time.

The calendar is searched from the first of March of the year zero on, in eras of 400 years. What the search
rests on is that the year of a day within an era can be read off by one division (`Date.yearOfEra_eq_iff`),
and the month of a day within a year by another.
-/

namespace LazyXPath.Calendar

namespace Date

/-! ### Years of an era -/

/-- The number of days of an era before the given year, for years that start with March. -/
def daysBeforeYear (year : Nat) : Nat := 365 * year + year / 4 - year / 100 + year / 400

/-- The year in which a day of an era falls. -/
def yearOfEra (day : Nat) : Nat := (day - day / 1460 + day / 36524 - day / 146096) / 365

section

variable {n k y : Nat}

private theorem yearOfEra_mono (hn : n ≤ k) (hk : k < 146097) : yearOfEra n ≤ yearOfEra k := by
  have hfour : n - n / 1460 ≤ k - k / 1460 := by omega
  refine Nat.div_le_div_right ?_
  omega

private theorem yearOfEra_lt (hn : n < 146097) : yearOfEra n < 400 := by
  unfold yearOfEra
  omega

private theorem daysBeforeYear_le (hy : y ≤ 400) : daysBeforeYear y ≤ 146097 := by
  unfold daysBeforeYear
  omega

/-- The first and the last day of each year are found in that year. -/
theorem yearOfEra_bounds : ∀ y < 400, yearOfEra (daysBeforeYear y) = y ∧
    yearOfEra (daysBeforeYear (y + 1) - 1) = y := by
  decide +kernel

/-- The year of a day is the one between whose first days it lies. -/
theorem yearOfEra_eq_iff (hn : n < 146097) (hy : y < 400) :
    yearOfEra n = y ↔ daysBeforeYear y ≤ n ∧ n < daysBeforeYear (y + 1) := by
  constructor
  · rintro rfl
    constructor
    · by_contra hlt
      -- otherwise the day is not after the last one of the year before
      have hpos : 0 < yearOfEra n := Nat.pos_of_ne_zero fun h0 => hlt (by rw [h0]; exact Nat.zero_le n)
      have hbefore := (yearOfEra_bounds (yearOfEra n - 1) (by omega)).2
      rw [Nat.sub_add_cancel hpos] at hbefore
      have hera := daysBeforeYear_le (y := yearOfEra n) (by omega)
      have hmono := yearOfEra_mono (n := n) (k := daysBeforeYear (yearOfEra n) - 1) (by omega) (by omega)
      omega
    · by_contra hge
      obtain hlater | hlastYear : yearOfEra n + 1 < 400 ∨ yearOfEra n + 1 = 400 := by omega
      · have hafter := (yearOfEra_bounds (yearOfEra n + 1) hlater).1
        have hmono := yearOfEra_mono (n := daysBeforeYear (yearOfEra n + 1)) (k := n) (by omega) hn
        omega
      · rw [hlastYear] at hge
        exact hge hn
  · rintro ⟨hle, hlt⟩
    obtain ⟨hfirst, hlast⟩ := yearOfEra_bounds y hy
    have hera := daysBeforeYear_le (y := y + 1) hy
    have hlow := yearOfEra_mono hle hn
    have hhigh := yearOfEra_mono (n := n) (k := daysBeforeYear (y + 1) - 1) (by omega) (by omega)
    omega

end

/-! ### Days of a year -/

/-- The month of a day of a year that starts with March. -/
def monthOfYear (day : Nat) : Nat := (5 * day + 2) / 153

private theorem monthOfYear_eq_iff {n m : Nat} : monthOfYear n = m ↔ daysBefore m ≤ n ∧ n < daysBefore (m + 1) := by
  unfold monthOfYear daysBefore
  omega

/-- The year to which a date belongs, if years start with March. -/
def marchYear (d : Date) : Int := if d.month ≤ 2 then d.year - 1 else d.year

/-- The month of a year that starts with March, counted from zero. -/
def marchMonth (d : Date) : Nat := if d.month ≤ 2 then d.month + 9 else d.month - 3

/-- The number of days from the first of March before a date. -/
def dayOfYear (d : Date) : Nat := daysBefore d.marchMonth + (d.day - 1)

theorem dayNumber_eq (d : Date) : d.dayNumber =
    365 * d.marchYear + d.marchYear / 4 - d.marchYear / 100 + d.marchYear / 400 + d.dayOfYear := rfl

theorem daysInMonth_february (year : Int) : daysInMonth year 2 = if isLeapYear year then 29 else 28 := rfl

/-- In a leap year no month is shorter than in another year. -/
theorem daysInMonth_le_leap (year : Int) (month : Nat) : daysInMonth year month ≤ daysInMonth 2000 month := by
  unfold daysInMonth
  split
  · split <;> decide
  · exact Nat.le_refl _
  · exact Nat.le_refl _
  · exact Nat.le_refl _
  · exact Nat.le_refl _
  · exact Nat.le_refl _

/-- Months are no longer than the distance of their beginnings. -/
theorem daysBefore_add_daysInMonth_le (d : Date) :
    daysBefore d.marchMonth + daysInMonth d.year d.month ≤ daysBefore (d.marchMonth + 1) := by
  have htable : ∀ month < 13, 1 ≤ month →
      daysBefore (if month ≤ 2 then month + 9 else month - 3) + daysInMonth 2000 month ≤
        daysBefore ((if month ≤ 2 then month + 9 else month - 3) + 1) := by decide
  obtain ⟨hm, hm'⟩ := d.month_mem
  exact (Nat.add_le_add_left (daysInMonth_le_leap _ _) _).trans (htable d.month (by omega) hm)

private theorem monthOfYear_dayOfYear (d : Date) : monthOfYear d.dayOfYear = d.marchMonth := by
  have hday := d.day_mem
  have hlength := d.daysBefore_add_daysInMonth_le
  rw [monthOfYear_eq_iff]
  unfold dayOfYear
  omega

/-- A year is as long as the distance of the beginnings of its era's years. -/
theorem dayOfYear_lt (d : Date) : daysBeforeYear (d.marchYear % 400).toNat + d.dayOfYear <
    daysBeforeYear ((d.marchYear % 400).toNat + 1) := by
  have hmonth := monthOfYear_eq_iff.mp d.monthOfYear_dayOfYear
  obtain ⟨year, month, day, hy, hm, hd⟩ := d
  dsimp only [marchYear, marchMonth, dayOfYear] at hmonth ⊢
  by_cases hfeb : month = 2
  · subst hfeb
    rw [daysInMonth_february] at hd
    unfold isLeapYear at hd
    unfold daysBeforeYear daysBefore
    simp only [Nat.le_refl, if_true]
    split_ifs at hd with hleap <;> simp at hleap <;> omega
  · have hlast : daysBefore ((if month ≤ 2 then month + 9 else month - 3) + 1) ≤ 337 := by
      unfold daysBefore
      split_ifs <;> omega
    have hlength : ∀ y : Nat, daysBeforeYear y + 365 ≤ daysBeforeYear (y + 1) := fun y => by
      unfold daysBeforeYear
      omega
    exact (Nat.add_lt_add_left (by omega) _).trans_le (hlength _)

/-! ### Dates and their numbers -/

/-- The days before a year of any era. -/
theorem daysBefore_era (era : Int) (year : Nat) :
    365 * (400 * era + year) + (400 * era + year) / 4 - (400 * era + year) / 100 + (400 * era + year) / 400 =
      146097 * era + (daysBeforeYear year : Nat) := by
  have hfour : (400 * era + year) / 4 = 100 * era + (year / 4 : Nat) := by omega
  have hhundred : (400 * era + year) / 100 = 4 * era + (year / 100 : Nat) := by omega
  have hera : (400 * era + year) / 400 = era + (year / 400 : Nat) := by omega
  rw [hfour, hhundred, hera]
  unfold daysBeforeYear
  omega

/-- The search for a date, by era, year and month. -/
theorem ofDayNumber?_eq (n : Int) : ofDayNumber? n =
    let year := yearOfEra (n % 146097).toNat
    let day := (n % 146097).toNat - daysBeforeYear year
    let month := monthOfYear day
    if month < 10 then ofParts? (400 * (n / 146097) + year) (month + 3) (day - daysBefore month + 1)
    else ofParts? (400 * (n / 146097) + year + 1) (month - 9) (day - daysBefore month + 1) := by
  have hyear : yearOfEra (n % 146097).toNat / 400 = 0 := by
    have := yearOfEra_lt (n := (n % 146097).toNat) (by omega)
    omega
  unfold daysBeforeYear
  dsimp only
  rw [hyear, Nat.add_zero]
  rfl

theorem eq_of_ofParts? {year : Int} {month day : Nat} {d : Date} (h : ofParts? year month day = some d) :
    d.year = year ∧ d.month = month ∧ d.day = day := by
  unfold ofParts? at h
  split at h
  · cases h
    exact ⟨rfl, rfl, rfl⟩
  · cases h

/-- The date that is found for a number has that number. -/
theorem dayNumber_of_ofDayNumber? {n : Int} {d : Date} (h : ofDayNumber? n = some d) : d.dayNumber = n := by
  rw [ofDayNumber?_eq] at h
  dsimp only at h
  obtain ⟨x, hx⟩ : ∃ x : Nat, n % 146097 = x := ⟨(n % 146097).toNat, by omega⟩
  rw [hx, Int.toNat_natCast] at h
  -- the day of the era is so many years, so many months and so many days
  obtain ⟨y, hy⟩ : ∃ y, yearOfEra x = y := ⟨_, rfl⟩
  have hylt : y < 400 := hy ▸ yearOfEra_lt (by omega)
  obtain ⟨hfirst, hnext⟩ := (yearOfEra_eq_iff (by omega) hylt).mp hy
  obtain ⟨z, rfl⟩ := Nat.exists_eq_add_of_le hfirst
  obtain ⟨m, hm⟩ : ∃ m, monthOfYear z = m := ⟨_, rfl⟩
  obtain ⟨w, rfl⟩ := Nat.exists_eq_add_of_le (monthOfYear_eq_iff.mp hm).1
  have hmlt : m ≤ 11 := by
    unfold daysBeforeYear at hnext
    unfold monthOfYear at hm
    omega
  rw [hy, Nat.add_sub_cancel_left, hm, Nat.add_sub_cancel_left] at h
  have hnumber := daysBefore_era (n / 146097) y
  split at h
  all_goals
    obtain ⟨hyear, hmonth, hday⟩ := eq_of_ofParts? h
    rw [dayNumber_eq]
    unfold marchYear dayOfYear marchMonth
    rw [hyear, hmonth, hday, Nat.add_sub_cancel]
  · rw [if_neg (by omega), if_neg (by omega), Nat.add_sub_cancel, hnumber]
    omega
  · rw [if_pos (by omega), if_pos (by omega), Nat.sub_add_cancel (by omega), Int.add_sub_cancel, hnumber]
    omega

/-- A date is found by its number. -/
theorem ofDayNumber?_dayNumber (d : Date) : ofDayNumber? d.dayNumber = some d := by
  have hlt := d.dayOfYear_lt
  have hmonth := d.monthOfYear_dayOfYear
  rw [ofDayNumber?_eq]
  dsimp only
  obtain ⟨y, hy⟩ : ∃ y : Nat, d.marchYear % 400 = y := ⟨(d.marchYear % 400).toNat, by omega⟩
  rw [hy, Int.toNat_natCast] at hlt
  have hylt : y < 400 := by omega
  have hlast := daysBeforeYear_le (y := y + 1) hylt
  have hnumber : d.dayNumber = 146097 * (d.marchYear / 400) + (daysBeforeYear y + d.dayOfYear : Nat) := by
    have hyear : d.marchYear = 400 * (d.marchYear / 400) + y := by omega
    rw [dayNumber_eq, Int.natCast_add, ← Int.add_assoc, ← daysBefore_era, ← hyear]
  have hera : d.dayNumber / 146097 = d.marchYear / 400 := by omega
  have hday : d.dayNumber % 146097 = (daysBeforeYear y + d.dayOfYear : Nat) := by omega
  have hyear : yearOfEra (daysBeforeYear y + d.dayOfYear) = y :=
    (yearOfEra_eq_iff (by omega) hylt).mpr ⟨Nat.le_add_right _ _, hlt⟩
  rw [hera, hday, Int.toNat_natCast, hyear, Nat.add_sub_cancel_left, hmonth]
  have hself := d.ofParts?_self
  have hrest : d.dayOfYear - daysBefore d.marchMonth + 1 = d.day := by
    have := d.day_mem.1
    unfold dayOfYear
    omega
  have hmarch : 400 * (d.marchYear / 400) + y = d.marchYear := by omega
  have hrange := d.month_mem
  rw [hrest, hmarch]
  unfold marchMonth marchYear
  by_cases hearly : d.month ≤ 2
  · rw [if_pos hearly, if_pos hearly, if_neg (by omega), Nat.add_sub_cancel, Int.sub_add_cancel, hself]
  · rw [if_neg hearly, if_neg hearly, if_pos (by omega), Nat.sub_add_cancel (by omega), hself]

theorem ofDayNumber?_eq_some_iff {n : Int} {d : Date} : ofDayNumber? n = some d ↔ d.dayNumber = n :=
  ⟨dayNumber_of_ofDayNumber?, fun h => h ▸ d.ofDayNumber?_dayNumber⟩

end Date

/-! ### Instants -/

theorem TimeOfDay.ofInstant_eq_iff {n : Int} {t : TimeOfDay} : ofInstant n = t ↔ n % nanosPerDay = t.nanos := by
  have hpos : 0 ≤ n % nanosPerDay := Int.emod_nonneg n (by decide)
  obtain ⟨nanos, hlt⟩ := t
  rw [ofInstant, mk.injEq]
  dsimp only
  omega

/-- The distance of a local time from universal time in nanoseconds; a local time without an offset counts as
universal. -/
def offsetNanos : Option Offset → Int
  | none => 0
  | some offset => offset.seconds * nanosPerSecond

namespace DateTime

variable {t u : DateTime} {n : Int}

/-- A point of the time line is found by its instant, and only there. -/
theorem ofInstant?_eq_some_iff : ofInstant? n = some t ↔ t.instant = n := by
  obtain ⟨date, time⟩ := t
  have hlt := time.nanos_lt
  have hsplit := Int.mul_ediv_add_emod n nanosPerDay
  have hfound : ofInstant? n = some ⟨date, time⟩ ↔
      Date.ofDayNumber? (n / nanosPerDay) = some date ∧ TimeOfDay.ofInstant n = time := by
    rw [ofInstant?, Option.map_eq_some_iff]
    simp only [mk.injEq]
    exact ⟨fun ⟨d, hd, heq, htime⟩ => ⟨heq ▸ hd, htime⟩, fun ⟨hd, htime⟩ => ⟨date, hd, rfl, htime⟩⟩
  rw [hfound, Date.ofDayNumber?_eq_some_iff, TimeOfDay.ofInstant_eq_iff, instant]
  constructor
  · rintro ⟨hdate, htime⟩
    rw [hdate, ← htime, Int.mul_comm]
    exact hsplit
  · rintro rfl
    have hpos : (0 : Int) < nanosPerDay := by decide
    dsimp only
    refine ⟨?_, ?_⟩
    · rw [Int.add_comm, Int.add_mul_ediv_right _ _ hpos.ne', Int.ediv_eq_zero_of_lt (by omega) (by omega),
        Int.zero_add]
    · rw [Int.add_comm, Int.add_mul_emod_self_right, Int.emod_eq_of_lt (by omega) (by omega)]

theorem ofInstant?_instant (t : DateTime) : ofInstant? t.instant = some t := ofInstant?_eq_some_iff.mpr rfl

/-- A shift moves the instant by the given distance. -/
theorem shift?_eq_some_iff : t.shift? n = some u ↔ u.instant = t.instant + n := ofInstant?_eq_some_iff

/-- The point in universal time is found by its instant. -/
theorem toUniversal?_eq (t : DateTime) (z : Option Offset) :
    t.toUniversal? z = ofInstant? (t.instant - offsetNanos z) := by
  cases z with
  | none => rw [offsetNanos, Int.sub_zero, ofInstant?_instant, toUniversal?]
  | some offset => rw [toUniversal?, shift?, Int.neg_mul, ← Int.sub_eq_add_neg, offsetNanos]

/-- The time line ends within ten to the power of 22 nanoseconds. -/
theorem natAbs_instant_lt (t : DateTime) : t.instant.natAbs < 10 ^ 22 := by
  obtain ⟨date, time⟩ := t
  have htime := time.nanos_lt
  have hyear := date.year_mem
  have hday := date.dayOfYear_lt
  have hmarch : date.year - 1 ≤ date.marchYear ∧ date.marchYear ≤ date.year := by
    unfold Date.marchYear
    split_ifs <;> omega
  have hlength : date.dayOfYear < 366 := by
    unfold Date.daysBeforeYear at hday
    omega
  rw [instant, Date.dayNumber_eq]
  dsimp only [nanosPerDay, nanosPerSecond, firstYear, lastYear] at htime hyear ⊢
  omega

end DateTime

end LazyXPath.Calendar
