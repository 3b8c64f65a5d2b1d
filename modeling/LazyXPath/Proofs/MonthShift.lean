import LazyXPath.Proofs.TimeShift
import Mathlib.Tactic.IntervalCases

/-!
# Shifts by months

A date is a month, counted from the year zero, and a day of it. Days are counted on from month to month
(`Date.monthStart_succ`), so that dates are ordered by their month first and their day then
(`Date.dayNumber_le_iff`). A shift adds to the number of the month, and keeps the day as far as the month goes
(`Date.eq_of_addMonths?`).

Every law of shifts by months is read off these two facts: a shift is monotone, but it can be undone only if no
day was cut off, and two shifts in a row may cut off more than one shift does (`monthShift_laws`).
-/

namespace LazyXPath

open Calendar

namespace Calendar.Date

/-! ### The order of dates -/

/-- The number of days of the month with a number. -/
def monthLength (k : Int) : Nat := daysInMonth (k / 12) ((k % 12).toNat + 1)

/-- The day number of the first day of the month with a number. The months of the years that start with March
begin with the month 2. -/
def monthStart (k : Int) : Int :=
  let year := (k - 2) / 12
  365 * year + year / 4 - year / 100 + year / 400 + daysBefore ((k - 2) % 12).toNat

/-- Each month begins where the one before it ends. -/
theorem monthStart_succ (k : Int) : monthStart (k + 1) = monthStart k + monthLength k := by
  obtain ⟨year, month, hmonth, rfl⟩ : ∃ year month : Int, (0 ≤ month ∧ month < 12) ∧ k = 12 * year + month + 2 :=
    ⟨(k - 2) / 12, (k - 2) % 12, by omega, by omega⟩
  obtain hfebruary | hearlier : month = 11 ∨ month < 11 := by omega
  · subst hfebruary
    have hyear : (12 * year + 11 + 2) / 12 = year + 1 := by omega
    have hnext : (12 * year + 11 + 2 + 1 - 2) / 12 = year + 1 := by omega
    have hthis : (12 * year + 11 + 2 - 2) / 12 = year := by omega
    have hfirst : ((12 * year + 11 + 2 + 1 - 2) % 12).toNat = 0 := by omega
    have hlast : ((12 * year + 11 + 2 - 2) % 12).toNat = 11 := by omega
    have htwo : ((12 * year + 11 + 2) % 12).toNat + 1 = 2 := by omega
    rw [monthStart, monthStart, monthLength, hyear, hnext, hthis, hfirst, hlast, htwo, daysInMonth_february]
    unfold isLeapYear daysBefore
    split_ifs with hleap <;> simp at hleap <;> omega
  · have hnext : (12 * year + month + 2 + 1 - 2) / 12 = year := by omega
    have hthis : (12 * year + month + 2 - 2) / 12 = year := by omega
    have hlater : ((12 * year + month + 2 + 1 - 2) % 12).toNat = month.toNat + 1 := by omega
    have hmarch : ((12 * year + month + 2 - 2) % 12).toNat = month.toNat := by omega
    -- all these months are as long in every year
    have hlength : ∀ m < 11, ∀ y : Int,
        daysInMonth y ((if m < 10 then m + 2 else m - 10) + 1) = daysBefore (m + 1) - daysBefore m := by
      intro m hm y
      interval_cases m <;> rfl
    have hmonths : ((12 * year + month + 2) % 12).toNat =
        if month.toNat < 10 then month.toNat + 2 else month.toNat - 10 := by
      split_ifs <;> omega
    have hmono : daysBefore month.toNat ≤ daysBefore (month.toNat + 1) := by
      unfold daysBefore
      omega
    rw [monthStart, monthStart, monthLength, hnext, hthis, hlater, hmarch, hmonths, hlength _ (by omega)]
    omega

/-- Later months start later. -/
theorem monthStart_mono {k l : Int} (h : k ≤ l) : monthStart k ≤ monthStart l := by
  induction l, h using Int.leInduction with
  | base => exact Int.le_refl _
  | succ l _ ih =>
    rw [monthStart_succ]
    omega

section

variable {d e f g : Date} {m n : Int}

private theorem year_eq (d : Date) : d.year = d.monthNumber / 12 := by
  have := d.month_mem
  unfold monthNumber
  omega

private theorem month_eq (d : Date) : d.month = (d.monthNumber % 12).toNat + 1 := by
  have := d.month_mem
  unfold monthNumber
  omega

/-- A month has the same length in all its dates. -/
theorem daysInMonth_eq (d : Date) : daysInMonth d.year d.month = monthLength d.monthNumber := by
  rw [monthLength, ← d.year_eq, ← d.month_eq]

/-- A day of a date is one of its month. -/
theorem day_le_monthLength (d : Date) : d.day ≤ monthLength d.monthNumber := by
  rw [← daysInMonth_eq]
  exact d.day_mem.2

/-- A date is a day of its month. -/
theorem dayNumber_eq_monthStart (d : Date) : d.dayNumber = monthStart d.monthNumber + (d.day - 1 : Nat) := by
  have hmonth := d.month_mem
  have hyear : (d.monthNumber - 2) / 12 = d.marchYear := by
    unfold monthNumber marchYear
    split_ifs <;> omega
  have hmarch : ((d.monthNumber - 2) % 12).toNat = d.marchMonth := by
    unfold monthNumber marchMonth
    split_ifs <;> omega
  rw [dayNumber_eq, monthStart, hyear, hmarch]
  unfold dayOfYear
  omega

/-- Dates are ordered by their month, and within a month by their day. -/
theorem dayNumber_le_iff : d.dayNumber ≤ e.dayNumber ↔
    d.monthNumber < e.monthNumber ∨ d.monthNumber = e.monthNumber ∧ d.day ≤ e.day := by
  have later : ∀ {d e : Date}, d.monthNumber < e.monthNumber → d.dayNumber < e.dayNumber := by
    intro d e hlt
    have hstart := monthStart_mono (Int.add_one_le_iff.mpr hlt)
    have hday := d.day_le_monthLength
    have hpos := d.day_mem.1
    rw [monthStart_succ] at hstart
    rw [dayNumber_eq_monthStart, dayNumber_eq_monthStart]
    omega
  have hd := d.day_mem.1
  have he := e.day_mem.1
  obtain hlt | heq | hgt := Int.lt_trichotomy d.monthNumber e.monthNumber
  · exact iff_of_true (later hlt).le (.inl hlt)
  · rw [dayNumber_eq_monthStart, dayNumber_eq_monthStart, heq]
    omega
  · have := later hgt
    omega

/-- A date is its month and the day in it. -/
private theorem eq_iff_month_day : d = e ↔ d.monthNumber = e.monthNumber ∧ d.day = e.day := by
  constructor
  · rintro rfl
    exact ⟨rfl, rfl⟩
  · rintro ⟨hmonth, hday⟩
    rw [← Option.some_inj, ← d.ofParts?_self, ← e.ofParts?_self, d.year_eq, d.month_eq, e.year_eq, e.month_eq, hmonth,
      hday]

/-! ### Shifts of dates -/

/-- Whether the month with a number is in a year of the calendar. -/
def MonthInRange (k : Int) : Prop := firstYear ≤ k / 12 ∧ k / 12 ≤ lastYear

/-- The month of a date is in range. -/
private theorem monthInRange (d : Date) : MonthInRange d.monthNumber := by
  rw [MonthInRange, ← year_eq]
  exact d.year_mem

/-- A shift arrives so many months later, and keeps the day as far as that month goes. -/
theorem eq_of_addMonths? (h : d.addMonths? n = some e) :
    e.monthNumber = d.monthNumber + n ∧ e.day = min d.day (monthLength (d.monthNumber + n)) := by
  obtain ⟨hyear, hmonth, hday⟩ := eq_of_ofParts? h
  refine ⟨?_, hday⟩
  rw [monthNumber, hyear, hmonth]
  omega

/-- A shift moves the month and cuts the day off at its end. -/
private theorem addMonths?_eq_some_iff : d.addMonths? n = some e ↔
    e.monthNumber = d.monthNumber + n ∧ e.day = min d.day (monthLength (d.monthNumber + n)) := by
  refine ⟨eq_of_addMonths?, ?_⟩
  rintro ⟨hmonth, hday⟩
  have hself := e.ofParts?_self
  rwa [e.year_eq, e.month_eq, hmonth, hday] at hself

/-- Only the year can be out of range. -/
theorem exists_addMonths?_iff : (∃ e, d.addMonths? n = some e) ↔ MonthInRange (d.monthNumber + n) := by
  constructor
  · rintro ⟨e, he⟩
    rw [← (eq_of_addMonths? he).1]
    exact e.monthInRange
  · intro hrange
    have hlength : ∀ year month, 1 ≤ daysInMonth year month := by
      intro year month
      unfold daysInMonth
      repeat' split
      all_goals decide
    have hday := d.day_mem.1
    exact ⟨_, dif_pos ⟨hrange, by omega, Nat.le_min.mpr ⟨hday, hlength _ _⟩, Nat.min_le_right _ _⟩⟩

/-- A shift fails exactly if it leads out of the calendar. -/
private theorem addMonths?_eq_none_iff : d.addMonths? n = none ↔ ¬ MonthInRange (d.monthNumber + n) := by
  rw [← exists_addMonths?_iff, ← Option.isSome_iff_exists, Option.not_isSome_iff_eq_none]

/-- A shift keeps the order. -/
theorem dayNumber_le_of_addMonths? (hle : d.dayNumber ≤ e.dayNumber) (hf : d.addMonths? n = some f)
    (hg : e.addMonths? n = some g) : f.dayNumber ≤ g.dayNumber := by
  obtain ⟨hfmonth, hfday⟩ := eq_of_addMonths? hf
  obtain ⟨hgmonth, hgday⟩ := eq_of_addMonths? hg
  rw [dayNumber_le_iff, hfmonth, hgmonth, hfday, hgday]
  obtain hlt | ⟨heq, hday⟩ := dayNumber_le_iff.mp hle
  · exact .inl (by omega)
  · rw [heq]
    omega

/-- The way back leads to the same month, and to the same day unless that was cut off. -/
theorem addMonths?_back (he : d.addMonths? n = some e) (hf : e.addMonths? (-n) = some f) :
    f.dayNumber ≤ d.dayNumber ∧ (f = d ↔ d.day ≤ monthLength (d.monthNumber + n)) := by
  obtain ⟨hemonth, heday⟩ := eq_of_addMonths? he
  obtain ⟨hfmonth, hfday⟩ := eq_of_addMonths? hf
  have hback : f.monthNumber = d.monthNumber := by omega
  have hlength := d.day_le_monthLength
  rw [← hfmonth, hback, heday] at hfday
  rw [dayNumber_le_iff, eq_iff_month_day, hback, hfday]
  omega

/-- The way back stays in the calendar. -/
private theorem exists_addMonths?_back (he : d.addMonths? n = some e) : ∃ f, e.addMonths? (-n) = some f := by
  rw [exists_addMonths?_iff, (eq_of_addMonths? he).1, add_neg_cancel_right]
  exact d.monthInRange

/-- Two shifts arrive in the same month as one, and may cut off more. -/
theorem addMonths?_addMonths? (he : d.addMonths? m = some e) (hf : e.addMonths? n = some f)
    (hg : d.addMonths? (m + n) = some g) : f.dayNumber ≤ g.dayNumber ∧ f.monthNumber = g.monthNumber := by
  obtain ⟨hemonth, heday⟩ := eq_of_addMonths? he
  obtain ⟨hfmonth, hfday⟩ := eq_of_addMonths? hf
  obtain ⟨hgmonth, hgday⟩ := eq_of_addMonths? hg
  have hmonth : f.monthNumber = g.monthNumber := by omega
  rw [← hfmonth] at hfday
  rw [← hgmonth] at hgday
  rw [dayNumber_le_iff, hfday, hgday, hmonth, heday]
  omega

/-- So does the way in one step. -/
private theorem exists_addMonths?_add (he : d.addMonths? m = some e) (hf : e.addMonths? n = some f) :
    ∃ g, d.addMonths? (m + n) = some g := by
  rw [exists_addMonths?_iff, ← add_assoc, ← (eq_of_addMonths? he).1, ← (eq_of_addMonths? hf).1]
  exact f.monthInRange

/-- There are few months between two dates. -/
theorem fitsInt_of_addMonths? (he : d.addMonths? n = some e) : fitsInt n = true := by
  have hfirst := d.monthInRange
  have hlast := e.monthInRange
  rw [(eq_of_addMonths? he).1] at hlast
  unfold MonthInRange firstYear lastYear at hfirst hlast
  have hbounds : -2147483648 ≤ n ∧ n < 2147483648 := by omega
  simpa [fitsInt] using hbounds

end

end Calendar.Date

/-! ### Shifts of values -/

namespace Atomic

/-- The date of a date or of a date with a time. -/
def calendarDate? : Atomic → Option Date
  | dateTime t _ => some t.date
  | date d _ => some d
  | _ => none

/-- The same time of day with the same offset on another date. -/
def onDate (e : Date) : Atomic → Atomic
  | dateTime t z => dateTime ⟨e, t.time⟩ z
  | date _ z => date e z
  | v => v

variable {v : Atomic} {d : Date}

private theorem onDate_self (hv : v.calendarDate? = some d) : v.onDate d = v := by
  cases v with
  | dateTime | date =>
    obtain rfl := Option.some.inj hv
    rfl
  | _ => cases hv

/-- A value on another date is on that date. -/
private theorem calendarDate?_onDate (hv : v.calendarDate? = some d) (e : Date) :
    (v.onDate e).calendarDate? = some e := by
  cases v with
  | dateTime | date => rfl
  | _ => cases hv

private theorem onDate_onDate (v : Atomic) (e f : Date) : (v.onDate e).onDate f = v.onDate f := by
  cases v <;> rfl

private theorem onDate_inj (hv : v.calendarDate? = some d) {e f : Date} : v.onDate e = v.onDate f ↔ e = f := by
  constructor
  · intro h
    have hdate := calendarDate?_onDate hv e
    rw [h, calendarDate?_onDate hv] at hdate
    exact (Option.some.inj hdate).symm
  · rintro rfl
    rfl

/-- And is compared with the same values. -/
private theorem family?_onDate (v : Atomic) (e : Date) : (v.onDate e).family? = v.family? := by
  cases v <;> rfl

/-- On all dates the same time with the same offset is equally long after midnight. -/
theorem exists_instant?_onDate (hv : v.calendarDate? = some d) :
    ∃ rest : Int, ∀ e : Date, (v.onDate e).instant? = some (e.dayNumber * nanosPerDay + rest) := by
  cases v with
  | dateTime t z => exact ⟨t.time.nanos - offsetNanos z, fun e => congrArg some (add_sub_assoc _ _ _)⟩
  | date _ z => exact ⟨TimeOfDay.midnight.nanos - offsetNanos z, fun e => congrArg some (add_sub_assoc _ _ _)⟩
  | _ => cases hv

end Atomic

section

variable {α : Type} {o : Option Date} {g : Date → α} {r : α}

private theorem failsWith_error_iff {code : ErrorCode} {e : Error} :
    FailsWith code (.error e : Except Error α) ↔ e.code = code.name := by
  simp [FailsWith]

private theorem map_inCalendar_eq_ok_iff : (Atomic.inCalendar o).map g = .ok r ↔ ∃ e, o = some e ∧ r = g e := by
  cases o with
  | none => simp [Atomic.inCalendar, Except.map]
  | some e => simp [Atomic.inCalendar, Except.map, eq_comm]

private theorem exists_map_inCalendar_iff : (∃ r, (Atomic.inCalendar o).map g = .ok r) ↔ ∃ e, o = some e := by
  simp [map_inCalendar_eq_ok_iff]

private theorem failsWith_map_inCalendar_iff {code : ErrorCode} :
    FailsWith code ((Atomic.inCalendar o).map g) ↔ o = none ∧ ErrorCode.FODT0001.name = code.name := by
  cases o with
  | none => exact failsWith_error_iff.trans (and_iff_right rfl).symm
  | some e => simp [Atomic.inCalendar, Except.map, FailsWith]

end

/-- A point in time does not come after another one. Comparison says so too, unless one of them is out of the calendar
in universal time. -/
def OperatorCache.NotAfter (c : OperatorCache) (a b : Atomic) : Prop :=
  ∃ x y, a.instant? = some x ∧ b.instant? = some y ∧ x ≤ y ∧
    ((c.compare .le a b).1 = .ok true ∨
      (DateTime.ofInstant? x = none ∨ DateTime.ofInstant? y = none) ∧ FailsWith .FODT0001 (c.compare .le a b).1)

namespace OperatorCache.Coherent

variable {c : OperatorCache} (hc : c.Coherent) {v r s : Atomic} {d e f : Date} {z : Option Offset} {m n : Int}

include hc

/-- Of two values of a family, the one with the earlier instant is not after the other one. -/
private theorem notAfter_of_instant {a b : Atomic} {x y : Int} (hfamily : a.family? = b.family?)
    (ha : a.instant? = some x) (hb : b.instant? = some y) (hle : x ≤ y) : c.NotAfter a b := by
  refine ⟨x, y, ha, hb, hle, ?_⟩
  have horder := hc.compare_of_basis? (basis?_instants hfamily ha .le)
  rw [order_instants ha hb] at horder
  cases hx : DateTime.ofInstant? x with
  | some u =>
    cases hy : DateTime.ofInstant? y with
    | some w =>
      exact .inl ((hc.compare_instants hfamily ha hb hx hy .le).trans (congrArg Except.ok (decide_eq_true hle)))
    | none =>
      rw [hx, hy] at horder
      exact .inr ⟨.inr rfl, _, horder, rfl⟩
  | none =>
    rw [hx] at horder
    exact .inr ⟨.inl rfl, _, horder, rfl⟩

/-- Points at one time of day are ordered as their dates. -/
theorem notAfter_onDate (hv : v.calendarDate? = some d) (hle : e.dayNumber ≤ f.dayNumber) :
    c.NotAfter (v.onDate e) (v.onDate f) := by
  obtain ⟨rest, hrest⟩ := Atomic.exists_instant?_onDate hv
  refine hc.notAfter_of_instant (by rw [Atomic.family?_onDate, Atomic.family?_onDate]) (hrest e) (hrest f) ?_
  simp only [nanosPerDay, nanosPerSecond]
  omega

private theorem dayNumber_le_of_compare (h : (c.compare .le (.date d z) (.date e z)).1 = .ok true) :
    d.dayNumber ≤ e.dayNumber := by
  have hrel := (hc.comparedBy_instant (a := .date d z) (b := .date e z) rfl rfl rfl).relates h
  change d.dayNumber * nanosPerDay + _ - _ ≤ e.dayNumber * nanosPerDay + _ - _ at hrel
  simp only [nanosPerDay, nanosPerSecond] at hrel
  omega

/-- A shift by months is one of the date. -/
theorem arithmetic_months (hv : v.calendarDate? = some d) (backward : Bool) (m : Int) :
    (c.arithmetic (if backward then .sub else .add) v (.yearMonthDuration m)).1 =
      (if backward then Atomic.checkedMonths (-m) else .ok m) >>= fun n =>
        (Atomic.inCalendar (d.addMonths? n)).map v.onDate := by
  have happly : v.shift (.yearMonthDuration m) backward = (if backward then Atomic.checkedMonths (-m) else .ok m) >>=
      fun n => (Atomic.inCalendar (d.addMonths? n)).map v.onDate := by
    have hshift : ∀ n, v.shiftMonths n = (Atomic.inCalendar (d.addMonths? n)).map v.onDate := by
      intro n
      cases v with
      | dateTime t z =>
        obtain rfl := Option.some.inj hv
        rw [Atomic.shiftMonths, DateTime.addMonths?]
        cases t.date.addMonths? n <;> rfl
      | date e z =>
        obtain rfl := Option.some.inj hv
        rw [Atomic.shiftMonths]
        cases e.addMonths? n <;> rfl
      | _ => cases hv
    rw [← funext hshift]
    cases backward <;> rfl
  rw [← happly]
  refine hc.arithmetic_of_resolve (.shift backward) ?_
  cases v with
  | dateTime | date => cases backward <;> rfl
  | _ => cases hv

/-- A sum is the shifted date in place of the date, or out of the calendar. -/
private theorem add_months (hv : v.calendarDate? = some d) (m : Int) :
    (c.arithmetic .add v (.yearMonthDuration m)).1 = (Atomic.inCalendar (d.addMonths? m)).map v.onDate :=
  hc.arithmetic_months hv false m

/-- Months are taken away by adding the opposite number of them, if that can be negated. -/
theorem sub_months (hv : v.calendarDate? = some d) (m : Int) : (c.arithmetic .sub v (.yearMonthDuration m)).1 =
    if fitsInt (-m) then (Atomic.inCalendar (d.addMonths? (-m))).map v.onDate else .error .durationOutOfRange := by
  refine (hc.arithmetic_months hv true m).trans ?_
  rw [if_pos rfl, Atomic.checkedMonths]
  split_ifs <;> rfl

private theorem add_months_eq_iff (hv : v.calendarDate? = some d) :
    (c.arithmetic .add v (.yearMonthDuration m)).1 = .ok r ↔ ∃ e, d.addMonths? m = some e ∧ r = v.onDate e := by
  rw [hc.add_months hv, map_inCalendar_eq_ok_iff]

/-- A sum that is known is the shift of the date. -/
theorem addMonths?_of_add (hv : v.calendarDate? = some d)
    (h : (c.arithmetic .add v (.yearMonthDuration m)).1 = .ok (v.onDate e)) : d.addMonths? m = some e := by
  obtain ⟨f, hf, heq⟩ := (hc.add_months_eq_iff hv).mp h
  rwa [(Atomic.onDate_inj hv).mp heq]

/-- The way back always leads to a date. -/
theorem exists_sub_of_add (hv : v.calendarDate? = some d)
    (h : (c.arithmetic .add v (.yearMonthDuration m)).1 = .ok (v.onDate e)) (hm : fitsInt (-m)) :
    ∃ r, (c.arithmetic .sub (v.onDate e) (.yearMonthDuration m)).1 = .ok r ∧ c.NotAfter r v ∧
      (r = v ↔ d.day ≤ daysInMonth e.year e.month) := by
  have he := hc.addMonths?_of_add hv h
  obtain ⟨f, hf⟩ := Date.exists_addMonths?_back he
  obtain ⟨hle, hself⟩ := Date.addMonths?_back he hf
  have hback := hc.notAfter_onDate hv hle
  rw [Atomic.onDate_self hv] at hback
  refine ⟨v.onDate f, ?_, hback, ?_⟩
  · rw [hc.sub_months (Atomic.calendarDate?_onDate hv e), if_pos hm, hf, ← Atomic.onDate_onDate v e f]
    rfl
  · rw [e.daysInMonth_eq, (Date.eq_of_addMonths? he).1, ← hself, ← Atomic.onDate_inj hv,
      Atomic.onDate_self hv]

/-- Where two shifts lead in a row, the one by the sum of the counts leads as well. -/
theorem exists_add_of_add_add (hv : v.calendarDate? = some d)
    (he : (c.arithmetic .add v (.yearMonthDuration m)).1 = .ok (v.onDate e))
    (hf : (c.arithmetic .add (v.onDate e) (.yearMonthDuration n)).1 = .ok (v.onDate f)) :
    fitsInt (m + n) = true ∧ ∃ g, (c.arithmetic .add v (.yearMonthDuration (m + n))).1 = .ok (v.onDate g) ∧
      c.NotAfter (v.onDate f) (v.onDate g) ∧ f.monthNumber = g.monthNumber := by
  have he := hc.addMonths?_of_add hv he
  rw [← Atomic.onDate_onDate v e f] at hf
  have hf := hc.addMonths?_of_add (Atomic.calendarDate?_onDate hv e) hf
  obtain ⟨g, hg⟩ := Date.exists_addMonths?_add he hf
  obtain ⟨hle, hmonth⟩ := Date.addMonths?_addMonths? he hf hg
  exact ⟨Date.fitsInt_of_addMonths? hg, g, (hc.add_months_eq_iff hv).mpr ⟨g, hg, rfl⟩, hc.notAfter_onDate hv hle, hmonth⟩

/-- Adding months fails for the range of the years only. -/
theorem add_months_fails (hv : v.calendarDate? = some d) (m : Int) :
    let r := (c.arithmetic .add v (.yearMonthDuration m)).1
    ((∃ w, r = .ok w) ↔ Date.MonthInRange (d.monthNumber + m)) ∧
      (FailsWith .FODT0001 r ↔ ¬ Date.MonthInRange (d.monthNumber + m)) := by
  intro r
  have hr : r = (Atomic.inCalendar (d.addMonths? m)).map v.onDate := hc.add_months hv m
  rw [hr, exists_map_inCalendar_iff, Date.exists_addMonths?_iff, failsWith_map_inCalendar_iff,
    Date.addMonths?_eq_none_iff, and_iff_left rfl]
  exact ⟨Iff.rfl, Iff.rfl⟩

/-- Taking months away fails for the range of the years, or for that of the counts. -/
theorem sub_months_fails (hv : v.calendarDate? = some d) (m : Int) :
    let r := (c.arithmetic .sub v (.yearMonthDuration m)).1
    ((∃ w, r = .ok w) ↔ fitsInt (-m) ∧ Date.MonthInRange (d.monthNumber - m)) ∧
      (FailsWith .FODT0001 r ↔ fitsInt (-m) ∧ ¬ Date.MonthInRange (d.monthNumber - m)) ∧
      (FailsWith .FODT0002 r ↔ ¬ fitsInt (-m)) := by
  intro r
  have hcodes : ErrorCode.FODT0001.name ≠ ErrorCode.FODT0002.name := by decide
  by_cases hm : fitsInt (-m)
  · have hr : r = (Atomic.inCalendar (d.addMonths? (-m))).map v.onDate := (hc.sub_months hv m).trans (if_pos hm)
    rw [hr, exists_map_inCalendar_iff, Date.exists_addMonths?_iff, failsWith_map_inCalendar_iff,
      failsWith_map_inCalendar_iff, Date.addMonths?_eq_none_iff, and_iff_left rfl, ← sub_eq_add_neg]
    simp [hm, hcodes]
  · have hr : r = .error .durationOutOfRange := (hc.sub_months hv m).trans (if_neg hm)
    have hcode : Error.durationOutOfRange.code = ErrorCode.FODT0002.name := rfl
    rw [hr, failsWith_error_iff, failsWith_error_iff, hcode]
    simp [hm, hcodes.symm]

/-- Month counts are added, if the sum is a 32-bit number. -/
theorem add_monthCounts (m n : Int) : (c.arithmetic .add (.yearMonthDuration m) (.yearMonthDuration n)).1 =
    if fitsInt (m + n) then .ok (.yearMonthDuration (m + n)) else .error .durationOutOfRange := by
  refine (hc.arithmetic_of_resolve (.sum .yearMonth false) rfl).trans ?_
  change Atomic.checkedMonths (m + n) >>= (fun k => pure (Atomic.yearMonthDuration k)) = _
  rw [Atomic.checkedMonths]
  split_ifs <;> rfl

end OperatorCache.Coherent

/-- **Months are added by the calendar.** For a date, or a date with a time, with the date `d`:

* The sum with `m` months is on the day of `d` in the month `m` months later, or on the last day of that month if it is
  shorter. The time of day and the offset stay.
* To take `m` months away is to add `-m`.
* Dates with one offset stay in their order.
* The way back always leads to a date, which is not after `d`, and is `d` if and only if the month in between has
  that day.
* Two shifts arrive in the same month as the one by the sum of the counts, and not after it.
* A shift fails if the year that it leads to is out of range, with `FODT0001`, or if the count has to be negated and
  its opposite is not a 32-bit number, with `FODT0002`, and never else. -/
theorem monthShift_laws {c : OperatorCache} (hc : c.Coherent) {v : Atomic} {d : Date}
    (hv : v.calendarDate? = some d) :
    let plus (a : Atomic) (m : Int) := (c.arithmetic .add a (.yearMonthDuration m)).1
    let minus (a : Atomic) (m : Int) := (c.arithmetic .sub a (.yearMonthDuration m)).1
    (∀ {m r}, plus v m = .ok r → ∃ e, r = v.onDate e ∧ e.monthNumber = d.monthNumber + m ∧
      e.day = min d.day (daysInMonth e.year e.month)) ∧
    (∀ {m}, fitsInt (-m) → minus v m = plus v (-m)) ∧
    (∀ {d₁ d₂ z m r₁ r₂}, (c.compare .le (.date d₁ z) (.date d₂ z)).1 = .ok true → plus (.date d₁ z) m = .ok r₁ →
      plus (.date d₂ z) m = .ok r₂ → c.NotAfter r₁ r₂) ∧
    (∀ {m e}, plus v m = .ok (v.onDate e) → fitsInt (-m) → ∃ r, minus (v.onDate e) m = .ok r ∧ c.NotAfter r v ∧
      (r = v ↔ d.day ≤ daysInMonth e.year e.month)) ∧
    (∀ {m n e f}, plus v m = .ok (v.onDate e) → plus (v.onDate e) n = .ok (v.onDate f) →
      (c.arithmetic .add (.yearMonthDuration m) (.yearMonthDuration n)).1 = .ok (.yearMonthDuration (m + n)) ∧
      ∃ g, plus v (m + n) = .ok (v.onDate g) ∧ c.NotAfter (v.onDate f) (v.onDate g) ∧ f.year = g.year ∧
        f.month = g.month) ∧
    ∀ m,
      ((∃ r, plus v m = .ok r) ↔ Date.MonthInRange (d.monthNumber + m)) ∧
      (FailsWith .FODT0001 (plus v m) ↔ ¬ Date.MonthInRange (d.monthNumber + m)) ∧
      ((∃ r, minus v m = .ok r) ↔ fitsInt (-m) ∧ Date.MonthInRange (d.monthNumber - m)) ∧
      (FailsWith .FODT0001 (minus v m) ↔ fitsInt (-m) ∧ ¬ Date.MonthInRange (d.monthNumber - m)) ∧
      (FailsWith .FODT0002 (minus v m) ↔ ¬ fitsInt (-m)) := by
  intro plus minus
  refine ⟨fun {m r} h => ?_, fun {m} hm => ?_, fun {d₁ d₂ z m r₁ r₂} hle h₁ h₂ => ?_,
    fun h hm => hc.exists_sub_of_add hv h hm, fun {m n e f} he hf => ?_, fun m => ?_⟩
  · obtain ⟨e, he, rfl⟩ := (hc.add_months_eq_iff hv).mp h
    obtain ⟨hmonth, hday⟩ := Date.eq_of_addMonths? he
    exact ⟨e, rfl, hmonth, by rw [e.daysInMonth_eq, hmonth, hday]⟩
  · exact (hc.sub_months hv m).trans ((if_pos hm).trans (hc.add_months hv (-m)).symm)
  · obtain ⟨e₁, he₁, rfl⟩ := (hc.add_months_eq_iff rfl).mp h₁
    obtain ⟨e₂, he₂, rfl⟩ := (hc.add_months_eq_iff rfl).mp h₂
    exact hc.notAfter_onDate (v := .date d₁ z) rfl
      (Date.dayNumber_le_of_addMonths? (hc.dayNumber_le_of_compare hle) he₁ he₂)
  · obtain ⟨hcount, g, hg, hle, hmonth⟩ := hc.exists_add_of_add_add hv he hf
    refine ⟨(hc.add_monthCounts m n).trans (if_pos hcount), g, hg, hle, ?_, ?_⟩
    · rw [f.year_eq, g.year_eq, hmonth]
    · rw [f.month_eq, g.month_eq, hmonth]
  · obtain ⟨hsum, hout⟩ := hc.add_months_fails hv m
    exact ⟨hsum, hout, hc.sub_months_fails hv m⟩

/-- A month after the last day of January is the leap day, and a month before that is two days earlier. The least
count of months cannot be taken away. -/
theorem monthShift_laws_leapDay :
    let january : Date := ⟨2020, 1, 31, by decide, by decide, by decide⟩
    let february : Date := ⟨2020, 2, 29, by decide, by decide, by decide⟩
    let v : Atomic := .dateTime ⟨january, .midnight⟩ (some ⟨3600⟩)
    v.calendarDate? = some january ∧
    (OperatorCache.empty.arithmetic .add v (.yearMonthDuration 1)).1 = .ok (v.onDate february) ∧
    (∃ r, (OperatorCache.empty.arithmetic .sub (v.onDate february) (.yearMonthDuration 1)).1 = .ok r ∧
      OperatorCache.empty.NotAfter r v ∧ r ≠ v) ∧
    FailsWith .FODT0002 (OperatorCache.empty.arithmetic .sub v (.yearMonthDuration (-2 ^ 31))).1 := by
  intro january february v
  have hc := OperatorCache.Holds.empty.coherent
  have hadd : (OperatorCache.empty.arithmetic .add v (.yearMonthDuration 1)).1 = .ok (v.onDate february) := by
    rw [hc.add_months (v := v) (d := january) rfl,
      (Date.addMonths?_eq_some_iff (e := february)).mpr ⟨by decide, by decide⟩]
    rfl
  obtain ⟨-, -, -, hback, -, hrange⟩ := monthShift_laws hc (v := v) (d := january) rfl
  obtain ⟨r, hr, hle, hself⟩ := hback hadd (by decide)
  exact ⟨rfl, hadd, ⟨r, hr, hle, fun h => absurd (hself.mp h) (by decide)⟩, (hrange _).2.2.2.2.mpr (by decide)⟩

end LazyXPath
