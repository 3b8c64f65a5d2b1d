import LazyXPath.Proofs.Decimal.Nanoseconds
import LazyXPath.Proofs.ValueOrder

/-!
# Differences and shifts

The difference of two points in time is taken on the time line of universal time and given in seconds, and a shift
turns seconds into nanoseconds again and moves the local time. Both steps are exact: a difference is never too long
for a decimal or for a shift, and the offset of the shifted value cancels. So a point in time shifted by the distance
of another one from it is that other one, and a shift can be undone (`difference_shift`).
-/

namespace LazyXPath

open Calendar

/-! ### Distances -/

section

variable {a b d : Atomic} {x y : Int}

/-- Every shift fits into a decimal. -/
theorem longestShift_lt_limit : longestShift < Decimal.limit := by decide

private theorem nanosOfSeconds?_secondsOfNanos {n : Int} (hn : n.natAbs ≤ longestShift) :
    nanosOfSeconds? (secondsOfNanos n) = some n := by
  rw [nanosOfSeconds?_eq (value_secondsOfNanos (hn.trans_lt longestShift_lt_limit)), if_pos hn]

private theorem difference_eq (ha : a.instant? = some x) (hb : b.instant? = some y) : a.difference b =
    Atomic.inCalendar (DateTime.ofInstant? x) >>= fun u => Atomic.inCalendar (DateTime.ofInstant? y) >>= fun v =>
      pure (.dayTimeDuration (secondsOfNanos (u.instant - v.instant))) := by
  rw [← Atomic.universal_eq ha, ← Atomic.universal_eq hb]
  rfl

/-- A difference is the distance of the instants. -/
theorem difference_of_ofInstant? {u v : DateTime} (ha : a.instant? = some x) (hb : b.instant? = some y)
    (hx : DateTime.ofInstant? x = some u) (hy : DateTime.ofInstant? y = some v) :
    a.difference b = .ok (.dayTimeDuration (secondsOfNanos (x - y))) := by
  rw [difference_eq ha hb, hx, hy, ← DateTime.ofInstant?_eq_some_iff.mp hx, ← DateTime.ofInstant?_eq_some_iff.mp hy]
  rfl

/-- If there is a difference, then both instants are in the calendar, so that a shift can be that long. -/
theorem of_difference (ha : a.instant? = some x) (hb : b.instant? = some y) (h : a.difference b = .ok d) :
    d = .dayTimeDuration (secondsOfNanos (x - y)) ∧ (x - y).natAbs ≤ longestShift ∧
      ∃ u, DateTime.ofInstant? x = some u := by
  cases hx : DateTime.ofInstant? x with
  | none =>
    rw [difference_eq ha hb, hx] at h
    cases h
  | some u =>
    cases hy : DateTime.ofInstant? y with
    | none =>
      rw [difference_eq ha hb, hx, hy] at h
      cases h
    | some v =>
      rw [difference_of_ofInstant? ha hb hx hy] at h
      have hu := u.natAbs_instant_lt
      have hv := v.natAbs_instant_lt
      rw [DateTime.ofInstant?_eq_some_iff.mp hx] at hu
      rw [DateTime.ofInstant?_eq_some_iff.mp hy] at hv
      have hlong : 2 * 10 ^ 22 ≤ longestShift := by decide
      exact ⟨(Except.ok.inj h).symm, by omega, u, rfl⟩

/-- A date with a time is moved by the given distance. -/
theorem shiftNanos_eq_ok_iff {t : DateTime} {z : Option Offset} {n : Int} :
    (Atomic.dateTime t z).shiftNanos n = .ok a ↔ ∃ w : DateTime, a = .dateTime w z ∧ w.instant = t.instant + n := by
  have hshift : (Atomic.dateTime t z).shiftNanos n =
      Atomic.inCalendar (t.shift? n) >>= fun w => pure (.dateTime w z) := rfl
  simp only [hshift, ← DateTime.shift?_eq_some_iff]
  cases t.shift? n with
  | some w =>
    constructor
    · intro h
      exact ⟨w, (Except.ok.inj h).symm, rfl⟩
    · rintro ⟨w', rfl, hw⟩
      rw [← Option.some.inj hw]
      rfl
  | none =>
    constructor
    · nofun
    · rintro ⟨w', -, hw⟩
      cases hw

end

/-! ### Operations through the cache -/

namespace OperatorCache.Coherent

variable {c : OperatorCache} (hc : c.Coherent) {a b d : Atomic} {x y : Int}

include hc

theorem arithmetic_of_resolve {op : ArithmeticOp} (rule : ArithmeticRule)
    (h : ArithmeticRule.resolve op a.itemType b.itemType = .ok rule) : (c.arithmetic op a b).1 = rule.apply a b := by
  rw [hc.arithmetic_eq, h]
  rfl

private theorem arithmetic_difference (hfamily : a.family? = b.family?) (ha : a.instant? = some x) :
    (c.arithmetic .sub a b).1 = a.difference b := by
  refine hc.arithmetic_of_resolve .difference ?_
  cases a with
  | dateTime | date | time =>
    cases b <;> cases hfamily
    rfl
  | _ => cases ha

/-- Seconds are added or taken away as nanoseconds. -/
theorem arithmetic_shift (backward : Bool) (hb : b.instant? = some y) (s : Decimal) :
    (c.arithmetic (if backward then .sub else .add) b (.dayTimeDuration s)).1 =
      Atomic.inCalendar (nanosOfSeconds? (if backward then -s else s)) >>= b.shiftNanos := by
  refine hc.arithmetic_of_resolve (.shift backward) ?_
  cases b with
  | dateTime | date | time => cases backward <;> rfl
  | _ => cases hb

/-- What is added to `b` after `a - b` is the distance of the instants. -/
theorem add_difference (hfamily : a.family? = b.family?) (ha : a.instant? = some x) (hb : b.instant? = some y)
    (hd : (c.arithmetic .sub a b).1 = .ok d) :
    (c.arithmetic .add b d).1 = b.shiftNanos (x - y) ∧ ∃ u, DateTime.ofInstant? x = some u := by
  rw [hc.arithmetic_difference hfamily ha] at hd
  obtain ⟨rfl, hlong, hx⟩ := of_difference ha hb hd
  have hshift := hc.arithmetic_shift false hb (secondsOfNanos (x - y))
  simp only [Bool.false_eq_true, if_false, nanosOfSeconds?_secondsOfNanos hlong] at hshift
  exact ⟨hshift, hx⟩

/-- Points in time of one family with one instant are equal. -/
theorem compare_eq_of_instant {u : DateTime} (hfamily : a.family? = b.family?) (ha : a.instant? = some x)
    (hb : b.instant? = some x) (hx : DateTime.ofInstant? x = some u) : (c.compare .eq a b).1 = .ok true :=
  (hc.compare_instants hfamily ha hb hx hx .eq).trans (congrArg Except.ok (decide_eq_true rfl))

end OperatorCache.Coherent

/-! ### Shifts and differences -/

namespace OperatorCache.Coherent

variable {c : OperatorCache} (hc : c.Coherent) {z y : Option Offset} {d r q : Atomic}

include hc

private theorem dateTime_add_difference {t u : DateTime}
    (hd : (c.arithmetic .sub (.dateTime t z) (.dateTime u y)).1 = .ok d)
    (hr : (c.arithmetic .add (.dateTime u y) d).1 = .ok r) :
    (c.compare .eq r (.dateTime t z)).1 = .ok true ∧ ∃ w, r = .dateTime w y := by
  obtain ⟨hshift, v, hv⟩ := hc.add_difference (a := .dateTime t z) (b := .dateTime u y) rfl rfl rfl hd
  rw [hshift] at hr
  obtain ⟨w, rfl, hw⟩ := shiftNanos_eq_ok_iff.mp hr
  -- the offset of the sum cancels against the one in the distance
  have hinstant : w.instant - offsetNanos y = t.instant - offsetNanos z := by omega
  exact ⟨hc.compare_eq_of_instant rfl (congrArg some hinstant) rfl hv, w, rfl⟩

private theorem dateTime_add_sub {t : DateTime} {s : Decimal} {n : Int} (hs : s.value * 10 ^ 9 = n)
    (hr : (c.arithmetic .add (.dateTime t z) (.dayTimeDuration s)).1 = .ok r)
    (hq : (c.arithmetic .sub r (.dateTime t z)).1 = .ok q) :
    q.identical (.dayTimeDuration s) = true ∧
      (c.arithmetic .sub r (.dayTimeDuration s)).1 = .ok (.dateTime t z) := by
  have hforward := hc.arithmetic_shift (b := .dateTime t z) false rfl s
  simp only [Bool.false_eq_true, if_false, nanosOfSeconds?_eq hs] at hforward
  rw [hforward] at hr
  by_cases hn : n.natAbs ≤ longestShift
  case neg =>
    rw [if_neg hn] at hr
    cases hr
  rw [if_pos hn] at hr
  obtain ⟨w, rfl, hw⟩ := shiftNanos_eq_ok_iff.mp hr
  constructor
  · rw [hc.arithmetic_difference (a := .dateTime w z) (b := .dateTime t z) rfl rfl] at hq
    obtain ⟨rfl, -⟩ := of_difference (a := .dateTime w z) (b := .dateTime t z) rfl rfl hq
    have hdistance : w.instant - offsetNanos z - (t.instant - offsetNanos z) = n := by omega
    have hvalue := value_secondsOfNanos (hn.trans_lt longestShift_lt_limit)
    rw [← hs] at hvalue
    rw [hdistance]
    exact Decimal.sameValue_iff_value.mpr (mul_right_cancel₀ (by positivity) hvalue)
  · have hopposite : (-s).value * 10 ^ 9 = ((-n : Int) : ℚ) := by
      rw [Decimal.value_neg, neg_mul, hs, Int.cast_neg]
    have hbackward := hc.arithmetic_shift (b := .dateTime w z) true rfl s
    simp only [if_true, nanosOfSeconds?_eq hopposite, Int.natAbs_neg, if_pos hn] at hbackward
    rw [hbackward]
    exact shiftNanos_eq_ok_iff.mpr ⟨t, rfl, by omega⟩

/-- A time of day goes around the clock and arrives where it should. -/
theorem time_add_difference {t u : TimeOfDay} (hoffset : offsetNanos z = offsetNanos y)
    (hd : (c.arithmetic .sub (.time t z) (.time u y)).1 = .ok d) :
    (c.arithmetic .add (.time u y) d).1 = .ok (.time t y) ∧
      (c.compare .eq (.time t y) (.time t z)).1 = .ok true := by
  obtain ⟨hshift, v, hv⟩ := hc.add_difference (a := .time t z) (b := .time u y) rfl rfl rfl hd
  have hdistance : (⟨referenceDate, t⟩ : DateTime).instant - offsetNanos z -
      ((⟨referenceDate, u⟩ : DateTime).instant - offsetNanos y) = t.nanos - u.nanos := by
    rw [hoffset, DateTime.instant, DateTime.instant]
    dsimp only
    omega
  have hclock : u.shift (t.nanos - u.nanos) = t := by
    rw [TimeOfDay.shift, TimeOfDay.ofInstant_eq_iff, add_sub_cancel]
    exact Int.emod_eq_of_lt (Int.natCast_nonneg _) (Int.ofNat_lt.mpr t.nanos_lt)
  refine ⟨?_, hc.compare_eq_of_instant rfl ?_ rfl hv⟩
  · rw [hshift, hdistance, Atomic.shiftNanos, hclock]
  · rw [Atomic.instant?, hoffset]

/-- Midnights are whole days apart. -/
theorem date_add_difference {e f : Date} (hoffset : offsetNanos z = offsetNanos y)
    (hd : (c.arithmetic .sub (.date e z) (.date f y)).1 = .ok d) :
    (c.arithmetic .add (.date f y) d).1 = .ok (.date e y) ∧
      (c.compare .eq (.date e y) (.date e z)).1 = .ok true := by
  obtain ⟨hshift, v, hv⟩ := hc.add_difference (a := .date e z) (b := .date f y) rfl rfl rfl hd
  have hmidnight : (⟨f, .midnight⟩ : DateTime).shift? ((⟨e, .midnight⟩ : DateTime).instant - offsetNanos z -
      ((⟨f, .midnight⟩ : DateTime).instant - offsetNanos y)) = some ⟨e, .midnight⟩ := by
    rw [DateTime.shift?_eq_some_iff, hoffset]
    omega
  refine ⟨?_, hc.compare_eq_of_instant rfl ?_ rfl hv⟩
  · rw [hshift, Atomic.shiftNanos, hmidnight]
    rfl
  · rw [Atomic.instant?, hoffset]

end OperatorCache.Coherent

/-- **Differences and shifts are inverse to each other.**

* If `d` is the difference `a - b` of two dates with a time, and `b + d` is in the calendar, then it is equal to `a`
  and has the offset of `b`.
* If `d` is a whole number of nanoseconds, then `(a + d) - a` is `d`, and `(a + d) - d` is `a`.
* If `d` is the difference `a - b` of two times, or of two dates, with the same offset, then `b + d` is the local time
  or the date of `a` with the offset of `b`, which is equal to `a`. -/
theorem difference_shift {c : OperatorCache} (hc : c.Coherent) :
    (∀ {t u : DateTime} {z y : Option Offset} {d r : Atomic},
      (c.arithmetic .sub (.dateTime t z) (.dateTime u y)).1 = .ok d → (c.arithmetic .add (.dateTime u y) d).1 = .ok r →
        (c.compare .eq r (.dateTime t z)).1 = .ok true ∧ ∃ w, r = .dateTime w y) ∧
    (∀ {t : DateTime} {z : Option Offset} {s : Decimal} {n : Int} {r q : Atomic}, s.value * 10 ^ 9 = n →
      (c.arithmetic .add (.dateTime t z) (.dayTimeDuration s)).1 = .ok r →
      (c.arithmetic .sub r (.dateTime t z)).1 = .ok q →
        q.identical (.dayTimeDuration s) = true ∧
        (c.arithmetic .sub r (.dayTimeDuration s)).1 = .ok (.dateTime t z)) ∧
    (∀ {t u : TimeOfDay} {z y : Option Offset} {d : Atomic}, offsetNanos z = offsetNanos y →
      (c.arithmetic .sub (.time t z) (.time u y)).1 = .ok d →
        (c.arithmetic .add (.time u y) d).1 = .ok (.time t y) ∧
        (c.compare .eq (.time t y) (.time t z)).1 = .ok true) ∧
    ∀ {e f : Date} {z y : Option Offset} {d : Atomic}, offsetNanos z = offsetNanos y →
      (c.arithmetic .sub (.date e z) (.date f y)).1 = .ok d →
        (c.arithmetic .add (.date f y) d).1 = .ok (.date e y) ∧
        (c.compare .eq (.date e y) (.date e z)).1 = .ok true :=
  ⟨hc.dateTime_add_difference, hc.dateTime_add_sub, hc.time_add_difference, hc.date_add_difference⟩

/-- A nanosecond leads from the end of a February day to the leap day, and back. The differences of their times and
of their dates lead there as well. -/
theorem difference_shift_leapDay :
    let before : DateTime := ⟨⟨2020, 2, 28, by decide, by decide, by decide⟩, ⟨86399999999999, by decide⟩⟩
    let leapDay : DateTime := ⟨⟨2020, 2, 29, by decide, by decide, by decide⟩, .midnight⟩
    let east : Option Offset := some ⟨3600⟩
    let nanosecond : Decimal := ⟨1, 9, by decide, by decide, false, nofun⟩
    (OperatorCache.empty.arithmetic .add (.dateTime before east) (.dayTimeDuration nanosecond)).1 =
      .ok (.dateTime leapDay east) ∧
    (OperatorCache.empty.arithmetic .sub (.dateTime leapDay east) (.dateTime before east)).1 =
      .ok (.dayTimeDuration nanosecond) ∧
    (OperatorCache.empty.arithmetic .sub (.dateTime leapDay east) (.dayTimeDuration nanosecond)).1 =
      .ok (.dateTime before east) ∧
    (OperatorCache.empty.compare .eq (.dateTime leapDay east) (.dateTime leapDay east)).1 = .ok true ∧
    (∃ d, (OperatorCache.empty.arithmetic .sub (.time leapDay.time east) (.time before.time east)).1 = .ok d ∧
      (OperatorCache.empty.arithmetic .add (.time before.time east) d).1 = .ok (.time leapDay.time east)) ∧
    ∃ d, (OperatorCache.empty.arithmetic .sub (.date leapDay.date none) (.date before.date (some ⟨0⟩))).1 = .ok d ∧
      (OperatorCache.empty.arithmetic .add (.date before.date (some ⟨0⟩)) d).1 =
        .ok (.date leapDay.date (some ⟨0⟩)) := by
  intro before leapDay east nanosecond
  have hc := OperatorCache.Holds.empty.coherent
  have hadd : (OperatorCache.empty.arithmetic .add (.dateTime before east) (.dayTimeDuration nanosecond)).1 =
      .ok (.dateTime leapDay east) := by
    have hnanos : nanosOfSeconds? nanosecond = some 1 := by decide +kernel
    refine (hc.arithmetic_shift (b := .dateTime before east) false rfl nanosecond).trans ?_
    change Atomic.inCalendar (nanosOfSeconds? nanosecond) >>= _ = _
    rw [hnanos]
    exact shiftNanos_eq_ok_iff.mpr ⟨leapDay, rfl, by decide +kernel⟩
  -- all instants that are subtracted here are in the calendar
  have hcalendar : ∀ x ∈ [leapDay.instant - offsetNanos east, before.instant - offsetNanos east,
      (⟨referenceDate, leapDay.time⟩ : DateTime).instant - offsetNanos east,
      (⟨referenceDate, before.time⟩ : DateTime).instant - offsetNanos east,
      (⟨leapDay.date, .midnight⟩ : DateTime).instant - offsetNanos none,
      (⟨before.date, .midnight⟩ : DateTime).instant - offsetNanos (some ⟨0⟩)],
      ∃ u, DateTime.ofInstant? x = some u := by
    simp only [← Option.isSome_iff_exists]
    decide +kernel
  have hdifference : ∀ {a b : Atomic} {x y : Int}, a.family? = b.family? → a.instant? = some x →
      b.instant? = some y → (∃ u, DateTime.ofInstant? x = some u) → (∃ v, DateTime.ofInstant? y = some v) →
      (OperatorCache.empty.arithmetic .sub a b).1 = .ok (.dayTimeDuration (secondsOfNanos (x - y))) := by
    rintro a b x y hfamily ha hb ⟨u, hu⟩ ⟨v, hv⟩
    rw [hc.arithmetic_difference hfamily ha, difference_of_ofInstant? ha hb hu hv]
  simp only [List.forall_mem_cons] at hcalendar
  obtain ⟨hleapDay, hbefore, hleapTime, htime, hleapDate, hdate, -⟩ := hcalendar
  have hsub : (OperatorCache.empty.arithmetic .sub (.dateTime leapDay east) (.dateTime before east)).1 =
      .ok (.dayTimeDuration nanosecond) := by
    have hseconds : secondsOfNanos (leapDay.instant - offsetNanos east - (before.instant - offsetNanos east)) =
        nanosecond := by decide +kernel
    have hpoints := hdifference (a := .dateTime leapDay east) (b := .dateTime before east) rfl rfl rfl hleapDay hbefore
    rwa [hseconds] at hpoints
  have hvalue : nanosecond.value * 10 ^ 9 = ((1 : Int) : ℚ) := by norm_num [Decimal.value, nanosecond]
  have htimes := hdifference (a := .time leapDay.time east) (b := .time before.time east) rfl rfl rfl hleapTime htime
  have hdates := hdifference (a := .date leapDay.date none) (b := .date before.date (some ⟨0⟩)) rfl rfl rfl
    hleapDate hdate
  obtain ⟨hsum, hundo, hclock, hmidnights⟩ := difference_shift hc
  exact ⟨hadd, hsub, (hundo hvalue hadd hsub).2, (hsum hsub hadd).1, ⟨_, htimes, (hclock rfl htimes).1⟩,
    ⟨_, hdates, (hmidnights (z := none) (y := some ⟨0⟩) rfl hdates).1⟩⟩

end LazyXPath
