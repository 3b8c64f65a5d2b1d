import LazyXPath.Proofs.Decimal.Exact
import LazyXPath.Proofs.RoundTrip.Duration

/-!
# Day-time durations are read back

A number of seconds is written as days, hours, minutes and seconds, of which zeros are left out
(`DayTimeLiteral`). Each unit is split off by a division whose quotient is rounded before its integer part is
taken, so a number that is close below a multiple of a unit may be written with one unit too many and a
negative rest. Where rounding keeps the integer parts (`SplitsExactly`), the components are in range, and
the literal is read as the number that it was written for (`readDayTime?_dayTimeText`).
-/

namespace LazyXPath.Calendar

open Text Decimal

/-! ### Literals -/

/-- The parts of a literal: the counts of days, hours and minutes, of which zeros are not written, and the
digits of the seconds before and behind the point, if there are seconds. -/
structure DayTimeLiteral where
  negative : Bool
  days : Nat
  hours : Nat
  minutes : Nat
  seconds : Option (List Char × List Char)

namespace DayTimeLiteral

variable (l : DayTimeLiteral)

/-- How the seconds are written. -/
def secondsChars : Option (List Char × List Char) → List Char
  | none => []
  | some (whole, fraction) => whole ++ ((if fraction = [] then [] else '.' :: fraction) ++ ['S'])

/-- The part behind the `T`. -/
def clock : List Char := component l.hours 'H' ++ (component l.minutes 'M' ++ secondsChars l.seconds)

/-- The part behind the `P`. -/
def body : List Char := component l.days 'D' ++ if l.clock = [] then [] else 'T' :: l.clock

/-- The text of the literal. -/
def chars : List Char := if l.negative then '-' :: 'P' :: l.body else 'P' :: l.body

/-- The digits of the seconds before the point. -/
def whole : List Char := (l.seconds.map (·.1)).getD []

/-- The digits of the seconds behind the point. -/
def fraction : List Char := (l.seconds.map (·.2)).getD []

/-- Whether the components are in range, and there is one of them. -/
structure Valid : Prop where
  hours_lt : l.hours < 24
  minutes_lt : l.minutes < 60
  seconds_lt : digitsValue l.whole < 60
  isNumeral_whole : l.seconds ≠ none → isNumeral l.whole = true
  isDigit_fraction : ∀ c ∈ l.fraction, c.isDigit
  nonempty : l.days ≠ 0 ∨ l.clock ≠ []

variable {l}

/-- The digits of the seconds are digits. -/
theorem Valid.isDigit_whole (hl : l.Valid) {p : List Char × List Char} (hp : p ∈ l.seconds) :
    isNumeral p.1 = true ∧ (∀ x ∈ p.1, x.isDigit) ∧ ∀ x ∈ p.2, x.isDigit := by
  have hwhole : l.whole = p.1 := by simp [whole, Option.mem_def.mp hp]
  have hfraction : l.fraction = p.2 := by simp [fraction, Option.mem_def.mp hp]
  have hnumeral := hl.isNumeral_whole (by simp [Option.mem_def.mp hp])
  rw [hwhole] at hnumeral
  refine ⟨hnumeral, ?_, hfraction ▸ hl.isDigit_fraction⟩
  simp only [isNumeral, Bool.and_eq_true, List.all_eq_true] at hnumeral
  exact hnumeral.2

variable (l)

/-- The number of seconds, without the sign and at the scale of the places. -/
def total : Nat :=
  (86400 * l.days + 3600 * l.hours + 60 * l.minutes) * 10 ^ l.fraction.length + digitsValue (l.whole ++ l.fraction)

end DayTimeLiteral

/-! ### Reading -/

section

variable {k : Nat} {c d : Char} {rest : List Char}

/-- Digits with a point among them, up to their designator. -/
theorem readFractional_digits {ds fs : List Char} (hds : ∀ x ∈ ds, x.isDigit) (hfs : ∀ x ∈ fs, x.isDigit)
    (hd : d.isDigit = false) : readFractional d (ds ++ '.' :: (fs ++ d :: rest)) = (some (ds, fs), rest) := by
  have hpoint : NoDigit ('.' :: (fs ++ d :: rest)) := NoDigit.cons_iff.mpr (by decide)
  have hend : NoDigit (d :: rest) := NoDigit.cons_iff.mpr hd
  simp [readFractional, takeWhile_isDigit hds hpoint, takeWhile_isDigit hfs hend]

/-- The seconds are no component with another designator. -/
theorem readComponent_secondsChars {p : Option (List Char × List Char)} (hp : ∀ q ∈ p, ∀ x ∈ q.1, x.isDigit)
    (hS : c ≠ 'S') (hpoint : c ≠ '.') :
    readComponent c (DayTimeLiteral.secondsChars p) = (none, DayTimeLiteral.secondsChars p) := by
  cases p with
  | none => rfl
  | some q =>
    have hq := hp q rfl
    unfold DayTimeLiteral.secondsChars
    dsimp only
    split
    · rw [List.nil_append, readComponent_digits hq (by decide), if_neg (Ne.symm hS)]
    · rw [List.cons_append, readComponent_digits hq (by decide), if_neg (Ne.symm hpoint)]

/-- Digits are read to the last one if number and places fit. -/
theorem ofDigits?_digits {whole fraction : List Char} (h : digitsValue (whole ++ fraction) < limit)
    (hs : fraction.length ≤ maxScale) : ∃ n, ofDigits? false whole fraction = some n ∧
      n.coefficient = digitsValue (whole ++ fraction) ∧ n.scale = fraction.length := by
  rw [digitsValue_eq_ofDigitChars, Nat.ofDigitChars_append] at h ⊢
  have hwhole := readWhole_eq ((le_ofDigitChars fraction _).trans_lt h)
  have hfraction := readFraction_eq (s := 0) h (by rwa [Nat.zero_add])
  rw [Nat.zero_add] at hfraction
  exact ofDigits?_eq hwhole hfraction rfl (by rwa [Int.natAbs_natCast]) hs

/-- The number of seconds that a component stands for. -/
theorem componentSeconds_some {ds : List Char} {u : Nat} (hds : isNumeral ds = true)
    (hvalue : digitsValue ds < limit) (hu : u < limit) (h : digitsValue ds * u < limit) :
    ∃ d, componentSeconds u (some ds) = some d ∧ d.IsWhole (digitsValue ds * u) := by
  have hall : digitsValue (ds ++ []) < limit := by rwa [List.append_nil]
  obtain ⟨n, hn, hnc, hns⟩ := ofDigits?_digits hall (Nat.zero_le _)
  rw [List.append_nil] at hnc
  obtain ⟨unit, hunit, hwhole⟩ := IsWhole.ofInt? hu
  obtain ⟨d, hd, hdwhole⟩ := IsWhole.mul? ⟨hnc, hns⟩ hwhole h
  refine ⟨d, ?_, hdwhole⟩
  simp [componentSeconds, hds, hn, hunit, hd]

/-- A number of units is read as so many seconds. -/
private theorem componentSeconds_componentDigits {u : Nat} (hk : k < limit) (hu : u < limit) (h : k * u < limit) :
    ∃ d, componentSeconds u (componentDigits k) = some d ∧ d.IsWhole (k * u) := by
  by_cases hzero : k = 0
  · rw [hzero, Nat.zero_mul]
    exact ⟨_, rfl, .zero⟩
  · rw [componentDigits, if_neg hzero]
    simpa using componentSeconds_some (isNumeral_toDigits k) (by simpa using hk) hu (by simpa using h)

end

/-- The seconds at the end of a clock, with or without a point, are read and added to a number. -/
def ReadsSeconds (start : Decimal) (cs : List Char) (present : Bool) (v : Decimal) : Prop :=
  ∃ seconds fractional rest a b t, readComponent 'S' cs = (seconds, rest) ∧
    (if seconds.isSome then (none, rest) else readFractional 'S' rest) = (fractional, []) ∧
    (seconds.isSome || fractional.isSome) = present ∧
    componentSeconds 1 seconds = some a ∧ fractionalSeconds fractional = some b ∧
    start.add? a = some t ∧ t.add? b = some v

section

variable {start : Decimal} {m : Nat} (hstart : start.IsWhole m) {ds fs : List Char}
include hstart

/-- Without seconds the number stays as it is. -/
private theorem readsSeconds_none : ∃ v, ReadsSeconds start [] false v ∧ v.IsWhole m := by
  obtain ⟨t, ht, htm⟩ := hstart.add? .zero hstart.lt_limit
  obtain ⟨v, hv, hvm⟩ := htm.add? .zero htm.lt_limit
  exact ⟨v, ⟨none, none, [], zero, zero, t, rfl, rfl, rfl, rfl, rfl, ht, hv⟩, hvm⟩

/-- Whole seconds are added to the number. -/
private theorem readsSeconds_whole (hnumeral : isNumeral ds = true) (hdigits : ∀ x ∈ ds, x.isDigit)
    (hfits : m + digitsValue ds < limit) :
    ∃ v, ReadsSeconds start (ds ++ ['S']) true v ∧ v.IsWhole (m + digitsValue ds) := by
  obtain ⟨a, ha, haWhole⟩ := componentSeconds_some (u := 1) hnumeral (by omega) (by decide) (by omega)
  rw [Nat.mul_one] at haWhole
  obtain ⟨t, ht, htm⟩ := hstart.add? haWhole hfits
  obtain ⟨v, hv, hvm⟩ := htm.add? .zero htm.lt_limit
  refine ⟨v, ⟨some ds, none, [], a, zero, t, ?_, rfl, rfl, ha, rfl, ht, hv⟩, hvm⟩
  rw [readComponent_digits hdigits (by decide), if_pos rfl]

/-- Seconds with places are added to the number at the scale of their places. -/
private theorem readsSeconds_fraction (hnumeral : isNumeral ds = true) (hdigits : ∀ x ∈ ds, x.isDigit)
    (hne : fs ≠ []) (hplaceDigits : ∀ x ∈ fs, x.isDigit) (hplaces : fs.length ≤ maxScale)
    (hfits : m * 10 ^ fs.length + digitsValue (ds ++ fs) < limit) :
    ∃ v, ReadsSeconds start (ds ++ '.' :: (fs ++ ['S'])) true v ∧ v.coefficient * 10 ^ fs.length =
      ((m * 10 ^ fs.length + digitsValue (ds ++ fs) : Nat) : Int) * 10 ^ v.scale := by
  obtain ⟨t, ht, htm⟩ := hstart.add? .zero hstart.lt_limit
  obtain ⟨b, hb, hbc, hbs⟩ := ofDigits?_digits (lt_of_le_of_lt (Nat.le_add_left _ _) hfits) hplaces
  have hmax : max t.scale b.scale = fs.length := by rw [htm.2, hbs, Nat.zero_max]
  have hsum : t.scaledTo fs.length + b.scaledTo fs.length =
      ((m * 10 ^ fs.length + digitsValue (ds ++ fs) : Nat) : Int) := by
    rw [htm.scaledTo, Decimal.scaledTo, hbs, hbc, Nat.sub_self]
    simp
  obtain ⟨v, hv, hvalue, -⟩ := add?_exact hmax (by rwa [hsum, Int.natAbs_natCast])
  rw [hsum] at hvalue
  refine ⟨v, ⟨none, some (ds, fs), ds ++ '.' :: (fs ++ ['S']), zero, b, t, ?_, ?_, rfl, rfl, ?_, ht, hv⟩, hvalue⟩
  · rw [readComponent_digits hdigits (by decide), if_neg (by decide)]
  · exact readFractional_digits hdigits hplaceDigits (by decide)
  · simp [fractionalSeconds, hnumeral, isNumeral_of_isDigit hne hplaceDigits, hb]

/-- Reading the seconds onto a whole number of seconds. -/
theorem readsSeconds_secondsChars {l : DayTimeLiteral} (hl : l.Valid) (hplaces : l.fraction.length ≤ maxScale)
    (hfits : m * 10 ^ l.fraction.length + digitsValue (l.whole ++ l.fraction) < limit) :
    ∃ v, ReadsSeconds start (DayTimeLiteral.secondsChars l.seconds) l.seconds.isSome v ∧
      v.coefficient * 10 ^ l.fraction.length =
        ((m * 10 ^ l.fraction.length + digitsValue (l.whole ++ l.fraction) : Nat) : Int) * 10 ^ v.scale := by
  cases hs : l.seconds with
  | none =>
    have hwhole : l.whole = [] := by simp [DayTimeLiteral.whole, hs]
    have hfraction : l.fraction = [] := by simp [DayTimeLiteral.fraction, hs]
    obtain ⟨v, hreads, hv⟩ := readsSeconds_none hstart
    refine ⟨v, hreads, ?_⟩
    rw [hwhole, hfraction, hv.1, hv.2]
    simp [digitsValue]
  | some p =>
    obtain ⟨ds, fs⟩ := p
    have hwhole : l.whole = ds := by simp [DayTimeLiteral.whole, hs]
    have hfraction : l.fraction = fs := by simp [DayTimeLiteral.fraction, hs]
    obtain ⟨hnumeral, hdigits, hplaceDigits⟩ := hl.isDigit_whole hs
    rw [hwhole, hfraction] at hfits ⊢
    rw [hfraction] at hplaces
    by_cases hnil : fs = []
    · subst hnil
      obtain ⟨v, hreads, hv⟩ := readsSeconds_whole hstart hnumeral hdigits (by simpa using hfits)
      refine ⟨v, by simpa [DayTimeLiteral.secondsChars] using hreads, ?_⟩
      rw [hv.1, hv.2]
      simp
    · obtain ⟨v, hreads, hvalue⟩ := readsSeconds_fraction hstart hnumeral hdigits hnil hplaceDigits hplaces hfits
      exact ⟨v, by simpa [DayTimeLiteral.secondsChars, hnil] using hreads, hvalue⟩

end

/-- There is a clock if one of its components is there. -/
theorem isEmpty_clock (l : DayTimeLiteral) : (!l.clock.isEmpty) =
    ((componentDigits l.hours).isSome || (componentDigits l.minutes).isSome || l.seconds.isSome) := by
  by_cases hh : l.hours = 0 <;> by_cases hm : l.minutes = 0 <;> cases hs : l.seconds <;>
    simp [DayTimeLiteral.clock, DayTimeLiteral.secondsChars, component, componentDigits, hh, hm, hs]

/-- Nothing is written behind the `T` only if hours, minutes and seconds are all zero. -/
private theorem of_clock_eq_nil {l : DayTimeLiteral} (h : l.clock = []) :
    l.hours = 0 ∧ l.minutes = 0 ∧ l.seconds = none := by
  have hclock := isEmpty_clock l
  simpa [h, componentDigits_eq_none, and_assoc] using hclock

/-- What a clock is read as: its components are read one after the other, and they are added up. -/
inductive ClockRead (start : Decimal) (cs : List Char) : Decimal × Bool → Prop
  | intro {hours minutes seconds : Option (List Char)} {fractional : Option (List Char × List Char)}
      {cs₁ cs₂ cs₃ : List Char} {h n a b t₁ t₂ t₃ v : Decimal} :
      readComponent 'H' cs = (hours, cs₁) → readComponent 'M' cs₁ = (minutes, cs₂) →
      readComponent 'S' cs₂ = (seconds, cs₃) →
      (if seconds.isSome then (none, cs₃) else readFractional 'S' cs₃) = (fractional, []) →
      componentSeconds 3600 hours = some h → start.add? h = some t₁ →
      componentSeconds 60 minutes = some n → t₁.add? n = some t₂ →
      componentSeconds 1 seconds = some a → t₂.add? a = some t₃ →
      fractionalSeconds fractional = some b → t₃.add? b = some v →
      ClockRead start cs (v, hours.isSome || minutes.isSome || seconds.isSome || fractional.isSome)

/-- A clock is read exactly if each of its components is, one after the other. -/
theorem readClock_eq_some_iff {start : Decimal} {cs : List Char} {p : Decimal × Bool} :
    readClock start cs = some p ↔ ClockRead start cs p := by
  constructor
  · intro h
    unfold readClock at h
    generalize hH : readComponent 'H' cs = r at h
    obtain ⟨hours, cs₁⟩ := r
    dsimp only at h
    generalize hM : readComponent 'M' cs₁ = r at h
    obtain ⟨minutes, cs₂⟩ := r
    dsimp only at h
    generalize hS : readComponent 'S' cs₂ = r at h
    obtain ⟨seconds, cs₃⟩ := r
    dsimp only at h
    generalize hF : (if seconds.isSome then (none, cs₃) else readFractional 'S' cs₃) = r at h
    obtain ⟨fractional, cs₄⟩ := r
    dsimp only at h
    split at h
    case isTrue => cases h
    case isFalse hend =>
      obtain rfl : cs₄ = [] := by simpa using hend
      simp only [Option.bind_eq_bind, Option.bind_eq_some_iff] at h
      obtain ⟨h', hh, t₁, ht₁, n, hn, t₂, ht₂, a, ha, t₃, ht₃, b, hb, v, hv, h⟩ := h
      cases h
      exact .intro hH hM hS hF hh ht₁ hn ht₂ ha ht₃ hb hv
  · rintro ⟨hH, hM, hS, hF, hh, ht₁, hn, ht₂, ha, ht₃, hb, hv⟩
    simp [readClock, hH, hM, hS, hF, hh, hn, ha, hb, ht₁, ht₂, ht₃, hv]

/-- The part behind the `T` is read onto a whole number of seconds. -/
theorem readClock_clock {l : DayTimeLiteral} (hl : l.Valid) {start : Decimal} {m : Nat} (hstart : start.IsWhole m)
    (hplaces : l.fraction.length ≤ maxScale)
    (hfits : (m + 3600 * l.hours + 60 * l.minutes) * 10 ^ l.fraction.length +
      digitsValue (l.whole ++ l.fraction) < limit) :
    ∃ v, readClock start l.clock = some (v, !l.clock.isEmpty) ∧ v.coefficient * 10 ^ l.fraction.length =
      (((m + 3600 * l.hours + 60 * l.minutes) * 10 ^ l.fraction.length + digitsValue (l.whole ++ l.fraction) : Nat) :
        Int) * 10 ^ v.scale := by
  have hdigits : ∀ q ∈ l.seconds, ∀ x ∈ q.1, x.isDigit := fun q hq => (hl.isDigit_whole hq).2.1
  have hlt : m + 3600 * l.hours + 60 * l.minutes < limit := by
    refine lt_of_le_of_lt ?_ hfits
    exact le_trans (Nat.le_mul_of_pos_right _ (by positivity)) (Nat.le_add_right _ _)
  have hH := readComponent_component (c := 'H') (by decide) l.hours
    (readComponent_component_skip (d := 'M') (by decide) (by decide) l.minutes
      (readComponent_secondsChars hdigits (by decide) (by decide)))
  have hM := readComponent_component (c := 'M') (by decide) l.minutes
    (readComponent_secondsChars hdigits (by decide) (by decide))
  have hthousands : 3600 < limit ∧ 60 < limit := by decide
  obtain ⟨h, hh, hhours⟩ := componentSeconds_componentDigits (k := l.hours) (by omega) hthousands.1 (by omega)
  obtain ⟨t₁, ht₁, hm₁⟩ := hstart.add? hhours (by omega)
  obtain ⟨n, hn, hminutes⟩ := componentSeconds_componentDigits (k := l.minutes) (by omega) hthousands.2 (by omega)
  obtain ⟨t₂, ht₂, hm₂⟩ := hm₁.add? hminutes (by omega)
  rw [Nat.mul_comm l.hours, Nat.mul_comm l.minutes] at hm₂
  obtain ⟨v, ⟨seconds, fractional, rest, a, b, t₃, hS, hF, hsome, ha, hb, ht₃, hv⟩, hvalue⟩ :=
    readsSeconds_secondsChars hm₂ hl hplaces hfits
  refine ⟨v, ?_, hvalue⟩
  have hread := readClock_eq_some_iff.mpr (.intro hH hM hS hF hh ht₁ hn ht₂ ha ht₃ hb hv)
  rw [Bool.or_assoc, hsome] at hread
  rw [isEmpty_clock]
  exact hread

/-- A literal of days and a clock, from the readings of its two parts. -/
theorem readDuration?_dayTime (negative : Bool) {calendar clock : List Char} {days : Option (List Char)} {n : Int}
    {day count start v : Decimal} {hasClock : Bool} (hT : 'T' ∉ calendar)
    (hY : readComponent 'Y' calendar = (none, calendar)) (hM : readComponent 'M' calendar = (none, calendar))
    (hD : readComponent 'D' calendar = (days, [])) (hn : componentCount days = some n) (hday : ofInt? 86400 = some day)
    (hcount : ofInt? n = some count) (hstart : count.mul? day = some start)
    (hclock : readClock start clock = some (v, hasClock)) (hsome : days = none → hasClock = true)
    {body : List Char} (hbody : body = calendar ++ if clock = [] then [] else 'T' :: clock) :
    readDayTime? (if negative then '-' :: 'P' :: body else 'P' :: body) = some (if negative then -v else v) := by
  have hzero : componentCount none = some 0 := rfl
  have hpresent : (Option.isSome (none : Option (List Char)) || Option.isSome (none : Option (List Char)) ||
      (days.isSome || hasClock)) = true := by
    cases days with
    | none => exact hsome rfl
    | some _ => rfl
  have hparts : PartsRead negative calendar clock _ :=
    .intro hY hM hD hzero hzero (by decide) hday hn hcount hstart hclock hpresent
  rw [← readParts_eq_some_iff] at hparts
  have hread : readDuration? (lead negative ++ body) = readParts negative calendar clock := by
    rw [readDuration?_lead]
    -- what is behind the `T` is not empty, where there is one
    cases clock with
    | nil =>
      rw [if_pos rfl, List.append_nil] at hbody
      rw [hbody, splitAtFirst_eq_none hT]
    | cons c cs =>
      rw [if_neg (List.cons_ne_nil c cs)] at hbody
      rw [hbody, splitAtFirst_append hT]
  rw [← lead_append, readDayTime?, hread, hparts]
  rfl

/-- Every literal in range is read as its number of seconds, if that fits and the days are a signed 64-bit
number. -/
theorem readDayTime?_chars {l : DayTimeLiteral} (hl : l.Valid) (hdays : l.days < 2 ^ 63)
    (hplaces : l.fraction.length ≤ maxScale) (hfits : l.total < limit) :
    ∃ v, readDayTime? l.chars = some v ∧ v.coefficient * 10 ^ l.fraction.length =
      (if l.negative then -(l.total : Int) else l.total) * 10 ^ v.scale := by
  have hlimit := limit_eq
  have hfitsLong : fitsLong l.days = true := by
    simp only [fitsLong, Bool.and_eq_true, decide_eq_true_eq, Nat.pow_eq, Nat.reducePow]
    omega
  obtain ⟨day, hday, hdayWhole⟩ := IsWhole.ofInt? (n := 86400) (by omega)
  obtain ⟨days, hdaysInt, hdaysWhole⟩ := IsWhole.ofInt? (n := l.days) (by omega)
  obtain ⟨start, hstart, hstartWhole⟩ := hdaysWhole.mul? hdayWhole (by omega)
  rw [Nat.mul_comm] at hstartWhole
  obtain ⟨v, hclock, hvalue⟩ := readClock_clock hl hstartWhole hplaces hfits
  have hend : readComponent 'D' [] = (none, []) := rfl
  have hD := readComponent_component (by decide) l.days hend
  rw [List.append_nil] at hD
  have hY := readComponent_other (c := 'Y') (d := 'D') (by decide) (by decide) l.days
  have hM := readComponent_other (c := 'M') (d := 'D') (by decide) (by decide) l.days
  have hcount := componentCount_componentDigits hfitsLong
  have hT : 'T' ∉ component l.days 'D' := by
    have hdigits : 'T' ∉ Nat.toDigits 10 l.days := fun hmem => absurd (isDigit_of_mem_toDigits hmem) (by decide)
    unfold component
    split <;> simp [hdigits]
  have hsome : componentDigits l.days = none → (!l.clock.isEmpty) = true := by
    intro hnone
    have hclock := hl.nonempty.resolve_left (not_not.mpr (componentDigits_eq_none.mp hnone))
    simpa using hclock
  refine ⟨_, readDuration?_dayTime l.negative hT hY hM hD hcount hday hdaysInt hstart hclock hsome rfl, ?_⟩
  cases l.negative with
  | false => exact hvalue
  | true =>
    change -v.coefficient * 10 ^ l.fraction.length = -(l.total : Int) * 10 ^ v.scale
    rw [Int.neg_mul, hvalue, ← Int.neg_mul]
    rfl

/-! ### Writing -/

/-- A quotient by a whole number of two or more is not too large. -/
theorem exists_div? {u : Nat} {a unit : Decimal} (hu : 2 ≤ u) (hwhole : unit.IsWhole u) :
    ∃ q, a.div? unit = some q := by
  have hunitNe : unit.coefficient ≠ 0 := by
    rw [hwhole.1]
    omega
  have hright : a.alignedRight unit = u * 10 ^ a.scale := by simp [alignedRight_eq, hwhole.1, hwhole.2]
  have hleft : a.alignedLeft unit = a.coefficient.natAbs := by simp [alignedLeft_eq, hwhole.2]
  have hlt : a.coefficient.natAbs < limit := a.coefficient_lt
  have hspec := div?_spec (a := a) hunitNe
  cases hdiv : a.div? unit with
  | some q => exact ⟨q, rfl⟩
  | none =>
    rw [hdiv, hleft, hright] at hspec
    have hround := roundHalfEven_le a.coefficient.natAbs (u * 10 ^ a.scale)
    have hhalf : a.coefficient.natAbs / (u * 10 ^ a.scale) ≤ a.coefficient.natAbs / 2 :=
      Nat.div_le_div_left (hu.trans (Nat.le_mul_of_pos_right u (by positivity))) (by decide)
    rw [limit_eq] at *
    exact absurd hspec (by dsimp only; omega)

/-- A unit is split off exactly if rounding keeps the integer part of the quotient. -/
theorem splitUnit_eq {u k : Nat} {rest : Decimal} (hu : 2 ≤ u) (hlt : u < limit) (hk : rest.coefficient = k)
    (hkeeps : KeepsWhole k (u * 10 ^ rest.scale)) :
    ∃ whole left, splitUnit u rest = (whole, left) ∧ whole.IsWhole (k / (u * 10 ^ rest.scale)) ∧
      left.coefficient = ((k % (u * 10 ^ rest.scale) : Nat) : Int) ∧
      (left.coefficient ≠ 0 → left.scale = rest.scale) := by
  obtain ⟨unit, hunit, hwhole⟩ := IsWhole.ofInt? hlt
  have hunitNe : unit.coefficient ≠ 0 := by
    rw [hwhole.1]
    omega
  have hleft : rest.alignedLeft unit = k := by simp [alignedLeft_eq, hk, hwhole.2]
  have hright : rest.alignedRight unit = u * 10 ^ rest.scale := by simp [alignedRight_eq, hwhole.1, hwhole.2]
  have hklt : k < limit := by
    have := rest.coefficient_lt
    rwa [hk, Int.natAbs_natCast] at this
  obtain ⟨q, hq⟩ := exists_div? (a := rest) hu hwhole
  obtain ⟨j, hj, hjeq⟩ := toInt_div? hunitNe hq
  rw [hleft, hright] at hjeq
  obtain rfl := hjeq.mp hkeeps
  have htrunc : q.trunc.IsWhole (k / (u * 10 ^ rest.scale)) := by
    refine ⟨?_, rfl⟩
    change q.toInt = _
    have hsign : (u : Int).sign = 1 := Int.sign_natCast_of_ne_zero (by omega)
    rw [hj, hk, hwhole.1, hsign]
    obtain rfl | hkpos := Nat.eq_zero_or_pos k
    · simp
    · rw [Int.sign_natCast_of_ne_zero hkpos.ne', Int.one_mul, Int.one_mul]
  have hle : k / (u * 10 ^ rest.scale) * u * 10 ^ rest.scale ≤ k := by
    rw [Nat.mul_assoc]
    exact Nat.div_mul_le_self k _
  obtain ⟨product, hproduct, hproductWhole⟩ := htrunc.mul? hwhole
    (lt_of_le_of_lt (Nat.le_mul_of_pos_right _ (by positivity)) (hle.trans_lt hklt))
  obtain ⟨left, hsub, hleftc, hlefts⟩ := IsWhole.sub? hk hproductWhole hle
  refine ⟨q.trunc, left, ?_, htrunc, ?_, hlefts⟩
  · simp [splitUnit, hunit, hq, hproduct, hsub]
  · rw [hleftc, Nat.mul_assoc]
    have := Nat.div_add_mod' k (u * 10 ^ rest.scale)
    omega

/-- The same at a scale that the rest has unless it is zero. -/
theorem splitUnit_eq_of_scale {u k s : Nat} {rest : Decimal} (hu : 2 ≤ u) (hlt : u < limit)
    (hk : rest.coefficient = k)
    (hs : rest.coefficient ≠ 0 → rest.scale = s) (hkeeps : KeepsWhole k (u * 10 ^ s)) :
    ∃ whole left, splitUnit u rest = (whole, left) ∧ whole.IsWhole (k / (u * 10 ^ s)) ∧
      left.coefficient = ((k % (u * 10 ^ s) : Nat) : Int) ∧ (left.coefficient ≠ 0 → left.scale = s) := by
  obtain rfl | hpos := Nat.eq_zero_or_pos k
  · have hkeeps' : KeepsWhole 0 (u * 10 ^ rest.scale) := keepsWhole_of_lt (by positivity) (by decide)
    obtain ⟨whole, left, hsplit, hwhole, hleft, -⟩ := splitUnit_eq hu hlt hk hkeeps'
    rw [Nat.zero_mod] at hleft
    rw [Nat.zero_div] at hwhole ⊢
    rw [Nat.zero_mod]
    exact ⟨whole, left, hsplit, hwhole, hleft, fun hne => absurd hleft hne⟩
  · obtain rfl := hs (by omega)
    exact splitUnit_eq hu hlt hk hkeeps

/-- Whether days, hours and minutes can be split off a number of seconds, one after the other, without a
quotient that is rounded to the next integer. -/
def SplitsExactly (seconds : Decimal) : Prop :=
  let n := seconds.coefficient.natAbs
  let e := 10 ^ seconds.scale
  KeepsWhole n (86400 * e) ∧ KeepsWhole (n % (86400 * e)) (3600 * e) ∧ KeepsWhole (n % (3600 * e)) (60 * e)

/-- A whole number is written without a point. -/
private theorem toText_of_isWhole {d : Decimal} {n : Nat} (h : d.IsWhole n) :
    d.toText.toList = Nat.toDigits 10 n := by
  have hnorm : d.normalize.coefficient = n ∧ d.normalize.scale = 0 := by
    simp [Decimal.normalize, h.1, h.2, dropZeros]
  have hlength : 1 - (Nat.toDigits 10 n).length = 0 := by
    have := List.length_pos_of_ne_nil (Nat.toDigits_ne_nil (b := 10) (n := n))
    omega
  simp [toText, plainText, hnorm, isNegative, padded.toList, hlength]

/-- A whole number of units is written with its designator, or left out if it is zero. -/
private theorem toList_componentText {d : Decimal} {n : Nat} (h : d.IsWhole n) {designator : String} {c : Char}
    (hc : designator.toList = [c]) : (componentText d designator).toList = component n c := by
  by_cases hn : n = 0
  · rw [componentText, if_pos (h.isZero_iff.mpr hn), component, if_pos hn]
    rfl
  · rw [componentText, if_neg (mt h.isZero_iff.mp hn), component, if_neg hn, String.toList_append,
      toText_of_isWhole h, hc]

/-- Digits behind a number raise it by as many places. -/
theorem mul_pow_le_ofDigitChars (ds : List Char) (n : Nat) : n * 10 ^ ds.length ≤ Nat.ofDigitChars 10 ds n := by
  induction ds generalizing n with
  | nil => simp
  | cons d ds ih =>
    rw [Nat.ofDigitChars_cons, List.length_cons]
    refine le_trans ?_ (ih _)
    calc n * 10 ^ (ds.length + 1) = 10 * n * 10 ^ ds.length := by ring
      _ ≤ _ := Nat.mul_le_mul_right _ (Nat.le_add_right _ _)

/-- Dropping zeros from a decimal that is positive. -/
theorem normalize_value {d : Decimal} {k : Nat} (hk : d.coefficient = k) (hpos : 0 < k) :
    0 < d.normalize.coefficient ∧ d.normalize.coefficient.natAbs * 10 ^ d.scale = k * 10 ^ d.normalize.scale := by
  have hvalue : d.normalize.coefficient * 10 ^ d.scale = (k : Int) * 10 ^ d.normalize.scale :=
    hk ▸ dropZeros_value d.scale d.coefficient
  have hnorm : 0 < d.normalize.coefficient := by
    have hright : 0 < (k : Int) * 10 ^ d.normalize.scale := by positivity
    rw [← hvalue] at hright
    exact pos_of_mul_pos_left hright (by positivity)
  obtain ⟨m, hm⟩ := Int.eq_ofNat_of_zero_le hnorm.le
  refine ⟨hnorm, ?_⟩
  rw [hm] at hvalue ⊢
  exact_mod_cast hvalue

/-- The seconds that are left over, as they are written. -/
theorem toList_componentText_seconds {left : Decimal} {k s : Nat} (hk : left.coefficient = k)
    (hs : left.coefficient ≠ 0 → left.scale = s) (hlt : k < 60 * 10 ^ s) :
    ∃ seconds, (componentText left "S").toList = DayTimeLiteral.secondsChars seconds ∧
      (seconds = none → k = 0) ∧ ∀ l : DayTimeLiteral, l.seconds = seconds → digitsValue l.whole < 60 ∧
        (seconds ≠ none → isNumeral l.whole = true) ∧ (∀ x ∈ l.fraction, x.isDigit) ∧ l.fraction.length ≤ s ∧
        digitsValue (l.whole ++ l.fraction) * 10 ^ s = k * 10 ^ l.fraction.length := by
  by_cases hzero : k = 0
  · have hleft : left.isZero = true := by simp [isZero, hk, hzero]
    refine ⟨none, ?_, fun _ => hzero, fun l hl => ?_⟩
    · rw [componentText, if_pos hleft]
      rfl
    · simp [DayTimeLiteral.whole, DayTimeLiteral.fraction, hl, hzero, digitsValue]
  have hleft : ¬ left.isZero = true := by simp [isZero, hk, hzero]
  obtain rfl := hs (by omega)
  obtain ⟨c, cs, fraction, hdigits, hlength, hvalue, htext⟩ := left.normalize.plainText_parts
  obtain ⟨hpos, hnorm⟩ := normalize_value hk (Nat.pos_of_ne_zero hzero)
  rw [← hvalue] at hnorm
  refine ⟨some (c :: cs, fraction), ?_, fun h => absurd h (Option.some_ne_none _), fun l hl => ?_⟩
  · have hpoint : fraction = [] ↔ left.normalize.scale = 0 := by rw [← List.length_eq_zero_iff, hlength]
    have hnonneg : ¬ left.normalize.coefficient < 0 := by omega
    rw [componentText, if_neg hleft, String.toList_append, toText, htext]
    simp [DayTimeLiteral.secondsChars, hpoint, hnonneg]
  · have hwhole : l.whole = c :: cs := by simp [DayTimeLiteral.whole, hl]
    have hfraction : l.fraction = fraction := by simp [DayTimeLiteral.fraction, hl]
    have hsmall : digitsValue (c :: cs ++ fraction) < 60 * 10 ^ fraction.length := by
      refine Nat.lt_of_mul_lt_mul_right (a := 10 ^ left.scale) ?_
      rw [hnorm, hlength, Nat.mul_right_comm]
      exact Nat.mul_lt_mul_of_pos_right hlt (by positivity)
    have hle : digitsValue (c :: cs) * 10 ^ fraction.length ≤ digitsValue (c :: cs ++ fraction) := by
      rw [digitsValue_eq_ofDigitChars (c :: cs ++ fraction), Nat.ofDigitChars_append]
      exact mul_pow_le_ofDigitChars fraction _
    rw [hwhole, hfraction]
    refine ⟨Nat.lt_of_mul_lt_mul_right (hle.trans_lt hsmall),
      fun _ => isNumeral_of_isDigit (by simp) fun x hx => hdigits x (List.mem_append_left _ hx),
      fun x hx => hdigits x (List.mem_append_right _ hx), ?_, hlength ▸ hnorm⟩
    rw [hlength]
    exact (dropZeros_le _ _).2

/-- What is left behind the days and then the hours is what is left behind the hours at once, and likewise
for the minutes. -/
private theorem mod_mod_units (n e : Nat) : n % (86400 * e) % (3600 * e) = n % (3600 * e) ∧
    n % (3600 * e) % (60 * e) = n % (60 * e) :=
  ⟨Nat.mod_mod_of_dvd n (Nat.mul_dvd_mul_right (by decide) e), Nat.mod_mod_of_dvd n (Nat.mul_dvd_mul_right (by decide) e)⟩

/-- The units add up. -/
theorem units_add_up (n e : Nat) : (86400 * (n / (86400 * e)) + 3600 * (n % (86400 * e) / (3600 * e)) +
    60 * (n % (3600 * e) / (60 * e))) * e + n % (60 * e) = n := by
  obtain ⟨hhour, hminute⟩ := mod_mod_units n e
  have hday := Nat.div_add_mod' n (86400 * e)
  have hhours := Nat.div_add_mod' (n % (86400 * e)) (3600 * e)
  have hminutes := Nat.div_add_mod' (n % (3600 * e)) (60 * e)
  rw [hhour] at hhours
  rw [hminute] at hminutes
  linarith

/-- Days, hours and minutes split off one after the other, and what is left over. -/
theorem splitUnits_eq {seconds : Decimal} (hsplit : SplitsExactly seconds) :
    let n := seconds.coefficient.natAbs
    let e := 10 ^ seconds.scale
    ∃ days left₁ hours left₂ minutes left₃, splitUnit 86400 seconds.abs = (days, left₁) ∧
      splitUnit 3600 left₁ = (hours, left₂) ∧ splitUnit 60 left₂ = (minutes, left₃) ∧
      days.IsWhole (n / (86400 * e)) ∧ hours.IsWhole (n % (86400 * e) / (3600 * e)) ∧
      minutes.IsWhole (n % (3600 * e) / (60 * e)) ∧ left₃.coefficient = ((n % (60 * e) : Nat) : Int) ∧
      (left₃.coefficient ≠ 0 → left₃.scale = seconds.scale) := by
  intro n e
  obtain ⟨hkeepsDay, hkeepsHour, hkeepsMinute⟩ := hsplit
  have hunits : 86400 < limit ∧ 3600 < limit ∧ 60 < limit := by decide
  have habs : seconds.abs.coefficient = n := rfl
  obtain ⟨hhour, hminute⟩ := mod_mod_units n e
  obtain ⟨days, left₁, hdays, hD, hc₁, hs₁⟩ :=
    splitUnit_eq_of_scale (s := seconds.scale) (by decide) hunits.1 habs (fun _ => rfl) hkeepsDay
  obtain ⟨hours, left₂, hhours, hH, hc₂, hs₂⟩ :=
    splitUnit_eq_of_scale (by decide) hunits.2.1 hc₁ hs₁ hkeepsHour
  rw [hhour] at hc₂
  obtain ⟨minutes, left₃, hminutes, hM, hc₃, hs₃⟩ :=
    splitUnit_eq_of_scale (by decide) hunits.2.2 hc₂ hs₂ hkeepsMinute
  rw [hminute] at hc₃
  exact ⟨days, left₁, hours, left₂, minutes, left₃, hdays, hhours, hminutes, hD, hH, hM, hc₃, hs₃⟩

/-- The text of a number of seconds is that of the literal whose counts the divisions give. -/
private theorem toList_dayTimeText {seconds days hours minutes left₁ left₂ left₃ : Decimal} {l : DayTimeLiteral}
    (hne : seconds.coefficient ≠ 0) (hdays : splitUnit 86400 seconds.abs = (days, left₁))
    (hhours : splitUnit 3600 left₁ = (hours, left₂)) (hminutes : splitUnit 60 left₂ = (minutes, left₃))
    (hsign : l.negative = seconds.isNegative) (hD : days.IsWhole l.days) (hH : hours.IsWhole l.hours)
    (hM : minutes.IsWhole l.minutes) (hS : (componentText left₃ "S").toList = DayTimeLiteral.secondsChars l.seconds) :
    (dayTimeText seconds).toList = l.chars := by
  have hzero : seconds.isZero = false := by simpa [isZero] using hne
  have hclock : (componentText hours "H" ++ componentText minutes "M" ++ componentText left₃ "S").toList = l.clock := by
    rw [String.toList_append, String.toList_append, toList_componentText (c := 'H') hH rfl,
      toList_componentText (c := 'M') hM rfl, hS, List.append_assoc]
    rfl
  have hempty : ∀ t : String, t.isEmpty = true ↔ t.toList = [] := fun t => by simp
  simp only [dayTimeText, hzero, Bool.false_eq_true, if_false, hdays, hhours, hminutes, hempty, hclock]
  rw [String.toList_append, String.toList_append, toList_componentText (c := 'D') hD rfl, DayTimeLiteral.chars,
    DayTimeLiteral.body, hsign]
  cases seconds.isNegative <;> by_cases hnil : l.clock = [] <;> simp [hnil, hclock]

/-- A number of seconds whose units are split off exactly is written as a literal in range, which has its value. -/
theorem exists_literal {seconds : Decimal} (hsplit : SplitsExactly seconds) :
    ∃ l : DayTimeLiteral, l.Valid ∧ (dayTimeText seconds).toList = l.chars ∧
      l.negative = seconds.isNegative ∧ l.days = seconds.coefficient.natAbs / (86400 * 10 ^ seconds.scale) ∧
      l.fraction.length ≤ seconds.scale ∧
      l.total * 10 ^ seconds.scale = seconds.coefficient.natAbs * 10 ^ l.fraction.length := by
  by_cases hne : seconds.coefficient = 0
  · -- of a zero, the seconds are written
    have hzero : seconds.isZero = true := by simpa [isZero] using hne
    refine ⟨⟨false, 0, 0, 0, some (['0'], [])⟩, ⟨by decide, by decide, by decide, by decide, nofun, by decide⟩,
      ?_, ?_, ?_, Nat.zero_le _, ?_⟩
    · rw [dayTimeText, if_pos hzero]
      rfl
    · simp [isNegative, hne]
    · simp [hne]
    · rw [hne]
      simp [DayTimeLiteral.total, DayTimeLiteral.whole, DayTimeLiteral.fraction, digitsValue, digitValue]
  obtain ⟨days, left₁, hours, left₂, minutes, left₃, hdays, hhours, hminutes, hD, hH, hM, hc, hs⟩ := splitUnits_eq hsplit
  have hpos : 0 < 10 ^ seconds.scale := by positivity
  obtain ⟨secs, htext, hnone, hsecs⟩ := toList_componentText_seconds hc hs (Nat.mod_lt _ (by positivity))
  have hsum := units_add_up seconds.coefficient.natAbs (10 ^ seconds.scale)
  have hnat : seconds.coefficient.natAbs ≠ 0 := Int.natAbs_ne_zero.mpr hne
  generalize seconds.coefficient.natAbs = n at *
  let l : DayTimeLiteral := ⟨seconds.isNegative, n / (86400 * 10 ^ seconds.scale),
    n % (86400 * 10 ^ seconds.scale) / (3600 * 10 ^ seconds.scale),
    n % (3600 * 10 ^ seconds.scale) / (60 * 10 ^ seconds.scale), secs⟩
  obtain ⟨hlt, hnumeral, hdigits, hlength, hvalue⟩ := hsecs l rfl
  have hvalid : l.Valid := by
    refine ⟨?_, ?_, hlt, hnumeral, hdigits, ?_⟩
    · refine Nat.div_lt_of_lt_mul ((Nat.mod_lt n (by positivity)).trans_eq ?_)
      ring
    · refine Nat.div_lt_of_lt_mul ((Nat.mod_lt n (by positivity)).trans_eq ?_)
      ring
    -- if nothing were written, the number would be zero
    · by_contra hempty
      rw [not_or, not_not, not_not] at hempty
      obtain ⟨hzero, hclock⟩ := hempty
      obtain ⟨hhour, hminute, hsecond⟩ := of_clock_eq_nil hclock
      change (86400 * l.days + 3600 * l.hours + 60 * l.minutes) * _ + _ = n at hsum
      rw [hzero, hhour, hminute, hnone hsecond] at hsum
      omega
  refine ⟨l, hvalid, toList_dayTimeText hne hdays hhours hminutes rfl hD hH hM htext, rfl, rfl, hlength, ?_⟩
  calc l.total * 10 ^ seconds.scale
      = (86400 * l.days + 3600 * l.hours + 60 * l.minutes) * 10 ^ seconds.scale * 10 ^ l.fraction.length +
        digitsValue (l.whole ++ l.fraction) * 10 ^ seconds.scale := by rw [DayTimeLiteral.total]; ring
    _ = ((86400 * l.days + 3600 * l.hours + 60 * l.minutes) * 10 ^ seconds.scale +
        n % (60 * 10 ^ seconds.scale)) * 10 ^ l.fraction.length := by rw [hvalue]; ring
    _ = n * 10 ^ l.fraction.length := by rw [hsum]

/-- A number below a fifth of the limit is split exactly. -/
theorem splitsExactly_of_lt {seconds : Decimal} (h : 5 * seconds.coefficient.natAbs < limit) :
    SplitsExactly seconds := by
  have hmod : ∀ d, 5 * (seconds.coefficient.natAbs % d) < limit := fun d =>
    lt_of_le_of_lt (Nat.mul_le_mul_left 5 (Nat.mod_le _ d)) h
  exact ⟨keepsWhole_of_lt (by positivity) h, keepsWhole_of_lt (by positivity) (hmod _),
    keepsWhole_of_lt (by positivity) (hmod _)⟩

/-- **Day-time durations are read back.** A number of seconds that is split exactly and has a signed 64-bit
number of days is written as a literal with hours below 24 and minutes and seconds below 60, and this is
read as an equal number. Numbers with a coefficient below a fifth of the limit are split exactly. -/
theorem readDayTime?_dayTimeText (seconds : Decimal) :
    (5 * seconds.coefficient.natAbs < 2 ^ 96 → SplitsExactly seconds) ∧
    (SplitsExactly seconds → seconds.coefficient.natAbs / (86400 * 10 ^ seconds.scale) < 2 ^ 63 →
      (∃ l : DayTimeLiteral, l.Valid ∧ (dayTimeText seconds).toList = l.chars) ∧
      ∃ v, readDayTime? (dayTimeText seconds).toList = some v ∧ v.sameValue seconds = true) := by
  refine ⟨splitsExactly_of_lt, fun hsplit hdays => ?_⟩
  obtain ⟨l, hvalid, htext, hnegative, hlday, hlength, htotal⟩ := exists_literal hsplit
  refine ⟨⟨l, hvalid, htext⟩, ?_⟩
  have hten : 0 < 10 ^ seconds.scale := by positivity
  have hfits : l.total < limit := by
    refine lt_of_le_of_lt (Nat.le_of_mul_le_mul_right ?_ hten) seconds.coefficient_lt
    rw [htotal]
    exact Nat.mul_le_mul_left _ (Nat.pow_le_pow_right (by decide) hlength)
  obtain ⟨v, hread, hvalue⟩ :=
    readDayTime?_chars hvalid (hlday ▸ hdays) (hlength.trans seconds.scale_le) hfits
  refine ⟨v, htext ▸ hread, (sameValue_iff v seconds).mpr ?_⟩
  have hsigned : (if l.negative then -(l.total : Int) else l.total) * 10 ^ seconds.scale =
      seconds.coefficient * 10 ^ l.fraction.length := by
    have hint : (l.total : Int) * 10 ^ seconds.scale = seconds.coefficient.natAbs * 10 ^ l.fraction.length := by
      exact_mod_cast htotal
    rw [← signed_natAbs seconds.coefficient, hnegative, isNegative]
    split
    · rw [Int.neg_mul, hint, Int.neg_mul]
    · exact hint
  refine Int.eq_of_mul_eq_mul_right (pow_ne_zero l.fraction.length (show (10 : Int) ≠ 0 by decide)) ?_
  calc v.coefficient * 10 ^ seconds.scale * 10 ^ l.fraction.length
      = v.coefficient * 10 ^ l.fraction.length * 10 ^ seconds.scale := by ring
    _ = (if l.negative then -(l.total : Int) else l.total) * 10 ^ seconds.scale * 10 ^ v.scale := by rw [hvalue]; ring
    _ = seconds.coefficient * 10 ^ v.scale * 10 ^ l.fraction.length := by rw [hsigned]; ring

/-- Minus a day, two hours, three minutes and four and a half seconds. -/
theorem readDayTime?_dayTimeText_negative :
    let seconds : Decimal := ⟨-937845, 1, by decide, by decide, false, nofun⟩
    dayTimeText seconds = "-P1DT2H3M4.5S" ∧ ∃ v, readDayTime? "-P1DT2H3M4.5S".toList = some v ∧
      v.sameValue seconds = true := by
  intro seconds
  obtain ⟨hsmall, hread⟩ := readDayTime?_dayTimeText seconds
  have htext : dayTimeText seconds = "-P1DT2H3M4.5S" := by decide +kernel
  rw [← htext]
  exact ⟨rfl, (hread (hsmall (by decide +kernel)) (by decide +kernel)).2⟩

/-- The quotient of `59.999999999999999999999999999` by `60` is rounded to one, so that a minute is written and
a negative number of seconds behind it, which is not read. -/
theorem readDayTime?_dayTimeText_carried :
    let seconds : Decimal := ⟨59999999999999999999999999999, 27, by decide, by decide, false, nofun⟩
    readDayTime? "PT59.999999999999999999999999999S".toList = some seconds ∧
      dayTimeText seconds = "PT1M-0.000000000000000000000000001S" ∧
      readDayTime? (dayTimeText seconds).toList = none := by
  decide +kernel

end LazyXPath.Calendar
