import LazyXPath.Calendar.Duration
import LazyXPath.Proofs.RoundTrip.Number

/-!
# Year-month durations are read back

A number of months is written as years and months, of which a zero is left out unless both are zero.
`readYearMonth?_yearMonthText` says that this text is read as the number of months, down to the least
signed 32-bit number, whose size is not one.

The reader of durations is taken apart once: behind the sign it reads two parts (`readDuration?_lead`), and of these one
component after the other (`readParts_eq_some_iff`).
-/

namespace LazyXPath.Calendar

open Text

/-! ### The two parts of a literal -/

/-- The sign and the `P` in front of a literal. -/
def lead (negative : Bool) : List Char := if negative then ['-', 'P'] else ['P']

/-- The front of a literal with the rest behind it. -/
theorem lead_append (negative : Bool) (body : List Char) :
    lead negative ++ body = if negative then '-' :: 'P' :: body else 'P' :: body := by
  cases negative <;> rfl

/-- Reads the parts before and behind the `T`. -/
def readParts (negative : Bool) (calendar clock : List Char) : Option DurationParts := do
  let (years, rest) := readComponent 'Y' calendar
  let (months, rest) := readComponent 'M' rest
  let (days, rest) := readComponent 'D' rest
  if !rest.isEmpty then none
  let fromYears := 12 * (← componentCount years)
  let total := fromYears + (← componentCount months)
  if !(fitsLong fromYears && fitsLong total) then none
  let day ← Decimal.ofInt? 86400
  let fromDays ← (← Decimal.ofInt? (← componentCount days)).mul? day
  let (seconds, hasClock) ← readClock fromDays clock
  let hasYearMonth := years.isSome || months.isSome
  let hasDayTime := days.isSome || hasClock
  if !(hasYearMonth || hasDayTime) then none
  return {
    months := if negative then -total else total
    seconds := if negative then -seconds else seconds
    hasYearMonth, hasDayTime }

/-- Behind sign and `P`, the text is read in one or two parts. -/
theorem readDuration?_lead (negative : Bool) (body : List Char) : readDuration? (lead negative ++ body) =
    match splitAtFirst 'T' body with
    | some (_, []) => none
    | some (calendar, clock) => readParts negative calendar clock
    | none => readParts negative body [] := by
  cases negative with
  | false | true =>
    unfold readDuration?
    show (some body).bind _ = _
    rw [Option.bind_some]
    beta_reduce
    rcases splitAtFirst 'T' body with _ | ⟨calendar, _ | ⟨c, clock⟩⟩ <;> rfl

/-- What the parts of a literal are read as, component by component. -/
inductive PartsRead (negative : Bool) (calendar clock : List Char) : DurationParts → Prop
  | intro {years months days : Option (List Char)} {rest₁ rest₂ : List Char} {y m n : Int}
      {day count start seconds : Decimal} {hasClock : Bool} :
      readComponent 'Y' calendar = (years, rest₁) → readComponent 'M' rest₁ = (months, rest₂) →
      readComponent 'D' rest₂ = (days, []) → componentCount years = some y → componentCount months = some m →
      (fitsLong (12 * y) && fitsLong (12 * y + m)) = true → Decimal.ofInt? 86400 = some day →
      componentCount days = some n → Decimal.ofInt? n = some count → count.mul? day = some start →
      readClock start clock = some (seconds, hasClock) →
      (years.isSome || months.isSome || (days.isSome || hasClock)) = true →
      PartsRead negative calendar clock {
        months := if negative then -(12 * y + m) else 12 * y + m
        seconds := if negative then -seconds else seconds
        hasYearMonth := years.isSome || months.isSome
        hasDayTime := days.isSome || hasClock }

/-- The parts are read exactly if each component is, one after the other. -/
theorem readParts_eq_some_iff {negative : Bool} {calendar clock : List Char} {p : DurationParts} :
    readParts negative calendar clock = some p ↔ PartsRead negative calendar clock p := by
  constructor
  · intro h
    unfold readParts at h
    generalize hY : readComponent 'Y' calendar = r at h
    obtain ⟨years, rest₁⟩ := r
    dsimp only at h
    generalize hM : readComponent 'M' rest₁ = r at h
    obtain ⟨months, rest₂⟩ := r
    dsimp only at h
    generalize hD : readComponent 'D' rest₂ = r at h
    obtain ⟨days, rest₃⟩ := r
    dsimp only at h
    split at h
    case isTrue => cases h
    case isFalse hend =>
      obtain rfl : rest₃ = [] := by simpa using hend
      obtain ⟨y, hy, h⟩ := Option.bind_eq_some_iff.mp h
      obtain ⟨m, hm, h⟩ := Option.bind_eq_some_iff.mp h
      split at h
      case isTrue => cases h
      case isFalse hmonths =>
        obtain ⟨day, hday, h⟩ := Option.bind_eq_some_iff.mp h
        obtain ⟨n, hn, h⟩ := Option.bind_eq_some_iff.mp h
        obtain ⟨count, hcount, h⟩ := Option.bind_eq_some_iff.mp h
        obtain ⟨start, hstart, h⟩ := Option.bind_eq_some_iff.mp h
        obtain ⟨⟨seconds, hasClock⟩, hclock, h⟩ := Option.bind_eq_some_iff.mp h
        split at h
        case isTrue => cases h
        case isFalse hsome =>
          cases h
          rw [Bool.not_eq_true', Bool.not_eq_false] at hmonths hsome
          exact .intro hY hM hD hy hm hmonths hday hn hcount hstart hclock hsome
  · rintro ⟨hY, hM, hD, hy, hm, hmonths, hday, hn, hcount, hstart, hclock, hsome⟩
    unfold readParts
    rw [hY]
    dsimp only
    rw [hM]
    dsimp only
    rw [hD]
    refine Option.bind_eq_some_iff.mpr ⟨_, hy, Option.bind_eq_some_iff.mpr ⟨_, hm, ?_⟩⟩
    rw [hmonths, if_neg (show ¬ (!true) = true by decide)]
    refine Option.bind_eq_some_iff.mpr ⟨_, hday, Option.bind_eq_some_iff.mpr ⟨_, hn, ?_⟩⟩
    refine Option.bind_eq_some_iff.mpr ⟨_, hcount, Option.bind_eq_some_iff.mpr ⟨_, hstart, ?_⟩⟩
    refine Option.bind_eq_some_iff.mpr ⟨_, hclock, ?_⟩
    dsimp only
    rw [hsome, if_neg (show ¬ (!true) = true by decide)]
    rfl

/-! ### Components -/

/-- Digits with a designator behind them, if there are any. -/
def digitsThen (ds : Option (List Char)) (designator : Char) : List Char := ds.elim [] (· ++ [designator])

section

variable {c d : Char} {rest : List Char}

/-- The digits of a text with something behind them that is none. -/
theorem readComponent_digits {ds : List Char} (hds : ∀ x ∈ ds, x.isDigit) (hd : d.isDigit = false) :
    readComponent c (ds ++ d :: rest) = if d = c then (some ds, rest) else (none, ds ++ d :: rest) := by
  have hend : NoDigit (d :: rest) := NoDigit.cons_iff.mpr hd
  simp [readComponent, takeWhile_isDigit hds hend]

variable {ds : Option (List Char)} (hds : ∀ cs ∈ ds, ∀ x ∈ cs, x.isDigit) (hd : d.isDigit = false)

include hds hd

/-- A component is read up to its designator. -/
theorem readComponent_digitsThen (hrest : readComponent d rest = (none, rest)) :
    readComponent d (digitsThen ds d ++ rest) = (ds, rest) := by
  cases ds with
  | none => exact hrest
  | some cs =>
    rw [digitsThen, Option.elim_some, List.append_assoc, List.singleton_append, readComponent_digits (hds cs rfl) hd,
      if_pos rfl]

/-- A component with another designator is passed over. -/
theorem readComponent_skip (hdc : d ≠ c) (hrest : readComponent c rest = (none, rest)) :
    readComponent c (digitsThen ds d ++ rest) = (none, digitsThen ds d ++ rest) := by
  cases ds with
  | none => exact hrest
  | some cs =>
    rw [digitsThen, Option.elim_some, List.append_assoc, List.singleton_append, readComponent_digits (hds cs rfl) hd,
      if_neg hdc]

end

/-- How a number of units is written, if there are any. -/
def component (k : Nat) (designator : Char) : List Char :=
  if k = 0 then [] else Nat.toDigits 10 k ++ [designator]

/-- What is read of it. -/
def componentDigits (k : Nat) : Option (List Char) :=
  if k = 0 then none else some (Nat.toDigits 10 k)

/-- A unit is written as digits with its designator, or not at all. -/
private theorem component_eq (k : Nat) (c : Char) : component k c = digitsThen (componentDigits k) c := by
  unfold component componentDigits digitsThen
  split <;> rfl

/-- It is left out if it is zero. -/
theorem componentDigits_eq_none {k : Nat} : componentDigits k = none ↔ k = 0 := by
  simp [componentDigits]

private theorem isDigit_componentDigits {k : Nat} : ∀ ds ∈ componentDigits k, ∀ x ∈ ds, x.isDigit := by
  intro ds hds x hx
  unfold componentDigits at hds
  split at hds
  · cases hds
  · cases hds
    exact isDigit_of_mem_toDigits hx

/-- A unit that has been written is read back. -/
theorem readComponent_component {c : Char} (hc : c.isDigit = false) (k : Nat) {rest : List Char}
    (hrest : readComponent c rest = (none, rest)) :
    readComponent c (component k c ++ rest) = (componentDigits k, rest) := by
  rw [component_eq]
  exact readComponent_digitsThen isDigit_componentDigits hc hrest

/-- A unit is not read with the designator of another one. -/
theorem readComponent_component_skip {c d : Char} (hd : d.isDigit = false) (hdc : d ≠ c) (k : Nat)
    {rest : List Char} (hrest : readComponent c rest = (none, rest)) :
    readComponent c (component k d ++ rest) = (none, component k d ++ rest) := by
  rw [component_eq]
  exact readComponent_skip isDigit_componentDigits hd hdc hrest

/-- A component with another designator is not read. -/
theorem readComponent_other {c d : Char} (hd : d.isDigit = false) (hdc : d ≠ c) (k : Nat) :
    readComponent c (component k d) = (none, component k d) := by
  have hskip := readComponent_component_skip hd hdc k (show readComponent c [] = (none, []) from rfl)
  rwa [List.append_nil] at hskip

/-- The digits of a 64-bit number of units count this number. -/
theorem componentCount_componentDigits {k : Nat} (hk : fitsLong k = true) :
    componentCount (componentDigits k) = some (k : Int) := by
  by_cases h : k = 0
  · simp [componentDigits, h, componentCount]
  · simp [componentDigits, h, componentCount, isNumeral_toDigits, hk]

/-! ### Years and months -/

/-- Without days and a clock the seconds are counted all the same, from zero days. -/
theorem readClock_nil : ∃ day zero fromDays seconds, Decimal.ofInt? 86400 = some day ∧
    Decimal.ofInt? 0 = some zero ∧ zero.mul? day = some fromDays ∧
    readClock fromDays [] = some (seconds, false) :=
  ⟨_, _, _, _, rfl, rfl, rfl, rfl⟩

/-- A literal of years and months only, from the readings of its two components. -/
theorem readDuration?_calendar (negative : Bool) {calendar rest : List Char}
    {years months : Option (List Char)} {y m : Int} (hT : 'T' ∉ calendar)
    (hY : readComponent 'Y' calendar = (years, rest)) (hM : readComponent 'M' rest = (months, []))
    (hy : componentCount years = some y) (hm : componentCount months = some m)
    (hfits : fitsLong (12 * y) = true ∧ fitsLong (12 * y + m) = true)
    (hsome : years = none → ¬ months = none) :
    ∃ parts, readDuration? (if negative then '-' :: 'P' :: calendar else 'P' :: calendar) = some parts ∧
      parts.months = (if negative then -(12 * y + m) else 12 * y + m) ∧ parts.hasDayTime = false := by
  obtain ⟨day, zero, fromDays, seconds, hday, hzero, hfrom, hclock⟩ := readClock_nil
  have hD : readComponent 'D' [] = (none, []) := rfl
  have hdays : componentCount none = some 0 := rfl
  have hpresent : (years.isSome || months.isSome || (Option.isSome (none : Option (List Char)) || false)) = true := by
    cases years <;> cases months <;> simp_all
  refine ⟨⟨if negative then -(12 * y + m) else 12 * y + m, if negative then -seconds else seconds,
    years.isSome || months.isSome, false⟩, ?_, rfl, rfl⟩
  rw [← lead_append, readDuration?_lead, splitAtFirst_eq_none hT]
  exact readParts_eq_some_iff.mpr
    (.intro hY hM hD hy hm (Bool.and_eq_true_iff.mpr hfits) hday hdays hzero hfrom hclock hpresent)

/-- A number of months is written as a sign, years and months. -/
private theorem toList_yearMonthText {months : Int} (h : months ≠ 0) : (yearMonthText months).toList =
    if decide (months < 0)
    then '-' :: 'P' :: (component (months.natAbs / 12) 'Y' ++ component (months.natAbs % 12) 'M')
    else 'P' :: (component (months.natAbs / 12) 'Y' ++ component (months.natAbs % 12) 'M') := by
  unfold yearMonthText component
  simp only [h, if_false]
  by_cases hneg : months < 0 <;> by_cases hy : months.natAbs / 12 = 0 <;>
    by_cases hm : months.natAbs % 12 = 0 <;> simp [hneg, hy, hm]

/-- Every signed 32-bit number of months is read back, the least one included. -/
theorem readYearMonth?_yearMonthText {months : Int} (h : fitsInt months = true) :
    readYearMonth? (yearMonthText months).toList = some months := by
  by_cases hzero : months = 0
  · subst hzero
    decide +kernel
  have hbounds : -2147483648 ≤ months ∧ months < 2147483648 := by simpa [fitsInt] using h
  -- the sizes go up to 2 ^ 31, which components can hold
  have fits : ∀ k : Int, 0 ≤ k → k ≤ 2147483648 → fitsLong k = true := by
    intro k hk hk'
    simp only [fitsLong, Bool.and_eq_true, decide_eq_true_eq, Nat.pow_eq, Nat.reducePow]
    omega
  have hparts : 12 * ((months.natAbs / 12 : Nat) : Int) + (months.natAbs % 12 : Nat) = months.natAbs := by
    omega
  -- a `T` would begin a clock
  have hT : 'T' ∉ component (months.natAbs / 12) 'Y' ++ component (months.natAbs % 12) 'M' := by
    have hdigits : ∀ k, 'T' ∉ Nat.toDigits 10 k :=
      fun k hmem => absurd (isDigit_of_mem_toDigits hmem) (by decide)
    unfold component
    split <;> split <;> simp [hdigits]
  have hY := readComponent_component (c := 'Y') (by decide) (months.natAbs / 12)
    (readComponent_other (d := 'M') (by decide) (by decide) (months.natAbs % 12))
  have hend : readComponent 'M' [] = (none, []) := rfl
  have hM := readComponent_component (by decide) (months.natAbs % 12) hend
  rw [List.append_nil] at hM
  obtain ⟨parts, hread, hmonths, hday⟩ := readDuration?_calendar (decide (months < 0)) hT hY hM
    (componentCount_componentDigits (fits _ (by omega) (by omega)))
    (componentCount_componentDigits (fits _ (by omega) (by omega)))
    ⟨fits _ (by omega) (by omega), fits _ (by omega) (by omega)⟩
    (by simp only [componentDigits_eq_none]; omega)
  rw [hparts, signed_natAbs] at hmonths
  rw [toList_yearMonthText hzero, readYearMonth?, hread]
  simp [hmonths, hday, h]

/-- What is read is a signed 32-bit number of months. -/
theorem fitsInt_of_readYearMonth? {cs : List Char} {months : Int}
    (h : readYearMonth? cs = some months) : fitsInt months = true := by
  simp only [readYearMonth?, Option.bind_eq_bind, Option.bind_eq_some_iff] at h
  obtain ⟨parts, -, h⟩ := h
  split at h
  case isTrue hfits =>
    cases h
    exact (Bool.and_eq_true_iff.mp hfits).2
  case isFalse => exact nomatch h

private theorem solid_component (k : Nat) {c : Char} (hc : isBlank c = false) : Solid (component k c) := by
  have hdigits : Solid (Nat.toDigits 10 k) := .of_isDigit fun _ => isDigit_of_mem_toDigits
  unfold component
  split <;> simp [hdigits, hc]

theorem solid_yearMonthText (months : Int) : Solid (yearMonthText months).toList := by
  have hP : isBlank 'P' = false := by decide
  have hminus : isBlank '-' = false := by decide
  by_cases h : months = 0
  · subst h
    have htext : (yearMonthText 0).toList = ['P', '0', 'M'] := rfl
    rw [htext]
    simp only [Solid.cons_iff, Solid.nil, and_true]
    decide
  · rw [toList_yearMonthText h]
    split <;> simp [hP, hminus, solid_component _ (show isBlank 'Y' = false by decide),
      solid_component _ (show isBlank 'M' = false by decide)]

end LazyXPath.Calendar
