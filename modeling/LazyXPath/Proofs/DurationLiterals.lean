import LazyXPath.Proofs.DurationLiterals.Sum

/-!
# The literals of durations

A text is read as a duration if and only if it is a literal whose components are in range, and what is read are then the
numbers of months and of seconds that it stands for (`duration_literals`). Seconds are exact with up to 28 places. Digits
behind the 28th place are rounded, even where they are the only ones (`readDuration?_lastPlaceLost`).
-/

namespace LazyXPath.Calendar

open Decimal Numeral

/-! ### Reading -/

section

variable {text : List Char}

private theorem isSome_readDuration?_iff :
    (readDuration? text).isSome ↔ ∃ l : DurationLiteral, text = l.chars ∧ l.InRange := by
  rw [Option.isSome_iff_exists]
  constructor
  · rintro ⟨p, hp⟩
    obtain ⟨l, v, htext, hcounts, hsum, -⟩ := readDuration?_eq_some_iff.mp hp
    exact ⟨l, htext, DurationLiteral.inRange_iff.mpr ⟨hcounts, v, hsum⟩⟩
  · rintro ⟨l, htext, hrange⟩
    obtain ⟨hcounts, v, hsum⟩ := DurationLiteral.inRange_iff.mp hrange
    exact ⟨l.parts v, readDuration?_eq_some_iff.mpr ⟨l, v, htext, hcounts, hsum, rfl⟩⟩

/-- What is read of a literal is read of its components. -/
theorem eq_parts_of_readDuration? {l : DurationLiteral} {p : DurationParts} (h : readDuration? l.chars = some p) :
    ∃ v, p = l.parts v ∧ l.CountsFit ∧ l.SumsTo v := by
  obtain ⟨l', v, hchars, hcounts, hsum, rfl⟩ := readDuration?_eq_some_iff.mp h
  obtain rfl := DurationLiteral.chars_injective hchars
  exact ⟨v, rfl, hcounts, hsum⟩

private theorem readYearMonth?_eq_some_iff {m : Int} : readYearMonth? text = some m ↔
    ∃ l : DurationLiteral, text = l.chars ∧ l.hasDayTime = false ∧ l.monthNumber = m ∧ -2 ^ 31 ≤ m ∧ m < 2 ^ 31 := by
  have hfits : fitsInt m = true ↔ -2 ^ 31 ≤ m ∧ m < 2 ^ 31 := by
    rw [fitsInt, Bool.and_eq_true, decide_eq_true_eq, decide_eq_true_eq]
    rfl
  constructor
  · intro h
    obtain ⟨p, hp, h⟩ := Option.bind_eq_some_iff.mp h
    split at h
    case isTrue hif =>
      cases h
      rw [Bool.and_eq_true, Bool.not_eq_true', hfits] at hif
      obtain ⟨l, v, htext, -, -, rfl⟩ := readDuration?_eq_some_iff.mp hp
      exact ⟨l, htext, hif.1, rfl, hif.2⟩
    case isFalse => cases h
  · rintro ⟨l, rfl, hdayTime, rfl, hrange⟩
    have hmonths : l.monthCount < 2 ^ 63 := by
      rw [← l.natAbs_monthNumber]
      omega
    obtain ⟨p, hp⟩ := Option.isSome_iff_exists.mp
      (isSome_readDuration?_iff.mpr ⟨l, rfl, DurationLiteral.inRange_of_months hdayTime hmonths⟩)
    obtain ⟨v, rfl, -⟩ := eq_parts_of_readDuration? hp
    refine Option.bind_eq_some_iff.mpr ⟨_, hp, if_pos ?_⟩
    rw [Bool.and_eq_true, Bool.not_eq_true']
    exact ⟨hdayTime, hfits.mpr hrange⟩

private theorem readDayTime?_eq_some_iff {v : Decimal} : readDayTime? text = some v ↔
    ∃ p, readDuration? text = some p ∧ p.hasYearMonth = false ∧ p.seconds = v := by
  constructor
  · intro h
    obtain ⟨p, hp, h⟩ := Option.bind_eq_some_iff.mp h
    split at h
    case isTrue => cases h
    case isFalse hyearMonth =>
      cases h
      exact ⟨p, hp, Bool.eq_false_of_not_eq_true hyearMonth, rfl⟩
  · rintro ⟨p, hp, hyearMonth, rfl⟩
    refine Option.bind_eq_some_iff.mpr ⟨p, hp, if_neg ?_⟩
    rw [hyearMonth]
    decide

end

/-- **Duration literals** are read exactly. A text is read if and only if it is a literal whose components are in range,
and what is read is then the number of its months and, if a coefficient below the limit and up to 28 places are enough
for it, the number of its seconds. The product of the days, which is not checked, never overflows. A literal with
components of one kind only is read as a number of months, of 32 bits, or as a number of seconds. -/
theorem duration_literals (text : List Char) :
    ((readDuration? text).isSome ↔ ∃ l : DurationLiteral, text = l.chars ∧ l.InRange) ∧
    (∀ (l : DurationLiteral) (p : DurationParts), text = l.chars → readDuration? text = some p →
      p.months = l.monthNumber ∧ p.months.natAbs < 2 ^ 63 ∧ p.hasYearMonth = l.hasYearMonth ∧
      p.hasDayTime = l.hasDayTime ∧ (l.IsExact → p.seconds.value = l.secondNumber)) ∧
    (∀ ds days, componentCount ds = some days →
      ∃ n day product, ofInt? days = some n ∧ ofInt? 86400 = some day ∧ n.mul? day = some product) ∧
    (∀ m, readYearMonth? text = some m ↔
      ∃ l : DurationLiteral, text = l.chars ∧ l.hasDayTime = false ∧ l.monthNumber = m ∧ -2 ^ 31 ≤ m ∧ m < 2 ^ 31) ∧
    ((readDayTime? text).isSome ↔ ∃ l : DurationLiteral, text = l.chars ∧ l.InRange ∧ l.hasYearMonth = false) ∧
    ∀ (l : DurationLiteral) (v : Decimal), text = l.chars → readDayTime? text = some v → l.IsExact →
      v.value = l.secondNumber := by
  refine ⟨isSome_readDuration?_iff, ?parts, ?product, fun m => readYearMonth?_eq_some_iff, ?accepted, ?value⟩
  case parts =>
    rintro l p rfl hp
    obtain ⟨v, rfl, hcounts, hsum⟩ := eq_parts_of_readDuration? hp
    exact ⟨rfl, l.natAbs_monthNumber.trans_lt hcounts.1, rfl, rfl, fun h => l.seconds_parts (hsum.value_eq hcounts.2 h)⟩
  case product =>
    intro ds days h
    obtain ⟨n, rfl⟩ := exists_numeral_of_componentCount h
    obtain ⟨hdays, rfl⟩ := componentCount_digits.mp h
    obtain ⟨day, k, product, hday, hk, hproduct, -⟩ := exists_mul?_day hdays
    exact ⟨k, day, product, hk, hday, hproduct⟩
  case accepted =>
    rw [Option.isSome_iff_exists]
    constructor
    · rintro ⟨v, hv⟩
      obtain ⟨p, hp, hyearMonth, -⟩ := readDayTime?_eq_some_iff.mp hv
      obtain ⟨l, rfl, hrange⟩ := isSome_readDuration?_iff.mp (Option.isSome_of_eq_some hp)
      obtain ⟨w, rfl, -⟩ := eq_parts_of_readDuration? hp
      exact ⟨l, rfl, hrange, hyearMonth⟩
    · rintro ⟨l, rfl, hrange, hyearMonth⟩
      obtain ⟨p, hp⟩ := Option.isSome_iff_exists.mp (isSome_readDuration?_iff.mpr ⟨l, rfl, hrange⟩)
      obtain ⟨w, rfl, -⟩ := eq_parts_of_readDuration? hp
      exact ⟨_, readDayTime?_eq_some_iff.mpr ⟨_, hp, hyearMonth, rfl⟩⟩
  case value =>
    rintro l v rfl hv h
    obtain ⟨p, hp, -, rfl⟩ := readDayTime?_eq_some_iff.mp hv
    obtain ⟨w, rfl, hcounts, hsum⟩ := eq_parts_of_readDuration? hp
    exact l.seconds_parts (hsum.value_eq hcounts.2 h)

/-- The literal `-P3DT4H5M6.7S`. -/
def negativeTenths : DurationLiteral where
  negative := true
  years := none
  months := none
  days := some ⟨['3'], rfl⟩
  hours := some ⟨['4'], rfl⟩
  minutes := some ⟨['5'], rfl⟩
  seconds := some ⟨⟨['6'], rfl⟩, some ⟨['7'], rfl⟩⟩
  nonempty := rfl

private theorem total_negativeTenths : negativeTenths.total = 2739067 / 10 := by
  have hseconds : secondsValue negativeTenths.seconds = (67 : Nat) / 10 ^ 1 := rfl
  have hwhole : negativeTenths.wholeSeconds = 273900 := rfl
  rw [DurationLiteral.total, hseconds, hwhole]
  norm_num

theorem duration_literals_tenths : ∃ p v, readDuration? "-P3DT4H5M6.7S".toList = some p ∧ p.months = 0 ∧
    p.hasYearMonth = false ∧ p.hasDayTime = true ∧ p.seconds.value = -(2739067 / 10) ∧
    readDayTime? "-P3DT4H5M6.7S".toList = some v ∧ v.value = -(2739067 / 10) := by
  have hexact : negativeTenths.IsExact := by
    refine ⟨2739067, 1, by decide, by decide, ?_⟩
    rw [total_negativeTenths]
    norm_num
  have hnumber : negativeTenths.secondNumber = -(2739067 / 10) := congrArg Neg.neg total_negativeTenths
  have hrange : negativeTenths.InRange := hexact.inRange (by decide) (by decide)
  obtain ⟨haccepted, hparts, -, -, haccepted', hvalue⟩ := duration_literals "-P3DT4H5M6.7S".toList
  obtain ⟨p, hp⟩ := Option.isSome_iff_exists.mp (haccepted.mpr ⟨negativeTenths, rfl, hrange⟩)
  obtain ⟨v, hv⟩ := Option.isSome_iff_exists.mp (haccepted'.mpr ⟨negativeTenths, rfl, hrange, rfl⟩)
  obtain ⟨hmonths, -, hyearMonth, hdayTime, hseconds⟩ := hparts negativeTenths p rfl hp
  exact ⟨p, v, hp, hmonths, hyearMonth, hdayTime, (hseconds hexact).trans hnumber, hv,
    (hvalue negativeTenths v rfl hv hexact).trans hnumber⟩

/-- The literal `PT0.00000000000000000000000000001S`, with one significant digit at the 29th place. -/
def lastPlaceLost : DurationLiteral where
  negative := false
  years := none
  months := none
  days := none
  hours := none
  minutes := none
  seconds := some ⟨⟨['0'], rfl⟩, some ⟨List.replicate 28 '0' ++ ['1'], rfl⟩⟩
  nonempty := rfl

/-- A single significant digit that is behind the 28th place is lost. -/
theorem readDuration?_lastPlaceLost : lastPlaceLost.chars = "PT0.00000000000000000000000000001S".toList ∧
    lastPlaceLost.wholeSeconds = 0 ∧ lastPlaceLost.secondNumber = 1 / 10 ^ 29 ∧
    ∃ p, readDuration? "PT0.00000000000000000000000000001S".toList = some p ∧ p.seconds.value = 0 := by
  have hseconds : secondsValue lastPlaceLost.seconds = (1 : Nat) / 10 ^ 29 := rfl
  have hread :
      (readDuration? "PT0.00000000000000000000000000001S".toList).map (fun p => p.seconds.coefficient) = some 0 := rfl
  obtain ⟨p, hp, hzero⟩ := Option.map_eq_some_iff.mp hread
  refine ⟨rfl, rfl, ?_, p, hp, value_eq_zero_iff.mpr hzero⟩
  change ((0 : Nat) : ℚ) + secondsValue lastPlaceLost.seconds = _
  rw [hseconds, Nat.cast_zero, zero_add, Nat.cast_one]

end LazyXPath.Calendar
