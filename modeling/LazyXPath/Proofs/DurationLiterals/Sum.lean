import LazyXPath.Proofs.DurationLiterals.Reading

/-!
# The sum of the components of a duration

The components of a duration are added as decimals. All but the seconds are natural numbers, and so is each sum of them
(`Decimal.IsWhole`). A natural number is lost only at the limit of coefficients, so only the last sum depends on what
seconds are rounded to. It is exact if it is a decimal.
-/

namespace LazyXPath.Calendar

open Decimal Numeral

/-! ### Components -/

private theorem isWhole_of_ofDigits? {ws : List Char} {d : Decimal} (h : ofDigits? false ws [] = some d) :
    d.IsWhole (digitsValue ws) := by
  obtain ⟨-, m, t, hread, hm, ht⟩ := readFraction_of_ofDigits? h
  cases hread
  exact ⟨hm, ht⟩

/-- The number of seconds of a component that is a number of units. -/
theorem isWhole_componentSeconds {u : Nat} {n : Option Numeral} {d : Decimal} (hu : u < limit)
    (h : componentSeconds u (digits n) = some d) : d.IsWhole (u * count n) := by
  cases n with
  | none =>
    cases h
    exact .zero
  | some n =>
    obtain ⟨unit, hunit, hwhole⟩ := IsWhole.ofInt? hu
    simp only [componentSeconds, digits, Option.map_some, n.isNumeral, hunit, Bool.not_true, Bool.false_eq_true, if_false,
      Option.bind_eq_bind, Option.bind_some, Option.bind_eq_some_iff] at h
    obtain ⟨k, hk, hmul⟩ := h
    have hk' := isWhole_of_ofDigits? hk
    obtain ⟨c, hc, hproduct⟩ := hk'.mul? hwhole (hk'.lt_of_mul? hwhole hmul)
    rw [hmul] at hc
    cases hc
    rw [Nat.mul_comm]
    exact hproduct

private theorem exists_componentSeconds {u : Nat} {n : Option Numeral} (hpos : 0 < u) (hu : u < limit)
    (h : u * count n < limit) :
    ∃ d, componentSeconds u (digits n) = some d ∧ d.IsWhole (u * count n) := by
  cases n with
  | none => exact ⟨_, rfl, .zero⟩
  | some n =>
    rw [Nat.mul_comm] at h ⊢
    exact componentSeconds_some n.isNumeral ((Nat.le_mul_of_pos_right _ hpos).trans_lt h) hu h

/-- The sum of natural numbers, if it is not lost. -/
theorem isWhole_of_add? {a b c : Decimal} {m n : Nat} (ha : a.IsWhole m) (hb : b.IsWhole n)
    (h : a.add? b = some c) :
    c.IsWhole (m + n) := by
  obtain ⟨c', hc', hwhole⟩ := ha.add? hb (ha.lt_of_add? hb h)
  rw [h] at hc'
  cases hc'
  exact hwhole

/-- What is left of a decimal without a natural number is one. -/
theorem exists_decimal_sub {p : Decimal} {m : Nat} {x : ℚ} (hx : 0 ≤ x) (h : p.value = m + x) :
    ∃ q : Decimal, q.value = x := by
  have hten : (0 : ℚ) < 10 ^ p.scale := by positivity
  have hx' : x = ((p.coefficient - m * 10 ^ p.scale : Int) : ℚ) / 10 ^ p.scale := by
    have hvalue : x = p.coefficient / 10 ^ p.scale - m := eq_sub_of_add_eq' h.symm
    rw [hvalue]
    push_cast
    field_simp
  have hnonneg : 0 ≤ p.coefficient - m * 10 ^ p.scale := by
    rw [hx', le_div_iff₀ hten, zero_mul] at hx
    exact_mod_cast hx
  have hlt : p.coefficient.natAbs < limit := p.coefficient_lt
  have hsub : (0 : Int) ≤ m * 10 ^ p.scale := by positivity
  obtain ⟨q, hq, -⟩ := mk?_eq (c := p.coefficient - m * 10 ^ p.scale) (s := p.scale) (by omega) p.scale_le
  exact ⟨q, (value_of_mk? hq).trans hx'.symm⟩

/-! ### Seconds -/

private theorem secondsValue_whole (n : Numeral) : secondsValue (some ⟨n, none⟩) = n.value := by
  have hvalue : secondsValue (some ⟨n, none⟩) = (digitsValue (n.chars ++ []) : ℚ) / 10 ^ 0 := rfl
  rw [hvalue, List.append_nil, pow_zero, div_one, Numeral.value]

private theorem secondsValue_nonneg (seconds : Option SecondsNumeral) : 0 ≤ secondsValue seconds := by
  cases seconds with
  | none => exact le_rfl
  | some s => exact div_nonneg (Nat.cast_nonneg _) (by positivity)

private theorem secondsDecimal?_nonneg {seconds : Option SecondsNumeral} {s : Decimal}
    (h : secondsDecimal? seconds = some s) :
    0 ≤ s.value := by
  cases seconds with
  | none =>
    cases h
    exact IsWhole.zero.value_eq.ge
  | some _ => exact div_nonneg (Int.cast_nonneg (ofDigits?_nonneg h)) (by positivity)

/-- The digits of seconds are lost only if their number does not fit. -/
theorem exists_secondsDecimal?_iff (seconds : Option SecondsNumeral) :
    (∃ s, secondsDecimal? seconds = some s) ↔ Fits (secondsValue seconds) := by
  cases seconds with
  | none => exact iff_of_true ⟨_, rfl⟩ fits_zero
  | some s =>
    have hiff := exists_ofDigits?_iff s.whole.chars s.isDigit_places
    rwa [Nat.cast_pow, Nat.cast_ofNat] at hiff

/-- The digits of seconds are exact if their number is a decimal. -/
theorem value_of_secondsDecimal? {seconds : Option SecondsNumeral} {s : Decimal}
    (hdecimal : ∃ q : Decimal, q.value = secondsValue seconds) (hs : secondsDecimal? seconds = some s) :
    s.value = secondsValue seconds := by
  cases seconds with
  | none =>
    cases hs
    exact IsWhole.zero.value_eq.trans Nat.cast_zero
  | some n =>
    obtain ⟨s', hs', hvalue⟩ := ofDigits?_value n.whole.chars n.isDigit_places hdecimal
    obtain rfl : s' = s := Option.some.inj (hs'.symm.trans hs)
    exact hvalue

section

variable {t v : Decimal} {m : Nat} {seconds : Option SecondsNumeral} (ht : t.IsWhole m)

include ht

private theorem exists_add?_zero : ∃ t', t.add? .zero = some t' ∧ t'.IsWhole m := ht.add? .zero ht.lt_limit

/-- Seconds without a point are added as a natural number, and others behind the point. -/
theorem SecondsSum.cases (h : SecondsSum t seconds v) :
    seconds = none ∧ v.IsWhole m ∨ (∃ n : Numeral, seconds = some ⟨n, none⟩ ∧ v.IsWhole (m + n.value)) ∨
      ∃ (n f : Numeral) (t' b : Decimal), seconds = some ⟨n, some f⟩ ∧ t'.IsWhole m ∧
        ofDigits? false n.chars f.chars = some b ∧ t'.add? b = some v := by
  obtain ⟨a, t', b, ha, ht', hb, hv⟩ := h
  rcases seconds with _ | ⟨n, _ | f⟩
  · cases ha
    cases hb
    exact .inl ⟨rfl, isWhole_of_add? (isWhole_of_add? ht .zero ht') .zero hv⟩
  · cases hb
    have hn := isWhole_componentSeconds (n := some n) (by decide) ha
    rw [Nat.one_mul] at hn
    have hsum : t'.IsWhole (m + n.value) := isWhole_of_add? ht hn ht'
    have hwhole := isWhole_of_add? hsum .zero hv
    exact .inr (.inl ⟨n, rfl, hwhole⟩)
  · cases ha
    have hdigits := (fractionalSeconds_numerals n f).symm.trans hb
    exact .inr (.inr ⟨n, f, t', b, rfl, isWhole_of_add? ht .zero ht', hdigits, hv⟩)

private theorem SecondsSum.fits (h : SecondsSum t seconds v) :
    ∃ s, secondsDecimal? seconds = some s ∧ Fits (m + s.value) := by
  obtain ⟨rfl, hv⟩ | ⟨n, rfl, hv⟩ | ⟨n, f, t', b, rfl, ht', hb, hv⟩ := h.cases ht
  · refine ⟨.zero, rfl, ?_⟩
    rw [IsWhole.zero.value_eq, ← Nat.cast_add]
    exact fits_natCast.mpr hv.lt_limit
  · have hn : n.value < limit := (Nat.le_add_left _ m).trans_lt hv.lt_limit
    rw [← fits_natCast, ← secondsValue_whole] at hn
    obtain ⟨s, hs⟩ := (exists_secondsDecimal?_iff _).mpr hn
    refine ⟨s, hs, ?_⟩
    rw [(isWhole_of_ofDigits? hs).value_eq, ← Nat.cast_add]
    exact fits_natCast.mpr hv.lt_limit
  · refine ⟨b, hb, ?_⟩
    rw [← ht'.value_eq]
    exact (exists_add?_iff ht'.coefficient_nonneg (ofDigits?_nonneg hb)).mp ⟨v, hv⟩

private theorem SecondsSum.value_eq (h : SecondsSum t seconds v)
    (hp : ∃ p : Decimal, p.value = m + secondsValue seconds) :
    v.value = m + secondsValue seconds := by
  obtain ⟨p, hp⟩ := hp
  obtain ⟨rfl, hv⟩ | ⟨n, rfl, hv⟩ | ⟨n, f, t', b, rfl, ht', hb, hv⟩ := h.cases ht
  · exact hv.value_eq.trans (add_zero _).symm
  · rw [hv.value_eq, Nat.cast_add, secondsValue_whole]
  · -- the seconds are what is left of the sum, so that neither they nor the sum are rounded
    have hvalue := value_of_secondsDecimal? (exists_decimal_sub (secondsValue_nonneg _) hp) hb
    have hsum : t'.value + b.value = m + secondsValue (some ⟨n, some f⟩) := by rw [ht'.value_eq, hvalue]
    obtain ⟨v', hv', hvvalue⟩ := add?_value ⟨p, hp.trans hsum.symm⟩
    obtain rfl : v = v' := Option.some.inj (hv.symm.trans hv')
    exact hvvalue.trans hsum

private theorem exists_secondsSum {s : Decimal} (hs : secondsDecimal? seconds = some s)
    (hfits : Fits (m + s.value)) :
    ∃ v, SecondsSum t seconds v := by
  obtain ⟨t', ht', hwhole⟩ := exists_add?_zero ht
  rcases seconds with _ | ⟨n, _ | f⟩
  · obtain ⟨v, hv, -⟩ := exists_add?_zero hwhole
    exact ⟨v, .zero, t', .zero, rfl, ht', rfl, hv⟩
  · rw [(isWhole_of_ofDigits? hs).value_eq, ← Nat.cast_add, fits_natCast] at hfits
    have hn : 1 * count (some n) < limit := by
      rw [Nat.one_mul]
      exact (Nat.le_add_left _ m).trans_lt hfits
    obtain ⟨a, ha, hawhole⟩ := exists_componentSeconds Nat.one_pos (by decide) hn
    obtain ⟨u, hu, huwhole⟩ := ht.add? hawhole (by rw [Nat.one_mul]; exact hfits)
    obtain ⟨v, hv, -⟩ := exists_add?_zero huwhole
    exact ⟨v, a, u, .zero, ha, hu, rfl, hv⟩
  · rw [← hwhole.value_eq] at hfits
    obtain ⟨v, hv⟩ := (exists_add?_iff hwhole.coefficient_nonneg (ofDigits?_nonneg hs)).mpr hfits
    exact ⟨v, .zero, t', s, rfl, ht', (fractionalSeconds_numerals n f).trans hs, hv⟩

end

/-! ### Clocks -/

section

variable {start v : Decimal} {m : Nat} {hours minutes : Option Numeral} {seconds : Option SecondsNumeral}

/-- Hours and minutes are added as natural numbers. -/
theorem ClockSum.exists_secondsSum (hstart : start.IsWhole m) (h : ClockSum start hours minutes seconds v) :
    ∃ t : Decimal, t.IsWhole (m + 3600 * count hours + 60 * count minutes) ∧ SecondsSum t seconds v := by
  obtain ⟨h', t₁, n, t₂, hh, ht₁, hn, ht₂, hsum⟩ := h
  have hhours := isWhole_componentSeconds (u := 3600) (by decide) hh
  have hminutes := isWhole_componentSeconds (u := 60) (by decide) hn
  exact ⟨t₂, isWhole_of_add? (isWhole_of_add? hstart hhours ht₁) hminutes ht₂, hsum⟩

private theorem exists_clockSum (hstart : start.IsWhole m)
    (hlt : m + 3600 * count hours + 60 * count minutes < limit)
    (h : ∀ t : Decimal, t.IsWhole (m + 3600 * count hours + 60 * count minutes) → ∃ v, SecondsSum t seconds v) :
    ∃ v, ClockSum start hours minutes seconds v := by
  have hlt₁ : m + 3600 * count hours < limit := (Nat.le_add_right _ _).trans_lt hlt
  obtain ⟨h', hh, hhours⟩ := exists_componentSeconds (u := 3600) (n := hours) (by decide) (by decide)
    ((Nat.le_add_left _ _).trans_lt hlt₁)
  obtain ⟨t₁, ht₁, hwhole₁⟩ := hstart.add? hhours hlt₁
  obtain ⟨n, hn, hminutes⟩ := exists_componentSeconds (u := 60) (n := minutes) (by decide) (by decide)
    ((Nat.le_add_left _ _).trans_lt hlt)
  obtain ⟨t₂, ht₂, hwhole₂⟩ := hwhole₁.add? hminutes hlt
  obtain ⟨v, hv⟩ := h t₂ hwhole₂
  exact ⟨v, h', t₁, n, t₂, hh, ht₁, hn, ht₂, hv⟩

end

/-! ### Literals -/

/-- The number of seconds in days whose count is a signed 64-bit number is a decimal. -/
theorem exists_mul?_day {k : Nat} (hk : k < 2 ^ 63) : ∃ day n start, ofInt? 86400 = some day ∧ ofInt? k = some n ∧
    n.mul? day = some start ∧ start.IsWhole (86400 * k) := by
  have hk' : k < 9223372036854775808 := hk
  obtain ⟨day, hday, hdaywhole⟩ := IsWhole.ofInt? (n := 86400) (by decide)
  obtain ⟨n, hn, hnwhole⟩ := IsWhole.ofInt? (n := k) (by rw [limit_eq]; omega)
  obtain ⟨start, hstart, hwhole⟩ := hnwhole.mul? hdaywhole (by rw [limit_eq]; omega)
  rw [Nat.mul_comm] at hwhole
  exact ⟨day, n, start, hday, hn, hstart, hwhole⟩

namespace DurationLiteral

variable {l : DurationLiteral} {v : Decimal}

private theorem SumsTo.exists_secondsSum (hdays : count l.days < 2 ^ 63) (h : l.SumsTo v) :
    ∃ t : Decimal, t.IsWhole l.wholeSeconds ∧ SecondsSum t l.seconds v := by
  obtain ⟨day, n, start, hday, hn, hstart, hwhole⟩ := exists_mul?_day hdays
  obtain ⟨day', n', start', hday', hn', hstart', hsum⟩ := h
  obtain rfl : day = day' := Option.some.inj (hday.symm.trans hday')
  obtain rfl : n = n' := Option.some.inj (hn.symm.trans hn')
  obtain rfl : start = start' := Option.some.inj (hstart.symm.trans hstart')
  exact hsum.exists_secondsSum hwhole

/-- The components of a literal are in range: the counts of months and days are signed 64-bit numbers, and the seconds
and their sum with the other components are decimals when they are rounded. -/
structure InRange (l : DurationLiteral) : Prop where
  months : l.monthCount < 2 ^ 63
  days : count l.days < 2 ^ 63
  seconds : Fits (secondsValue l.seconds)
  total : ∀ s, secondsDecimal? l.seconds = some s → Fits (l.wholeSeconds + s.value)

theorem inRange_iff : l.InRange ↔ l.CountsFit ∧ ∃ v, l.SumsTo v := by
  constructor
  · rintro ⟨hmonths, hdays, hseconds, htotal⟩
    obtain ⟨s, hs⟩ := (exists_secondsDecimal?_iff l.seconds).mpr hseconds
    obtain ⟨day, n, start, hday, hn, hstart, hwhole⟩ := exists_mul?_day hdays
    have hfits := htotal s hs
    have hlt : l.wholeSeconds < limit := by
      have hle : (l.wholeSeconds : ℚ) ≤ l.wholeSeconds + s.value := le_add_of_nonneg_right (secondsDecimal?_nonneg hs)
      exact fits_natCast.mp ((add_le_add_left hle _).trans_lt hfits)
    obtain ⟨v, hv⟩ := exists_clockSum hwhole hlt fun t ht => exists_secondsSum ht hs hfits
    exact ⟨⟨hmonths, hdays⟩, v, day, n, start, hday, hn, hstart, hv⟩
  · rintro ⟨⟨hmonths, hdays⟩, v, hv⟩
    obtain ⟨t, ht, hsum⟩ := hv.exists_secondsSum hdays
    obtain ⟨s, hs, hfits⟩ := hsum.fits ht
    refine ⟨hmonths, hdays, (exists_secondsDecimal?_iff _).mp ⟨s, hs⟩, ?_⟩
    intro s' hs'
    obtain rfl : s = s' := Option.some.inj (hs.symm.trans hs')
    exact hfits

/-- The number of seconds of a literal is a decimal. This is the case if it has at most 28 significant digits and at
most 28 places. -/
def IsExact (l : DurationLiteral) : Prop := ∃ k e : Nat, k < limit ∧ e ≤ maxScale ∧ l.total = k / 10 ^ e

private theorem IsExact.exists_decimal (h : l.IsExact) :
    ∃ d : Decimal, d.value = l.wholeSeconds + secondsValue l.seconds := by
  obtain ⟨k, e, hk, he, htotal⟩ := h
  obtain ⟨d, hd, -⟩ := mk?_eq (c := k) (by rwa [Int.natAbs_natCast]) he
  refine ⟨d, ?_⟩
  rw [value_of_mk? hd, Int.cast_natCast, ← htotal]
  rfl

/-- Components that add up are added exactly if their sum is a decimal. -/
theorem SumsTo.value_eq (hdays : count l.days < 2 ^ 63) (h : l.SumsTo v) (hexact : l.IsExact) :
    v.value = l.total := by
  obtain ⟨t, ht, hsum⟩ := h.exists_secondsSum hdays
  exact hsum.value_eq ht hexact.exists_decimal

/-- If the number of seconds is a decimal, only the counts of months and days can be out of range. -/
theorem IsExact.inRange (h : l.IsExact) (hmonths : l.monthCount < 2 ^ 63) (hdays : count l.days < 2 ^ 63) :
    l.InRange := by
  obtain ⟨d, hd⟩ := h.exists_decimal
  obtain ⟨q, hq⟩ := exists_decimal_sub (secondsValue_nonneg l.seconds) hd
  refine ⟨hmonths, hdays, hq ▸ fits_value q, ?_⟩
  intro s hs
  rw [value_of_secondsDecimal? ⟨q, hq⟩ hs, ← hd]
  exact fits_value d

theorem seconds_parts (l : DurationLiteral) (h : v.value = l.total) :
    (l.parts v).seconds.value = l.secondNumber := by
  rw [parts, secondNumber]
  cases l.negative with
  | false => exact h
  | true => exact (value_neg v).trans (congrArg Neg.neg h)

theorem natAbs_monthNumber (l : DurationLiteral) : l.monthNumber.natAbs = l.monthCount := by
  unfold monthNumber
  split
  case isTrue => exact Int.natAbs_neg _
  case isFalse => exact Int.natAbs_natCast _

/-- A literal of years and months only has no seconds. -/
theorem inRange_of_months (h : l.hasDayTime = false) (hmonths : l.monthCount < 2 ^ 63) : l.InRange := by
  obtain ⟨negative, years, months, days, hours, minutes, seconds, hnonempty⟩ := l
  simp only [hasDayTime, hasClock, Bool.or_eq_false_iff, Option.isSome_eq_false_iff, Option.isNone_iff_eq_none] at h
  obtain ⟨rfl, ⟨rfl, rfl⟩, rfl⟩ := h
  refine IsExact.inRange ⟨0, 0, by decide, by decide, ?_⟩ hmonths (Nat.two_pow_pos 63)
  have hwhole : wholeSeconds ⟨negative, years, months, none, none, none, none, hnonempty⟩ = 0 := rfl
  have hseconds : secondsValue none = 0 := rfl
  rw [total, hwhole, hseconds, Nat.cast_zero, zero_div, add_zero]

end DurationLiteral

end LazyXPath.Calendar
