import LazyXPath.Proofs.DurationLiterals.Form

/-!
# The reading of duration literals

The reader takes the components off a text one after the other. A text is read if and only if it is a literal whose
counts fit and whose components add up as decimals (`readDuration?_eq_some_iff`). The literal is the only one with the
text (`DurationLiteral.chars_injective`).
-/

namespace LazyXPath.Calendar

open Decimal Numeral

/-! ### The part behind the `T` -/

namespace SecondsNumeral

/-- The digits of seconds without a point. -/
def plain (s : SecondsNumeral) : Option (List Char) := if s.fraction.isNone then some s.whole.chars else none

/-- The digits of seconds with a point. -/
def pointed (s : SecondsNumeral) : Option (List Char × List Char) := s.fraction.map fun f => (s.whole.chars, f.chars)

end SecondsNumeral

section

variable (seconds : Option SecondsNumeral)

private theorem readSeconds_chars : ∃ rest,
    readComponent 'S' (seconds.elim [] SecondsNumeral.chars) = (seconds.bind SecondsNumeral.plain, rest) ∧
    (if (seconds.bind SecondsNumeral.plain).isSome then (none, rest) else readFractional 'S' rest) =
      (seconds.bind SecondsNumeral.pointed, []) := by
  cases seconds with
  | none => exact ⟨[], rfl, rfl⟩
  | some s =>
    obtain ⟨whole, fraction⟩ := s
    cases fraction with
    | none =>
      refine ⟨[], ?_, rfl⟩
      exact (readComponent_digits whole.isDigit (by decide)).trans (if_pos rfl)
    | some f =>
      refine ⟨_, (readComponent_digits whole.isDigit (by decide)).trans (if_neg (by decide)), ?_⟩
      exact readFractional_digits whole.isDigit f.isDigit (by decide)

/-- The seconds are no component with another designator. -/
theorem readComponent_seconds {c : Char} (hS : 'S' ≠ c) (hpoint : '.' ≠ c) :
    readComponent c (seconds.elim [] SecondsNumeral.chars) = (none, seconds.elim [] SecondsNumeral.chars) := by
  cases seconds with
  | none => rfl
  | some s =>
    obtain ⟨whole, fraction⟩ := s
    cases fraction with
    | none => exact (readComponent_digits whole.isDigit (by decide)).trans (if_neg hS)
    | some f => exact (readComponent_digits whole.isDigit (by decide)).trans (if_neg hpoint)

private theorem isSome_plain_or_pointed : ((seconds.bind SecondsNumeral.plain).isSome ||
    (seconds.bind SecondsNumeral.pointed).isSome) = seconds.isSome := by
  cases seconds with
  | none => rfl
  | some s =>
    obtain ⟨whole, fraction⟩ := s
    cases fraction <;> rfl

end

/-- Seconds that are read consist of numerals. -/
theorem exists_seconds {cs rest : List Char} {plain : Option (List Char)} {pointed : Option (List Char × List Char)}
    {a b : Decimal} (hS : readComponent 'S' cs = (plain, rest))
    (hF : (if plain.isSome then (none, rest) else readFractional 'S' rest) = (pointed, []))
    (ha : componentSeconds 1 plain = some a) (hb : fractionalSeconds pointed = some b) :
    ∃ seconds : Option SecondsNumeral, plain = seconds.bind SecondsNumeral.plain ∧
      pointed = seconds.bind SecondsNumeral.pointed ∧ cs = seconds.elim [] SecondsNumeral.chars := by
  have hcs := eq_of_readComponent hS
  obtain ⟨whole, rfl⟩ := exists_numeral_of_componentSeconds ha
  -- seconds without a point leave nothing to be read with one
  cases whole with
  | some whole =>
    cases hF
    exact ⟨some ⟨whole, none⟩, rfl, rfl, by rw [hcs, List.append_nil]; rfl⟩
  | none =>
    have hrest := eq_of_readFractional hF
    cases pointed with
    | none =>
      refine ⟨none, rfl, rfl, ?_⟩
      rw [hcs, hrest]
      rfl
    | some p =>
      obtain ⟨whole, fraction, h₁, h₂⟩ := exists_numerals_of_fractionalSeconds hb
      obtain ⟨_, _⟩ := p
      subst h₁ h₂
      refine ⟨some ⟨whole, some fraction⟩, rfl, rfl, ?_⟩
      rw [hcs, hrest, List.append_nil]
      rfl

theorem fractionalSeconds_numerals (n f : Numeral) :
    fractionalSeconds (some (n.chars, f.chars)) = ofDigits? false n.chars f.chars :=
  if_pos (Bool.and_eq_true_iff.mpr ⟨n.isNumeral, f.isNumeral⟩)

/-- A number of seconds to which seconds are added, with or without a point. -/
def SecondsSum (start : Decimal) (seconds : Option SecondsNumeral) (v : Decimal) : Prop :=
  ∃ a t b, componentSeconds 1 (seconds.bind SecondsNumeral.plain) = some a ∧ start.add? a = some t ∧
    fractionalSeconds (seconds.bind SecondsNumeral.pointed) = some b ∧ t.add? b = some v

/-- A number of seconds to which the components of a clock are added one after the other. -/
def ClockSum (start : Decimal) (hours minutes : Option Numeral) (seconds : Option SecondsNumeral) (v : Decimal) : Prop :=
  ∃ h t₁ n t₂, componentSeconds 3600 (digits hours) = some h ∧ start.add? h = some t₁ ∧
    componentSeconds 60 (digits minutes) = some n ∧ t₁.add? n = some t₂ ∧ SecondsSum t₂ seconds v

/-- A text is read as a clock if it is the text of one and its components can be added. -/
theorem clockRead_iff {start v : Decimal} {cs : List Char} {present : Bool} :
    ClockRead start cs (v, present) ↔ ∃ hours minutes seconds, cs = clockChars hours minutes seconds ∧
      present = (hours.isSome || minutes.isSome || seconds.isSome) ∧ ClockSum start hours minutes seconds v := by
  constructor
  · rintro ⟨hH, hM, hS, hF, hh, ht₁, hn, ht₂, ha, ht₃, hb, hv⟩
    obtain ⟨hours, rfl⟩ := exists_numeral_of_componentSeconds hh
    obtain ⟨minutes, rfl⟩ := exists_numeral_of_componentSeconds hn
    obtain ⟨seconds, rfl, rfl, hcs⟩ := exists_seconds hS hF ha hb
    refine ⟨hours, minutes, seconds, ?_, ?_, _, _, _, _, hh, ht₁, hn, ht₂, _, _, _, ha, ht₃, hb, hv⟩
    · rw [eq_of_readComponent hH, eq_of_readComponent hM, hcs]
      rfl
    · rw [Bool.or_assoc, isSome_plain_or_pointed, isSome_digits, isSome_digits]
  · rintro ⟨hours, minutes, seconds, rfl, rfl, h, t₁, n, t₂, hh, ht₁, hn, ht₂, a, t₃, b, ha, ht₃, hb, hv⟩
    obtain ⟨rest, hS, hF⟩ := readSeconds_chars seconds
    have hM := readComponent_digitsThen (isDigit_digits (n := minutes)) (d := 'M') (by decide)
      (readComponent_seconds seconds (by decide) (by decide))
    have hH := readComponent_digitsThen (isDigit_digits (n := hours)) (d := 'H') (by decide)
      (readComponent_skip (isDigit_digits (n := minutes)) (d := 'M') (by decide) (by decide)
        (readComponent_seconds seconds (by decide) (by decide)))
    have hread := ClockRead.intro hH hM hS hF hh ht₁ hn ht₂ ha ht₃ hb hv
    rwa [Bool.or_assoc, isSome_plain_or_pointed, isSome_digits, isSome_digits] at hread

/-! ### Both parts -/

namespace DurationLiteral

/-- The number of seconds to which the components of a literal add up as decimals. -/
def SumsTo (l : DurationLiteral) (v : Decimal) : Prop :=
  ∃ day n start, ofInt? 86400 = some day ∧ ofInt? (count l.days) = some n ∧ n.mul? day = some start ∧
    ClockSum start l.hours l.minutes l.seconds v

/-- What is read of a literal whose components add up to the given decimal. -/
def parts (l : DurationLiteral) (v : Decimal) : DurationParts where
  months := l.monthNumber
  seconds := if l.negative then -v else v
  hasYearMonth := l.hasYearMonth
  hasDayTime := l.hasDayTime

/-- The numbers of months and days are signed 64-bit numbers. -/
def CountsFit (l : DurationLiteral) : Prop := l.monthCount < 2 ^ 63 ∧ count l.days < 2 ^ 63

end DurationLiteral

private theorem exists_lead {text : List Char} {p : DurationParts} (h : readDuration? text = some p) :
    ∃ negative body, text = lead negative ++ body := by
  unfold readDuration? at h
  split at h
  case h_1 negative rest hsign =>
    extract_lets at h
    split at h
    case h_1 cs =>
      split at hsign
      case h_1 =>
        cases hsign
        exact ⟨true, cs, rfl⟩
      case h_2 =>
        cases hsign
        exact ⟨false, cs, rfl⟩
    case h_2 => cases h

/-- A last component with another designator is not read. -/
theorem readComponent_last {c d : Char} (hd : d.isDigit = false) (hdc : d ≠ c) (n : Option Numeral) :
    readComponent c (digitsThen (digits n) d) = (none, digitsThen (digits n) d) := by
  have h : readComponent c (digitsThen (digits n) d ++ []) = _ := readComponent_skip isDigit_digits hd hdc rfl
  rwa [List.append_nil] at h

/-- The part before the `T` is read component by component. -/
theorem DurationLiteral.readCalendar (l : DurationLiteral) : ∃ rest,
    readComponent 'Y' l.calendar = (digits l.years, digitsThen (digits l.months) 'M' ++ rest) ∧
    readComponent 'M' (digitsThen (digits l.months) 'M' ++ rest) = (digits l.months, rest) ∧
    readComponent 'D' rest = (digits l.days, []) := by
  refine ⟨digitsThen (digits l.days) 'D', ?_, ?_, ?_⟩
  · refine readComponent_digitsThen isDigit_digits (by decide) ?_
    exact readComponent_skip isDigit_digits (by decide) (by decide) (readComponent_last (by decide) (by decide) _)
  · exact readComponent_digitsThen isDigit_digits (by decide) (readComponent_last (by decide) (by decide) _)
  · have h : readComponent 'D' (digitsThen (digits l.days) 'D' ++ []) = _ :=
      readComponent_digitsThen isDigit_digits (by decide) rfl
    rwa [List.append_nil] at h

private theorem fitsLong_months {y m : Nat} :
    (fitsLong (12 * y) && fitsLong (12 * y + m)) = true ↔ 12 * y + m < 2 ^ 63 := by
  simp only [fitsLong, Bool.and_eq_true, decide_eq_true_eq, Nat.pow_eq, Nat.reducePow]
  omega

/-- Two parts are read if they are those of a literal whose counts fit and whose components can be added. -/
theorem partsRead_iff {negative : Bool} {calendar clock : List Char} {p : DurationParts} :
    PartsRead negative calendar clock p ↔ ∃ (l : DurationLiteral) (v : Decimal), l.negative = negative ∧
      calendar = l.calendar ∧ clock = l.clock ∧ l.CountsFit ∧ l.SumsTo v ∧ p = l.parts v := by
  constructor
  · rintro ⟨hY, hM, hD, hy, hm, hmonths, hday, hn, hcount, hstart, hclock, hsome⟩
    obtain ⟨years, rfl⟩ := exists_numeral_of_componentCount hy
    obtain ⟨months, rfl⟩ := exists_numeral_of_componentCount hm
    obtain ⟨days, rfl⟩ := exists_numeral_of_componentCount hn
    obtain ⟨-, rfl⟩ := componentCount_digits.mp hy
    obtain ⟨-, rfl⟩ := componentCount_digits.mp hm
    obtain ⟨hdays, rfl⟩ := componentCount_digits.mp hn
    rw [fitsLong_months] at hmonths
    obtain ⟨hours, minutes, seconds, rfl, rfl, hsum⟩ := clockRead_iff.mp (readClock_eq_some_iff.mp hclock)
    rw [isSome_digits, isSome_digits, isSome_digits] at hsome
    refine ⟨⟨negative, years, months, days, hours, minutes, seconds, hsome⟩, _, rfl, ?_, rfl, ⟨hmonths, hdays⟩,
      ⟨_, _, _, hday, hcount, hstart, hsum⟩, ?_⟩
    · rw [eq_of_readComponent hY, eq_of_readComponent hM, eq_of_readComponent hD, List.append_nil]
      rfl
    · rw [isSome_digits, isSome_digits, isSome_digits]
      rfl
  · rintro ⟨l, v, rfl, rfl, rfl, ⟨hmonths, hdays⟩, ⟨day, n, start, hday, hcount, hstart, hsum⟩, rfl⟩
    have hmonthCount : l.monthCount = 12 * count l.years + count l.months := rfl
    have hy := componentCount_digits.mpr ⟨show count l.years < 2 ^ 63 by omega, rfl⟩
    have hm := componentCount_digits.mpr ⟨show count l.months < 2 ^ 63 by omega, rfl⟩
    have hn := componentCount_digits.mpr ⟨hdays, rfl⟩
    have hclock := readClock_eq_some_iff.mpr (clockRead_iff.mpr ⟨l.hours, l.minutes, l.seconds, rfl, rfl, hsum⟩)
    obtain ⟨rest, hY, hM, hD⟩ := l.readCalendar
    have hsome := l.nonempty
    rw [← isSome_digits, ← isSome_digits l.months, ← isSome_digits l.days] at hsome
    have hread : PartsRead l.negative l.calendar l.clock _ :=
      .intro hY hM hD hy hm (fitsLong_months.mpr hmonths) hday hn hcount hstart hclock hsome
    rw [isSome_digits, isSome_digits, isSome_digits] at hread
    exact hread

private theorem not_mem_digitsThen {c : Char} (hc : 'T' ≠ c) (n : Option Numeral) :
    'T' ∉ digitsThen (digits n) c := by
  cases n with
  | none => exact List.not_mem_nil
  | some n =>
    intro hmem
    obtain hmem | hmem := List.mem_append.mp hmem
    · exact absurd (n.isDigit _ hmem) (by decide)
    · exact hc (List.mem_singleton.mp hmem)

namespace DurationLiteral

private theorem not_mem_calendar (l : DurationLiteral) : 'T' ∉ l.calendar := by
  intro hmem
  obtain hmem | hmem := List.mem_append.mp hmem
  · exact not_mem_digitsThen (by decide) _ hmem
  · obtain hmem | hmem := List.mem_append.mp hmem
    · exact not_mem_digitsThen (by decide) _ hmem
    · exact not_mem_digitsThen (by decide) _ hmem

/-- The two parts of a literal are found again. -/
theorem splitAtFirst_body (l : DurationLiteral) :
    l.clock = [] ∧ splitAtFirst 'T' l.body = none ∧ l.body = l.calendar ∨
      l.clock ≠ [] ∧ splitAtFirst 'T' l.body = some (l.calendar, l.clock) := by
  unfold body
  by_cases hclock : l.clock = []
  · rw [if_pos hclock, List.append_nil]
    exact .inl ⟨hclock, splitAtFirst_eq_none l.not_mem_calendar, rfl⟩
  · rw [if_neg hclock]
    exact .inr ⟨hclock, splitAtFirst_append l.not_mem_calendar _⟩

private theorem readDuration?_chars (l : DurationLiteral) :
    readDuration? l.chars = readParts l.negative l.calendar l.clock := by
  rw [chars, readDuration?_lead]
  obtain ⟨hclock, hsplit, hbody⟩ | ⟨hclock, hsplit⟩ := l.splitAtFirst_body
  · rw [hsplit, hclock, hbody]
  · obtain ⟨c, cs, hcs⟩ := List.exists_cons_of_ne_nil hclock
    rw [hsplit, hcs]

end DurationLiteral

/-- A text is read if it is a literal whose counts fit and whose components can be added. -/
theorem readDuration?_eq_some_iff {text : List Char} {p : DurationParts} : readDuration? text = some p ↔
    ∃ (l : DurationLiteral) (v : Decimal), text = l.chars ∧ l.CountsFit ∧ l.SumsTo v ∧ p = l.parts v := by
  constructor
  · intro h
    obtain ⟨negative, body, rfl⟩ := exists_lead h
    rw [readDuration?_lead] at h
    split at h
    case h_1 => cases h
    case h_2 calendar clock hne hsplit =>
      obtain ⟨l, v, rfl, rfl, rfl, hcounts, hsum, rfl⟩ := partsRead_iff.mp (readParts_eq_some_iff.mp h)
      refine ⟨l, v, ?_, hcounts, hsum, rfl⟩
      have hclock : l.clock ≠ [] := fun hnil => hne hnil
      rw [eq_of_splitAtFirst hsplit, DurationLiteral.chars, DurationLiteral.body, if_neg hclock]
    case h_3 =>
      obtain ⟨l, v, rfl, rfl, hnil, hcounts, hsum, rfl⟩ := partsRead_iff.mp (readParts_eq_some_iff.mp h)
      refine ⟨l, v, ?_, hcounts, hsum, rfl⟩
      rw [DurationLiteral.chars, DurationLiteral.body, if_pos hnil.symm, List.append_nil]
  · rintro ⟨l, v, rfl, hcounts, hsum, rfl⟩
    rw [l.readDuration?_chars]
    exact readParts_eq_some_iff.mpr (partsRead_iff.mpr ⟨l, v, rfl, rfl, rfl, hcounts, hsum, rfl⟩)

/-! ### One literal for a text -/

private theorem digitsThen_append_inj {c : Char} {n n' : Option Numeral} {rest rest' : List Char}
    (hc : c.isDigit = false)
    (hrest : readComponent c rest = (none, rest)) (hrest' : readComponent c rest' = (none, rest'))
    (h : digitsThen (digits n) c ++ rest = digitsThen (digits n') c ++ rest') : n = n' ∧ rest = rest' := by
  have hread := readComponent_digitsThen (isDigit_digits (n := n)) hc hrest
  rw [h, readComponent_digitsThen isDigit_digits hc hrest'] at hread
  obtain ⟨hdigits, hrests⟩ := Prod.mk.inj hread
  exact ⟨digits_injective hdigits.symm, hrests.symm⟩

private theorem seconds_inj {seconds seconds' : Option SecondsNumeral}
    (h : seconds.elim [] SecondsNumeral.chars = seconds'.elim [] SecondsNumeral.chars) : seconds = seconds' := by
  obtain ⟨rest, hS, hF⟩ := readSeconds_chars seconds
  obtain ⟨rest', hS', hF'⟩ := readSeconds_chars seconds'
  rw [h, hS'] at hS
  obtain ⟨hplain, rfl⟩ := Prod.mk.inj hS
  rw [← hplain, hF'] at hF
  have hpointed := (Prod.mk.inj hF).1
  rcases seconds with _ | ⟨whole, _ | fraction⟩ <;> rcases seconds' with _ | ⟨whole', _ | fraction'⟩ <;>
    simp_all [SecondsNumeral.plain, SecondsNumeral.pointed, chars_injective.eq_iff]

private theorem lead_append_inj {negative negative' : Bool} {body body' : List Char}
    (h : lead negative ++ body = lead negative' ++ body') : negative = negative' ∧ body = body' := by
  cases negative <;> cases negative' <;> simp_all [lead]

namespace DurationLiteral

variable {l l' : DurationLiteral}

private theorem body_inj (h : l.body = l'.body) : l.calendar = l'.calendar ∧ l.clock = l'.clock := by
  obtain ⟨hclock, hsplit, hbody⟩ | ⟨hclock, hsplit⟩ := l.splitAtFirst_body <;>
    obtain ⟨hclock', hsplit', hbody'⟩ | ⟨hclock', hsplit'⟩ := l'.splitAtFirst_body <;> rw [h, hsplit'] at hsplit
  · exact ⟨hbody.symm.trans (h.trans hbody'), hclock.trans hclock'.symm⟩
  · cases hsplit
  · cases hsplit
  · obtain ⟨hcalendar, hclock⟩ := Prod.mk.inj (Option.some.inj hsplit)
    exact ⟨hcalendar.symm, hclock.symm⟩

private theorem calendar_inj (h : l.calendar = l'.calendar) :
    l.years = l'.years ∧ l.months = l'.months ∧ l.days = l'.days := by
  have hD : ∀ {c : Char} (l : DurationLiteral), 'D' ≠ c →
      readComponent c (digitsThen (digits l.days) 'D') = (none, digitsThen (digits l.days) 'D') := fun l hc =>
    readComponent_last (by decide) hc l.days
  have hMD : ∀ l : DurationLiteral,
      readComponent 'Y' (digitsThen (digits l.months) 'M' ++ digitsThen (digits l.days) 'D') =
        (none, digitsThen (digits l.months) 'M' ++ digitsThen (digits l.days) 'D') := fun l =>
    readComponent_skip isDigit_digits (by decide) (by decide) (hD l (by decide))
  obtain ⟨hyears, h⟩ := digitsThen_append_inj (by decide) (hMD l) (hMD l') h
  obtain ⟨hmonths, h⟩ := digitsThen_append_inj (by decide) (hD l (by decide)) (hD l' (by decide)) h
  rw [← List.append_nil (digitsThen _ _), ← List.append_nil (digitsThen (digits l'.days) _)] at h
  exact ⟨hyears, hmonths, (digitsThen_append_inj (by decide) rfl rfl h).1⟩

private theorem clock_inj (h : l.clock = l'.clock) :
    l.hours = l'.hours ∧ l.minutes = l'.minutes ∧ l.seconds = l'.seconds := by
  have hMS : ∀ l : DurationLiteral, readComponent 'H' (digitsThen (digits l.minutes) 'M' ++
      l.seconds.elim [] SecondsNumeral.chars) =
        (none, digitsThen (digits l.minutes) 'M' ++ l.seconds.elim [] SecondsNumeral.chars) := fun l =>
    readComponent_skip isDigit_digits (by decide) (by decide) (readComponent_seconds l.seconds (by decide) (by decide))
  obtain ⟨hhours, h⟩ := digitsThen_append_inj (by decide) (hMS l) (hMS l') h
  obtain ⟨hminutes, h⟩ := digitsThen_append_inj (by decide) (readComponent_seconds _ (by decide) (by decide))
    (readComponent_seconds _ (by decide) (by decide)) h
  exact ⟨hhours, hminutes, seconds_inj h⟩

/-- A text is the text of one literal only. -/
theorem chars_injective : Function.Injective DurationLiteral.chars := by
  intro l l' h
  obtain ⟨hnegative, hbody⟩ := lead_append_inj h
  obtain ⟨hcalendar, hclock⟩ := body_inj hbody
  obtain ⟨hyears, hmonths, hdays⟩ := calendar_inj hcalendar
  obtain ⟨hhours, hminutes, hseconds⟩ := clock_inj hclock
  cases l
  cases l'
  simp_all

end DurationLiteral

end LazyXPath.Calendar
