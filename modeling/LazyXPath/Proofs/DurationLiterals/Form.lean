import LazyXPath.Proofs.Decimal.Fit
import LazyXPath.Proofs.RoundTrip.DayTime

/-!
# The form of duration literals

A duration literal has a sign, and up to six components, each with a designator behind its digits (`DurationLiteral`). A
structure of its components has as a text (`DurationLiteral.chars`) just what the grammar

`-?P(nY)?(nM)?(nD)?(T(nH)?(nM)?(n(.n)?S)?)?`

allows, with at least one component, and at least one behind the `T`. What is taken off the front of a text by the reader
of a component is the component, and its digits are numerals if they are counted.
-/

namespace LazyXPath.Calendar

open Decimal

/-! ### Literals -/

/-- One or more digits. -/
structure Numeral where
  chars : List Char
  isNumeral : isNumeral chars = true

namespace Numeral

/-- The number that the digits stand for. -/
def value (n : Numeral) : Nat := digitsValue n.chars

theorem isDigit (n : Numeral) : ∀ c ∈ n.chars, c.isDigit := by
  have h := n.isNumeral
  simp only [LazyXPath.isNumeral, Bool.and_eq_true, List.all_eq_true] at h
  exact h.2

/-- The digits of a component, if it is there. -/
def digits (n : Option Numeral) : Option (List Char) := n.map chars

/-- The count of a component, which is zero if it is absent. -/
def count (n : Option Numeral) : Nat := n.elim 0 value

theorem chars_injective : Function.Injective chars := by
  rintro ⟨cs, _⟩ ⟨_, _⟩ rfl
  rfl

theorem digits_injective : Function.Injective digits := Option.map_injective chars_injective

@[simp] theorem isSome_digits (n : Option Numeral) : (digits n).isSome = n.isSome := Option.isSome_map

theorem isDigit_digits {n : Option Numeral} : ∀ ds ∈ digits n, ∀ x ∈ ds, x.isDigit := by
  intro ds hds
  obtain ⟨m, -, rfl⟩ := Option.map_eq_some_iff.mp hds
  exact m.isDigit

end Numeral

open Numeral

/-- Seconds, with digits behind a point if there is one. -/
structure SecondsNumeral where
  whole : Numeral
  fraction : Option Numeral

namespace SecondsNumeral

variable (s : SecondsNumeral)

/-- The digits behind the point. -/
def places : List Char := s.fraction.elim [] Numeral.chars

/-- The number that the digits stand for. -/
def value : ℚ := digitsValue (s.whole.chars ++ s.places) / 10 ^ s.places.length

/-- How seconds are written. -/
def chars : List Char :=
  s.whole.chars ++ s.fraction.elim ['S'] fun f => '.' :: (f.chars ++ ['S'])

theorem isDigit_places : ∀ c ∈ s.places, c.isDigit := by
  unfold places
  cases s.fraction with
  | none => exact List.forall_mem_nil _
  | some f => exact f.isDigit

end SecondsNumeral

/-- The number that seconds stand for, if they are there. -/
def secondsValue (seconds : Option SecondsNumeral) : ℚ := seconds.elim 0 SecondsNumeral.value

/-- The decimal as which seconds are read: zero if they are absent. -/
def secondsDecimal? (seconds : Option SecondsNumeral) : Option Decimal :=
  seconds.elim (some .zero) fun s => ofDigits? false s.whole.chars s.places

/-- Hours, minutes and seconds, as they are written. -/
def clockChars (hours minutes : Option Numeral) (seconds : Option SecondsNumeral) : List Char :=
  digitsThen (digits hours) 'H' ++ (digitsThen (digits minutes) 'M' ++ seconds.elim [] SecondsNumeral.chars)

/-- The components of a literal. Each is optional, but not all of them. -/
structure DurationLiteral where
  negative : Bool
  years : Option Numeral
  months : Option Numeral
  days : Option Numeral
  hours : Option Numeral
  minutes : Option Numeral
  seconds : Option SecondsNumeral
  nonempty : (years.isSome || months.isSome ||
    (days.isSome || (hours.isSome || minutes.isSome || seconds.isSome))) = true

namespace DurationLiteral

variable (l : DurationLiteral)

/-- Whether there is a year or a month component. -/
def hasYearMonth : Bool := l.years.isSome || l.months.isSome

/-- Whether there is a component behind the `T`. -/
def hasClock : Bool := l.hours.isSome || l.minutes.isSome || l.seconds.isSome

/-- Whether there is a component below the month. -/
def hasDayTime : Bool := l.days.isSome || l.hasClock

/-- The part before the `T`. -/
def calendar : List Char :=
  digitsThen (digits l.years) 'Y' ++ (digitsThen (digits l.months) 'M' ++ digitsThen (digits l.days) 'D')

/-- The part behind the `T`. -/
def clock : List Char := clockChars l.hours l.minutes l.seconds

/-- The part behind the `P`. The `T` is there if something is behind it. -/
def body : List Char := l.calendar ++ if l.clock = [] then [] else 'T' :: l.clock

/-- The text of a literal. -/
def chars : List Char := lead l.negative ++ l.body

/-- The number of months, without the sign. -/
def monthCount : Nat := 12 * count l.years + count l.months

/-- The number of seconds in days, hours and minutes, without the sign. -/
def wholeSeconds : Nat := 86400 * count l.days + 3600 * count l.hours + 60 * count l.minutes

/-- The number of seconds, without the sign. -/
def total : ℚ := l.wholeSeconds + secondsValue l.seconds

/-- The number of months. -/
def monthNumber : Int := if l.negative then -l.monthCount else l.monthCount

/-- The number of seconds. -/
def secondNumber : ℚ := if l.negative then -l.total else l.total

end DurationLiteral

/-! ### What is read is a literal -/

section

variable {c : Char} {cs rest : List Char}

theorem eq_of_readComponent {ds : Option (List Char)} (h : readComponent c cs = (ds, rest)) :
    cs = digitsThen ds c ++ rest := by
  have hcs := takeWhile_isDigit_append cs
  unfold readComponent at h
  dsimp only at h
  split at h
  case h_1 d tail hdrop =>
    rw [hdrop] at hcs
    split at h
    case isTrue hd =>
      cases h
      rw [digitsThen, Option.elim_some, List.append_assoc, ← hd]
      exact hcs.symm
    case isFalse =>
      cases h
      rfl
  case h_2 =>
    cases h
    rfl

theorem eq_of_readFractional {p : Option (List Char × List Char)} (h : readFractional c cs = (p, rest)) :
    cs = (p.elim [] fun p => p.1 ++ '.' :: (p.2 ++ [c])) ++ rest := by
  have hcs := takeWhile_isDigit_append cs
  unfold readFractional at h
  dsimp only at h
  split at h
  case h_1 tail hdrop =>
    rw [hdrop] at hcs
    have htail := takeWhile_isDigit_append tail
    split at h
    case h_1 d tail' hdrop' =>
      rw [hdrop'] at htail
      split at h
      case isTrue hd =>
        cases h
        rw [Option.elim_some, List.append_assoc, List.cons_append, List.append_assoc, List.singleton_append, ← hd,
          htail, hcs]
      case isFalse =>
        cases h
        rfl
    case h_2 =>
      cases h
      rfl
  case h_2 =>
    cases h
    rfl

theorem eq_of_splitAtFirst {front back : List Char} (h : splitAtFirst c cs = some (front, back)) :
    cs = front ++ c :: back := by
  induction cs generalizing front with
  | nil => cases h
  | cons d ds ih =>
    rw [splitAtFirst] at h
    split at h
    case isTrue hd =>
      cases h
      rw [hd]
      rfl
    case isFalse =>
      obtain ⟨p, hp, heq⟩ := Option.map_eq_some_iff.mp h
      cases heq
      rw [ih hp]
      rfl

end

section

variable {ds : Option (List Char)} {n : Option Numeral}

theorem componentCount_digits {i : Int} : componentCount (digits n) = some i ↔ count n < 2 ^ 63 ∧ i = count n := by
  cases n with
  | none =>
    have hcount : componentCount (digits none) = some 0 := rfl
    rw [hcount, Option.some.injEq, and_iff_right (show count none < 2 ^ 63 by decide)]
    exact eq_comm
  | some n =>
    have hfits : fitsLong (digitsValue n.chars) = true ↔ count (some n) < 2 ^ 63 := by
      have hvalue : count (some n) = digitsValue n.chars := rfl
      simp only [hvalue, fitsLong, Bool.and_eq_true, decide_eq_true_eq, Nat.pow_eq, Nat.reducePow]
      omega
    simp only [digits, Option.map_some, componentCount, n.isNumeral, true_and, hfits]
    split
    case isTrue h =>
      rw [Option.some.injEq, and_iff_right h]
      exact eq_comm
    case isFalse h => exact iff_of_false (by rintro ⟨⟩) fun hboth => h hboth.1

theorem exists_numeral_of_componentCount {i : Int} (h : componentCount ds = some i) : ∃ n, ds = digits n := by
  cases ds with
  | none => exact ⟨none, rfl⟩
  | some ds =>
    unfold componentCount at h
    dsimp only at h
    split at h
    case isTrue hds => exact ⟨some ⟨ds, hds.1⟩, rfl⟩
    case isFalse => cases h

theorem exists_numeral_of_componentSeconds {unit : Nat} {d : Decimal} (h : componentSeconds unit ds = some d) :
    ∃ n, ds = digits n := by
  cases ds with
  | none => exact ⟨none, rfl⟩
  | some ds =>
    by_cases hds : isNumeral ds = true
    · exact ⟨some ⟨ds, hds⟩, rfl⟩
    · simp [componentSeconds, hds] at h

theorem exists_numerals_of_fractionalSeconds {whole fraction : List Char} {d : Decimal}
    (h : fractionalSeconds (some (whole, fraction)) = some d) :
    ∃ n f : Numeral, whole = n.chars ∧ fraction = f.chars := by
  unfold fractionalSeconds at h
  dsimp only at h
  split at h
  case isTrue hds =>
    obtain ⟨hwhole, hfraction⟩ := Bool.and_eq_true_iff.mp hds
    exact ⟨⟨whole, hwhole⟩, ⟨fraction, hfraction⟩, rfl, rfl⟩
  case isFalse => cases h

end

end LazyXPath.Calendar
