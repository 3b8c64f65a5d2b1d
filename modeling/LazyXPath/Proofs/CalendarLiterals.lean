import LazyXPath.Proofs.MonthShift

/-!
# The literals of dates and times

The literals are described by a grammar of their own, in which a form says of a text what it stands for: years with
their sign, pairs of digits, fractions, dates, times of day, offsets. A reader **recognizes** a form if it takes the
texts of this form off the front of a text, and no other texts (`Recognizes`). The digits of a year or a fraction go on
as long as there are any, so a text of the form is recognized only where it ends (`Ends`); offsets begin with a
letter or a sign.

Each reader is made of the readers of its parts, and so is the proof that it recognizes its form. The one form that
is wider than the grammar is that of the end of the day: a fraction of its last second is looked at only after it
has been cut off at nanoseconds (`OverlongEnd`).
-/

namespace LazyXPath.Calendar

/-! ### Forms -/

/-- The digits of a year: four of them, or more that do not begin with a zero. -/
def IsYearDigits (ds : List Char) : Prop :=
  (∀ c ∈ ds, c.isDigit) ∧ (ds.length = 4 ∨ 4 < ds.length ∧ ds.head? ≠ some '0')

/-- A year, with a sign if it is negative. -/
inductive YearForm : List Char → Int → Prop
  | plain {ds : List Char} : IsYearDigits ds → YearForm ds (digitsValue ds)
  | minus {ds : List Char} : IsYearDigits ds → YearForm ('-' :: ds) (-(digitsValue ds : Int))

/-- Two digits. -/
inductive PairForm : List Char → Nat → Prop
  | intro {a b : Char} : a.isDigit → b.isDigit → PairForm [a, b] (10 * digitValue a + digitValue b)

/-- The digits of a fraction: none, or some behind a point. -/
inductive FractionForm : List Char → List Char → Prop
  | absent : FractionForm [] []
  | point {ds : List Char} : ds ≠ [] → (∀ c ∈ ds, c.isDigit) → FractionForm ('.' :: ds) ds

/-- The digits of a fraction of a second as nanoseconds, truncated. -/
def truncatedNanos (ds : List Char) : Nat := digitsValue ds * 10 ^ 9 / 10 ^ ds.length

/-- A date of the calendar. -/
inductive DateForm : List Char → Date → Prop
  | intro {ys ms ds : List Char} {d : Date} : YearForm ys d.year → PairForm ms d.month → PairForm ds d.day →
      DateForm (ys ++ '-' :: (ms ++ '-' :: ds)) d

/-- Hour, minute and second in two digits each, and the digits of a fraction. -/
inductive ClockForm : List Char → Nat → Nat → Nat → List Char → Prop
  | intro {hs ms ss fs ds : List Char} {h m s : Nat} : PairForm hs h → PairForm ms m → PairForm ss s →
      FractionForm fs ds → ClockForm (hs ++ ':' :: (ms ++ ':' :: (ss ++ fs))) h m s ds

/-- A time of day, or the end of the day, which is midnight of the next one. -/
inductive TimeForm : List Char → TimeOfDay × Bool → Prop
  | ofDay {cs ds : List Char} {h m s : Nat} {t : TimeOfDay} : ClockForm cs h m s ds → h < 24 → m < 60 → s < 60 →
      t.nanos = ((h * 60 + m) * 60 + s) * 10 ^ 9 + truncatedNanos ds → TimeForm cs (t, false)
  | endOfDay {cs ds : List Char} : ClockForm cs 24 0 0 ds → (∀ c ∈ ds, c = '0') → TimeForm cs (.midnight, true)

/-- The end of the day with a fraction that is shorter than a nanosecond, but not zero. -/
inductive OverlongEnd : List Char → TimeOfDay × Bool → Prop
  | intro {cs ds : List Char} : ClockForm cs 24 0 0 ds → (∀ c ∈ ds.take 9, c = '0') → (∃ c ∈ ds, c ≠ '0') →
      OverlongEnd cs (.midnight, true)

/-- What is read as a time: a time of the grammar, or the end of the day with too long a fraction. -/
def ReadableTime (cs : List Char) (p : TimeOfDay × Bool) : Prop := TimeForm cs p ∨ OverlongEnd cs p

/-- The next day: in the same month, or from the last day of a month to the first one of the next. -/
def Date.IsNext (d e : Date) : Prop :=
  e.year = d.year ∧ e.month = d.month ∧ e.day = d.day + 1 ∨
    d.day = daysInMonth d.year d.month ∧ e.day = 1 ∧
      (e.year = d.year ∧ e.month = d.month + 1 ∨ d.month = 12 ∧ e.year = d.year + 1 ∧ e.month = 1)

/-- A date and a time of it in the given form; the end of a day is on the next day. -/
inductive DateTimeForm (Time : List Char → TimeOfDay × Bool → Prop) : List Char → DateTime → Prop
  | ofDay {ds ts : List Char} {d : Date} {t : TimeOfDay} : DateForm ds d → Time ts (t, false) →
      DateTimeForm Time (ds ++ 'T' :: ts) ⟨d, t⟩
  | endOfDay {ds ts : List Char} {d e : Date} {t : TimeOfDay} : DateForm ds d → Time ts (t, true) → d.IsNext e →
      DateTimeForm Time (ds ++ 'T' :: ts) ⟨e, t⟩

/-- An offset: none, the letter of universal time, or hours and minutes up to fourteen hours. -/
inductive OffsetForm : List Char → Option Offset → Prop
  | absent : OffsetForm [] none
  | universal : OffsetForm ['Z'] (some ⟨0⟩)
  | ahead {hs ms : List Char} {h m : Nat} : PairForm hs h → PairForm ms m → m < 60 → 60 * h + m ≤ 60 * 14 →
      OffsetForm ('+' :: (hs ++ ':' :: ms)) (some ⟨(h * 3600 + m * 60 : Nat)⟩)
  | behind {hs ms : List Char} {h m : Nat} : PairForm hs h → PairForm ms m → m < 60 → 60 * h + m ≤ 60 * 14 →
      OffsetForm ('-' :: (hs ++ ':' :: ms)) (some ⟨-(h * 3600 + m * 60 : Nat)⟩)

/-- A text of a form with an offset behind it. -/
def Written {α : Type} (Form : List Char → α → Prop) (cs : List Char) (v : α) (z : Option Offset) : Prop :=
  ∃ front back, cs = front ++ back ∧ Form front v ∧ OffsetForm back z

/-- The reader takes the texts of a form off the front of a text, and no others. -/
structure Recognizes {α : Type} (reader : Reader α) (Form : List Char → α → Prop) : Prop where
  sound : ∀ {cs rest v}, reader cs = some (v, rest) → ∃ front, cs = front ++ rest ∧ Form front v
  complete : ∀ {front rest v}, Form front v → Ends rest → reader (front ++ rest) = some (v, rest)

/-! ### Components -/

section

variable {cs rest : List Char}

/-- A character that is expected. -/
private theorem expect_eq_some_iff {c : Char} : expect c cs = some rest ↔ cs = c :: rest := by
  cases cs with
  | nil => simp [expect]
  | cons d ds => by_cases h : d = c <;> simp [expect, h]

/-- Two digits are read if and only if they are a pair. -/
private theorem twoDigits_eq_some_iff {n : Nat} :
    twoDigits cs = some (n, rest) ↔ ∃ front, cs = front ++ rest ∧ PairForm front n := by
  constructor
  · intro h
    unfold twoDigits at h
    split at h
    case h_1 a b tail =>
      split at h
      case isTrue hdigits =>
        cases h
        obtain ⟨ha, hb⟩ := Bool.and_eq_true_iff.mp hdigits
        exact ⟨[a, b], rfl, .intro ha hb⟩
      case isFalse => cases h
    case h_2 => cases h
  · rintro ⟨_, rfl, ⟨ha, hb⟩⟩
    simp [twoDigits, ha, hb]

/-- A pair is read whatever follows. -/
private theorem PairForm.reads {front : List Char} {n : Nat} (h : PairForm front n) (rest : List Char) :
    twoDigits (front ++ rest) = some (n, rest) :=
  twoDigits_eq_some_iff.mpr ⟨front, rfl, h⟩

/-! ### Years -/

/-- What is read as a year are digits of a year, small enough. -/
private theorem yearOf_sound {negative : Bool} {y : Int} (h : yearOf negative cs = some (y, rest)) :
    ∃ ds, cs = ds ++ rest ∧ IsYearDigits ds ∧ digitsValue ds < twoTo 31 ∧
      y = if negative then -(digitsValue ds : Int) else digitsValue ds := by
  unfold yearOf at h
  simp only at h
  split at h
  case isTrue => cases h
  case isFalse hgate =>
    split at h
    case isTrue => cases h
    case isFalse hlt =>
      cases h
      simp only [Bool.or_eq_true, Bool.and_eq_true, decide_eq_true_eq, beq_iff_eq, not_or, not_and] at hgate
      refine ⟨_, (takeWhile_isDigit_append cs).symm, ⟨fun c => isDigit_of_mem_takeWhile, ?_⟩, Nat.lt_of_not_le hlt, rfl⟩
      obtain hfour | hmore := Nat.eq_or_lt_of_le (Nat.le_of_not_lt hgate.1)
      · exact .inl hfour.symm
      · exact .inr ⟨hmore, hgate.2 hmore⟩

/-- Digits of a year are read if no digit follows. -/
private theorem yearOf_complete (negative : Bool) {ds : List Char} (hds : IsYearDigits ds)
    (hlt : digitsValue ds < twoTo 31) (hrest : NoDigit rest) :
    yearOf negative (ds ++ rest) = some (if negative then -(digitsValue ds : Int) else digitsValue ds, rest) := by
  obtain ⟨hdigits, hlength⟩ := hds
  have hgate : (decide (ds.length < 4) || (decide (4 < ds.length) && ds.head? == some '0')) = false := by
    obtain hfour | ⟨hmore, hhead⟩ := hlength
    · simp [hfour]
    · simp [hmore.le, hhead]
  simp only [yearOf, takeWhile_isDigit hdigits hrest, hgate, Nat.not_le.mpr hlt, if_false, Bool.false_eq_true,
    List.drop_left]

private theorem recognizes_year : Recognizes readYear fun cs y => YearForm cs y ∧ y.natAbs < twoTo 31 where
  sound {cs rest y} h := by
    cases cs with
    | nil => cases h
    | cons c cs =>
      by_cases hc : c = '-'
      · subst hc
        rw [readYear_minus] at h
        obtain ⟨ds, rfl, hds, hlt, rfl⟩ := yearOf_sound h
        exact ⟨'-' :: ds, rfl, .minus hds, by simpa using hlt⟩
      · rw [readYear_of_ne hc] at h
        obtain ⟨ds, hcs, hds, hlt, rfl⟩ := yearOf_sound h
        exact ⟨ds, hcs, .plain hds, by simpa using hlt⟩
  complete {front rest y} h hrest := by
    obtain ⟨hform, hlt⟩ := h
    cases hform with
    | plain hds =>
      obtain ⟨hdigits, hlength⟩ := id hds
      obtain ⟨c, cs, rfl⟩ : ∃ c cs, front = c :: cs :=
        List.exists_cons_of_ne_nil (List.ne_nil_of_length_pos (by omega))
      have hc : c ≠ '-' := by
        rintro rfl
        exact absurd (hdigits '-' List.mem_cons_self) (by decide)
      rw [List.cons_append, readYear_of_ne hc]
      exact yearOf_complete false hds (by simpa using hlt) hrest.noDigit
    | minus hds =>
      rw [List.cons_append, readYear_minus]
      exact yearOf_complete true hds (by simpa using hlt) hrest.noDigit

/-! ### Dates -/

/-- The parts of a date determine it. -/
private theorem Date.ofParts?_eq_some_iff {year : Int} {month day : Nat} {d : Date} :
    Date.ofParts? year month day = some d ↔ d.year = year ∧ d.month = month ∧ d.day = day := by
  constructor
  · exact Date.eq_of_ofParts?
  · rintro ⟨rfl, rfl, rfl⟩
    exact d.ofParts?_self

private theorem recognizes_date : Recognizes readDate DateForm where
  sound {cs rest d} h := by
    simp only [readDate, Option.bind_eq_bind, Option.bind_eq_some_iff, expect_eq_some_iff] at h
    obtain ⟨⟨year, _⟩, hyear, _, rfl, ⟨month, _⟩, hmonth, _, rfl, ⟨day, _⟩, hday, d', hdate, h⟩ := h
    obtain ⟨ms, rfl, hm⟩ := twoDigits_eq_some_iff.mp hmonth
    obtain ⟨ds, rfl, hd⟩ := twoDigits_eq_some_iff.mp hday
    cases h
    obtain ⟨rfl, rfl, rfl⟩ := Date.ofParts?_eq_some_iff.mp hdate
    obtain ⟨ys, rfl, hy, -⟩ := recognizes_year.sound hyear
    exact ⟨_, by simp, .intro hy hm hd⟩
  complete {front rest d} h _ := by
    obtain ⟨hy, hm, hd⟩ := h
    rename_i ys ms ds
    have hrange := d.year_mem
    have hlt : d.year.natAbs < twoTo 31 := by
      simp only [firstYear, lastYear] at hrange
      show d.year.natAbs < 2147483648
      omega
    have hends : Ends ('-' :: (ms ++ '-' :: (ds ++ rest))) := Ends.cons_iff.mpr (by decide)
    have hyear := recognizes_year.complete ⟨hy, hlt⟩ hends
    simp only [List.append_assoc, List.cons_append, readDate, hyear, hm.reads, hd.reads, expect_self,
      Option.bind_eq_bind, Option.bind_some, d.ofParts?_self]
    rfl

end

/-! ### Times -/

section

variable {fs ds : List Char}

/-- A fraction consists of digits behind a point. -/
private theorem FractionForm.isDigit (h : FractionForm fs ds) : ∀ c ∈ ds, c.isDigit := by
  cases h with
  | absent => exact List.forall_mem_nil _
  | point _ hds => exact hds

/-- Nanoseconds are the first nine digits, with zeros for those that are missing. -/
theorem digitsValue_take_nine (hds : ∀ c ∈ ds, c.isDigit) :
    digitsValue ((ds ++ List.replicate 9 '0').take 9) = truncatedNanos ds := by
  unfold truncatedNanos
  obtain hlt | hle := Nat.lt_or_ge 9 ds.length
  · have htake : (ds ++ List.replicate 9 '0').take 9 = ds.take 9 := List.take_append_of_le_length hlt.le
    have hsplit := digitsValue_append (ds.take 9) (ds.drop 9)
    have hrest := digitsValue_lt fun c hc => hds c (List.mem_of_mem_drop (i := 9) hc)
    rw [List.take_append_drop] at hsplit
    rw [htake, hsplit]
    have hlen : ds.length = 9 + (ds.drop 9).length := by
      rw [List.length_drop]
      omega
    rw [hlen, Nat.pow_add, Nat.mul_comm, Nat.mul_div_mul_left _ _ (by decide), Nat.mul_comm,
      Nat.mul_add_div (Nat.pow_pos (by decide)), Nat.div_eq_of_lt hrest, Nat.add_zero]
  · -- the digits are too few: the missing ones make up for the missing power of ten
    obtain ⟨k, hk⟩ := Nat.exists_eq_add_of_le hle
    have hzeros : digitsValue (List.replicate k '0') = 0 := by
      have := digitsValue_replicate_append k []
      rwa [List.append_nil] at this
    have htake : (ds ++ List.replicate 9 '0').take 9 = ds ++ List.replicate k '0' := by
      rw [List.take_append, List.take_of_length_le hle, List.take_replicate]
      congr 2
      omega
    rw [htake, digitsValue_append, hzeros, List.length_replicate, hk, Nat.pow_add, Nat.add_zero]
    rw [Nat.mul_left_comm, Nat.mul_div_cancel_left _ (Nat.pow_pos (by decide))]

/-- Nine digits are less than a second. -/
private theorem truncatedNanos_lt (hds : ∀ c ∈ ds, c.isDigit) : truncatedNanos ds < 10 ^ 9 := by
  refine Nat.div_lt_of_lt_mul ?_
  exact Nat.mul_lt_mul_of_pos_right (digitsValue_lt hds) (by decide)

/-- There are no nanoseconds if there are only zeros in the first nine places. -/
theorem truncatedNanos_eq_zero_iff (hds : ∀ c ∈ ds, c.isDigit) :
    truncatedNanos ds = 0 ↔ ∀ c ∈ ds.take 9, c = '0' := by
  have hzeros : ∀ c ∈ List.replicate (9 - ds.length) '0', c = '0' := fun c hc => List.eq_of_mem_replicate hc
  have htake : (ds ++ List.replicate 9 '0').take 9 = ds.take 9 ++ List.replicate (9 - ds.length) '0' := by
    rw [List.take_append, List.take_replicate]
    congr 2
    omega
  have hdigits : ∀ c ∈ ds.take 9 ++ List.replicate (9 - ds.length) '0', c.isDigit := by
    refine List.forall_mem_append.mpr ⟨fun c hc => hds c (List.mem_of_mem_take hc), fun c hc => ?_⟩
    rw [hzeros c hc]
    rfl
  rw [← digitsValue_take_nine hds, htake, digitsValue_eq_zero_iff hdigits, List.forall_mem_append, and_iff_left hzeros]

private theorem recognizes_nanos :
    Recognizes readNanos fun fs n => ∃ ds, FractionForm fs ds ∧ n = truncatedNanos ds where
  sound {cs rest n} h := by
    unfold readNanos at h
    split at h
    case h_1 tail =>
      simp only at h
      split at h
      case isTrue => cases h
      case isFalse hne =>
        cases h
        have hdigits : ∀ c ∈ tail.takeWhile Char.isDigit, c.isDigit := fun c => isDigit_of_mem_takeWhile
        refine ⟨'.' :: tail.takeWhile Char.isDigit, ?_, _, .point (by simpa using hne) hdigits,
          digitsValue_take_nine hdigits⟩
        rw [List.cons_append, takeWhile_isDigit_append]
    case h_2 =>
      cases h
      exact ⟨[], rfl, [], .absent, rfl⟩
  complete {front rest n} h hrest := by
    obtain ⟨ds, hform, rfl⟩ := h
    cases hform with
    | absent =>
      cases rest with
      | nil => rfl
      | cons c rest =>
        have hpoint : c ≠ '.' := (Ends.cons_iff.mp hrest).2
        simp [readNanos, hpoint, truncatedNanos, digitsValue]
    | point hne hds =>
      have hempty : ds.isEmpty = false := by simpa using hne
      simp only [List.cons_append, readNanos, takeWhile_isDigit hds hrest.noDigit, hempty, Bool.false_eq_true, if_false,
        digitsValue_take_nine hds, List.drop_left]

/-- The parts of a time determine it, and are in range. -/
private theorem TimeOfDay.ofParts?_eq_some_iff {h m s n : Nat} {t : TimeOfDay} :
    TimeOfDay.ofParts? h m s n = some t ↔
    (h < 24 ∧ m < 60 ∧ s < 60 ∧ n < 10 ^ 9) ∧ t.nanos = ((h * 60 + m) * 60 + s) * 10 ^ 9 + n := by
  obtain ⟨nanos, hlt⟩ := t
  unfold TimeOfDay.ofParts?
  split
  case isTrue hparts =>
    simp only [Option.some.injEq, TimeOfDay.mk.injEq]
    exact ⟨fun h => ⟨hparts, h.symm⟩, fun h => h.2.symm⟩
  case isFalse hparts => exact ⟨(by rintro ⟨⟩), fun h => absurd h.1 hparts⟩

/-- What the reader makes of the parts of a time. -/
def timeOf? (h m s : Nat) (ds : List Char) : Option (TimeOfDay × Bool) :=
  if h = 24 ∧ m = 0 ∧ s = 0 ∧ truncatedNanos ds = 0 then some (.midnight, true)
  else (TimeOfDay.ofParts? h m s (truncatedNanos ds)).map (·, false)

/-- A time is recognized with all digits of its fraction, of which nine count. -/
private theorem recognizes_clock :
    Recognizes readTime fun cs p => ∃ h m s ds, ClockForm cs h m s ds ∧ timeOf? h m s ds = some p where
  sound {cs rest p} h := by
    simp only [readTime, Option.bind_eq_bind, Option.bind_eq_some_iff, expect_eq_some_iff] at h
    obtain ⟨⟨hour, _⟩, hhour, _, rfl, ⟨minute, _⟩, hminute, _, rfl, ⟨second, _⟩, hsecond, ⟨nanos, _⟩, hnanos, h⟩ := h
    obtain ⟨hs, rfl, hhs⟩ := twoDigits_eq_some_iff.mp hhour
    obtain ⟨ms, rfl, hms⟩ := twoDigits_eq_some_iff.mp hminute
    obtain ⟨ss, rfl, hss⟩ := twoDigits_eq_some_iff.mp hsecond
    obtain ⟨fs, rfl, ds, hfs, rfl⟩ := recognizes_nanos.sound hnanos
    have hclock : ClockForm _ hour minute second ds := .intro hhs hms hss hfs
    split at h
    case isTrue hend =>
      cases h
      exact ⟨_, by simp, _, _, _, _, hclock, if_pos (by simpa [and_assoc] using hend)⟩
    case isFalse hend =>
      obtain ⟨t, ht, h⟩ := Option.bind_eq_some_iff.mp h
      cases h
      refine ⟨_, by simp, _, _, _, _, hclock, ?_⟩
      rw [timeOf?, if_neg (by simpa [and_assoc] using hend), ht]
      rfl
  complete {front rest p} h hrest := by
    obtain ⟨h, m, s, ds, ⟨hhs, hms, hss, hfs⟩, hp⟩ := h
    have hnanos := recognizes_nanos.complete ⟨ds, hfs, rfl⟩ hrest
    simp only [List.append_assoc, List.cons_append, readTime, hhs.reads, hms.reads, hss.reads, hnanos, expect_self,
      Option.bind_eq_bind, Option.bind_some]
    unfold timeOf? at hp
    split at hp
    case isTrue hend =>
      cases hp
      exact if_pos (by simpa [and_assoc] using hend)
    case isFalse hend =>
      obtain ⟨t, ht, rfl⟩ := Option.map_eq_some_iff.mp hp
      rw [if_neg (by simpa [and_assoc] using hend), ht]
      rfl

/-- The fraction is what stands behind two digits each for hour, minute and second. -/
theorem ClockForm.fraction {cs : List Char} {h m s : Nat} (hclock : ClockForm cs h m s ds) :
    FractionForm (cs.drop 8) ds := by
  obtain ⟨⟨-, -⟩, ⟨-, -⟩, ⟨-, -⟩, hfs⟩ := hclock
  exact hfs

private theorem ClockForm.isDigit {cs : List Char} {h m s : Nat} (hclock : ClockForm cs h m s ds) :
    ∀ c ∈ ds, c.isDigit :=
  hclock.fraction.isDigit

/-- The zeros of a whole fraction are those of its first nine places, unless it is overlong. -/
theorem exists_timeOf?_iff {cs : List Char} {p : TimeOfDay × Bool} :
    (∃ h m s ds, ClockForm cs h m s ds ∧ timeOf? h m s ds = some p) ↔ ReadableTime cs p := by
  constructor
  · rintro ⟨h, m, s, ds, hclock, hp⟩
    unfold timeOf? at hp
    split at hp
    case isTrue hend =>
      obtain ⟨rfl, rfl, rfl, hnanos⟩ := hend
      cases hp
      by_cases hzeros : ∀ c ∈ ds, c = '0'
      · exact .inl (.endOfDay hclock hzeros)
      · refine .inr (.intro hclock ((truncatedNanos_eq_zero_iff hclock.isDigit).mp hnanos) ?_)
        simpa using hzeros
    case isFalse =>
      obtain ⟨t, ht, rfl⟩ := Option.map_eq_some_iff.mp hp
      obtain ⟨⟨hh, hm, hs, -⟩, hvalue⟩ := TimeOfDay.ofParts?_eq_some_iff.mp ht
      exact .inl (.ofDay hclock hh hm hs hvalue)
  · rintro (hform | hform)
    · cases hform with
      | @ofDay ds h m s t hclock hh hm hs hvalue =>
        have hparts := TimeOfDay.ofParts?_eq_some_iff.mpr ⟨⟨hh, hm, hs, truncatedNanos_lt hclock.isDigit⟩, hvalue⟩
        refine ⟨h, m, s, ds, hclock, ?_⟩
        rw [timeOf?, if_neg (by omega), hparts]
        rfl
      | @endOfDay ds hclock hzeros =>
        have htake : ∀ c ∈ ds.take 9, c = '0' := fun c hc => hzeros c (List.mem_of_mem_take hc)
        have hnanos := (truncatedNanos_eq_zero_iff hclock.isDigit).mpr htake
        exact ⟨24, 0, 0, ds, hclock, if_pos ⟨rfl, rfl, rfl, hnanos⟩⟩
    · obtain ⟨hclock, hzeros, -⟩ := hform
      have hnanos := (truncatedNanos_eq_zero_iff hclock.isDigit).mpr hzeros
      exact ⟨24, 0, 0, _, hclock, if_pos ⟨rfl, rfl, rfl, hnanos⟩⟩

/-- The times that can be read include ends of the day that are too long. -/
private theorem recognizes_time : Recognizes readTime ReadableTime where
  sound h := by
    obtain ⟨front, hcs, hform⟩ := recognizes_clock.sound h
    exact ⟨front, hcs, exists_timeOf?_iff.mp hform⟩
  complete h hrest := recognizes_clock.complete (exists_timeOf?_iff.mpr h) hrest

end

/-! ### The next day -/

/-- Every month has a day. -/
private theorem Date.monthLength_pos (k : Int) : 0 < monthLength k := by
  unfold monthLength daysInMonth
  split <;> [split; skip; skip; skip; skip; skip] <;> decide

/-- The next day is the next one of the month, or the first one of the next month. -/
private theorem Date.next?_eq_some_iff {d e : Date} : d.next? = some e ↔ d.IsNext e := by
  have hd := d.month_mem
  have he := e.month_mem
  have hday := d.day_mem
  have heday := e.day_mem.1
  have hlength := d.daysInMonth_eq
  have hle := d.day_le_monthLength
  have hmonths : d.IsNext e ↔ d.monthNumber = e.monthNumber ∧ e.day = d.day + 1 ∨
      d.monthNumber + 1 = e.monthNumber ∧ d.day = monthLength d.monthNumber ∧ e.day = 1 := by
    unfold IsNext monthNumber
    unfold monthNumber at hlength
    omega
  rw [hmonths, next?, addDays?, ofDayNumber?_eq_some_iff, dayNumber_eq_monthStart, dayNumber_eq_monthStart]
  constructor
  · intro h
    obtain hlt | heq | hgt := Int.lt_trichotomy d.monthNumber e.monthNumber
    · have hnext := monthStart_succ d.monthNumber
      have hmono := monthStart_mono (Int.add_one_le_iff.mpr hlt)
      obtain hone | hmore : d.monthNumber + 1 = e.monthNumber ∨ d.monthNumber + 1 < e.monthNumber := by omega
      · rw [← hone] at h
        omega
      · have hafter := monthStart_succ (d.monthNumber + 1)
        have hmono' := monthStart_mono (Int.add_one_le_iff.mpr hmore)
        have hpos := monthLength_pos (d.monthNumber + 1)
        omega
    · rw [heq] at h
      omega
    · have hnext := monthStart_succ e.monthNumber
      have hmono := monthStart_mono (Int.add_one_le_iff.mpr hgt)
      have := e.day_le_monthLength
      omega
  · rintro (⟨hmonth, hnext⟩ | ⟨hmonth, hlast, hfirst⟩)
    · rw [hmonth]
      omega
    · rw [← hmonth, monthStart_succ]
      omega

/-! ### Points in time -/

private theorem recognizes_dateTime : Recognizes readDateTime (DateTimeForm ReadableTime) where
  sound {cs rest t} h := by
    simp only [readDateTime, Option.bind_eq_bind, Option.bind_eq_some_iff, expect_eq_some_iff] at h
    obtain ⟨⟨date, _⟩, hdate, _, rfl, ⟨⟨time, endOfDay⟩, _⟩, htime, h⟩ := h
    obtain ⟨ts, rfl, hts⟩ := recognizes_time.sound htime
    obtain ⟨ds, rfl, hds⟩ := recognizes_date.sound hdate
    cases endOfDay with
    | false =>
      cases h
      exact ⟨_, by simp, .ofDay hds hts⟩
    | true =>
      obtain ⟨day, hday, h⟩ := Option.bind_eq_some_iff.mp h
      cases h
      exact ⟨_, by simp, .endOfDay hds hts (Date.next?_eq_some_iff.mp hday)⟩
  complete {front rest t} h hrest := by
    have hT : ∀ ts, Ends ('T' :: ts) := fun _ => Ends.cons_iff.mpr (by decide)
    obtain @⟨ds, ts, d, t, hds, hts⟩ | @⟨ds, ts, d, e, t, hds, hts, hnext⟩ := h
    · have hdate := recognizes_date.complete hds (hT (ts ++ rest))
      have htime := recognizes_time.complete hts hrest
      simp only [List.append_assoc, List.cons_append, readDateTime, hdate, htime, expect_self, Option.bind_eq_bind,
        Option.bind_some, Bool.false_eq_true, if_false]
      rfl
    · have hdate := recognizes_date.complete hds (hT (ts ++ rest))
      have htime := recognizes_time.complete hts hrest
      simp only [List.append_assoc, List.cons_append, readDateTime, hdate, htime, expect_self, Option.bind_eq_bind,
        Option.bind_some, if_true, Date.next?_eq_some_iff.mpr hnext]
      rfl

/-! ### Offsets -/

section

variable {cs : List Char} {z : Option Offset}

/-- An offset ends the literal before it. -/
private theorem OffsetForm.ends (h : OffsetForm cs z) : Ends cs := by
  cases h with
  | absent => exact .nil
  | universal => exact Ends.cons_iff.mpr (by decide)
  | ahead | behind => exact Ends.cons_iff.mpr (by decide)

/-- Hours and minutes behind a sign, up to fourteen hours. -/
theorem offsetOf_eq_some_iff {negative : Bool} : offsetOf negative cs = some z ↔
    ∃ hs ms h m, cs = hs ++ ':' :: ms ∧ PairForm hs h ∧ PairForm ms m ∧ m < 60 ∧ 60 * h + m ≤ 60 * 14 ∧
      z = some ⟨if negative then -((h * 3600 + m * 60 : Nat) : Int) else (h * 3600 + m * 60 : Nat)⟩ := by
  simp only [offsetOf, Option.bind_eq_bind, Option.bind_eq_some_iff, expect_eq_some_iff]
  constructor
  · rintro ⟨⟨h, _⟩, hhour, _, rfl, ⟨m, rest⟩, hminute, hz⟩
    obtain ⟨hs, rfl, hhs⟩ := twoDigits_eq_some_iff.mp hhour
    obtain ⟨ms, rfl, hms⟩ := twoDigits_eq_some_iff.mp hminute
    split at hz
    case isTrue => cases hz
    case isFalse hgate =>
      cases hz
      simp only [Bool.or_eq_true, decide_eq_true_eq, Bool.and_eq_true, beq_iff_eq, bne_iff_ne, not_or, not_and,
        not_not, Bool.not_eq_true', List.isEmpty_eq_false_iff] at hgate
      obtain ⟨⟨⟨hm, hh⟩, hlast⟩, rfl⟩ := hgate
      refine ⟨hs, ms, h, m, by simp, hhs, hms, by omega, ?_, rfl⟩
      by_cases hfourteen : h = 14
      · rw [hfourteen, hlast hfourteen]
      · omega
  · rintro ⟨hs, ms, h, m, rfl, hhs, hms, hm, hh, rfl⟩
    have hminutes := hms.reads []
    rw [List.append_nil] at hminutes
    refine ⟨_, hhs.reads _, _, rfl, _, hminutes, if_neg ?_⟩
    simp only [Bool.or_eq_true, decide_eq_true_eq, Bool.and_eq_true, beq_iff_eq, bne_iff_ne, List.isEmpty_nil,
      Bool.not_true, Bool.false_eq_true, or_false]
    omega

/-- An offset is read if and only if it has the form of one. -/
private theorem readOffset?_eq_some_iff : readOffset? cs = some z ↔ OffsetForm cs z := by
  constructor
  · intro h
    unfold readOffset? at h
    split at h
    case h_1 =>
      cases h
      exact .absent
    case h_2 =>
      cases h
      exact .universal
    case h_3 sign rest _ =>
      by_cases hplus : sign = '+'
      · subst hplus
        obtain ⟨hs, ms, h, m, rfl, hhs, hms, hm, hh, rfl⟩ := offsetOf_eq_some_iff.mp h
        exact .ahead hhs hms hm hh
      · by_cases hminus : sign = '-'
        · subst hminus
          obtain ⟨hs, ms, h, m, rfl, hhs, hms, hm, hh, rfl⟩ := offsetOf_eq_some_iff.mp h
          exact .behind hhs hms hm hh
        · simp only [if_neg hplus, if_neg hminus] at h
          cases h
  · intro h
    cases h with
    | absent => rfl
    | universal => rfl
    | ahead hhs hms hm hh =>
      rw [readOffset?_plus]
      exact offsetOf_eq_some_iff.mpr ⟨_, _, _, _, rfl, hhs, hms, hm, hh, rfl⟩
    | behind hhs hms hm hh =>
      rw [readOffset?_minus]
      exact offsetOf_eq_some_iff.mpr ⟨_, _, _, _, rfl, hhs, hms, hm, hh, rfl⟩

end

/-- A reader whose form is recognized reads the literals of this form. -/
theorem Recognizes.withOffset_eq_some_iff {α : Type} {reader : Reader α} {Form : List Char → α → Prop}
    (h : Recognizes reader Form) {cs : List Char} {v : α} {z : Option Offset} :
    withOffset reader cs = some (v, z) ↔ Written Form cs v z := by
  simp only [withOffset, Option.bind_eq_bind, Option.bind_eq_some_iff]
  constructor
  · rintro ⟨⟨v', rest⟩, hread, z', hoffset, hv⟩
    cases hv
    obtain ⟨front, rfl, hform⟩ := h.sound hread
    exact ⟨front, rest, rfl, hform, readOffset?_eq_some_iff.mp hoffset⟩
  · rintro ⟨front, back, rfl, hform, hoffset⟩
    exact ⟨_, h.complete hform hoffset.ends, z, readOffset?_eq_some_iff.mpr hoffset, rfl⟩

/-- A time as a value does not remember whether it was the end of a day. -/
private theorem timeOfText?_eq_some_iff {cs : List Char} {t : TimeOfDay} {z : Option Offset} :
    timeOfText? cs = some (t, z) ↔ ∃ endOfDay, withOffset readTime cs = some ((t, endOfDay), z) := by
  simp only [timeOfText?, Option.bind_eq_bind, Option.bind_eq_some_iff]
  constructor
  · rintro ⟨⟨⟨t', endOfDay⟩, z'⟩, hread, h⟩
    cases h
    exact ⟨endOfDay, hread⟩
  · rintro ⟨endOfDay, hread⟩
    exact ⟨_, hread, rfl⟩

/-- **The literals of dates and times** are those of the grammar, and each is read as what it stands for. The end of
the day is read with a fraction, too, if it begins with nine zeros. -/
theorem calendar_literals (cs : List Char) (z : Option Offset) :
    (∀ d, dateOfText? cs = some (d, z) ↔ Written DateForm cs d z) ∧
    (∀ t, timeOfText? cs = some (t, z) ↔ ∃ endOfDay, Written ReadableTime cs (t, endOfDay) z) ∧
    (∀ t, dateTimeOfText? cs = some (t, z) ↔ Written (DateTimeForm ReadableTime) cs t z) := by
  refine ⟨fun d => recognizes_date.withOffset_eq_some_iff, fun t => ?_,
    fun t => recognizes_dateTime.withOffset_eq_some_iff⟩
  rw [timeOfText?_eq_some_iff]
  exact exists_congr fun _ => recognizes_time.withOffset_eq_some_iff

/-- The end of the day with a fraction that is not zero is read as midnight, although it is no literal. -/
theorem overlongEnd_read :
    timeOfText? "24:00:00.0000000001".toList = some (.midnight, none) ∧
      ¬ ∃ p z, Written TimeForm "24:00:00.0000000001".toList p z := by
  refine ⟨by decide +kernel, ?_⟩
  rintro ⟨p, z, front, back, hcs, hform, hoffset⟩
  have hread := recognizes_time.complete (.inl hform) hoffset.ends
  have hmidnight : readTime "24:00:00.0000000001".toList = some ((.midnight, true), []) := by decide +kernel
  rw [← hcs, hmidnight] at hread
  cases hread
  rw [List.append_nil] at hcs
  cases hform with
  | endOfDay hclock hzeros =>
    have hfraction := hclock.fraction
    rw [← hcs] at hfraction
    cases hfraction with
    | point => exact absurd (hzeros '1' (by decide)) (by decide)

end LazyXPath.Calendar
