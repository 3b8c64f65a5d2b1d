import LazyXPath.Calendar.Lexical
import LazyXPath.Proofs.RoundTrip.Number

/-!
# Dates and times are read back

A literal is a text of fixed-width components and an offset behind it. `Reads` says that a reader takes
a written component off the front of a text and leaves what follows, provided that this does not look
like more of the component; a reader of a whole literal is put together from the readers of its parts,
and so is the proof that it reads what was written. What was read before bounds the components: an
offset is a whole number of minutes up to fourteen hours (`regular_of_readOffset?`), a year fits into
32 bits, months and days have two digits.
-/

namespace LazyXPath.Calendar

open Text

/-! ### Components -/

/-- What may follow a component: neither a digit nor a point. -/
def Ends (rest : List Char) : Prop := ∀ c ∈ rest.head?, c.isDigit = false ∧ c ≠ '.'

@[simp] theorem Ends.nil : Ends [] := fun _ hc => nomatch hc

@[simp] theorem Ends.cons_iff {c : Char} {cs : List Char} :
    Ends (c :: cs) ↔ c.isDigit = false ∧ c ≠ '.' := by
  simp [Ends]

/-- What ends a component ends its digits. -/
theorem Ends.noDigit {rest : List Char} (h : Ends rest) : NoDigit rest := fun c hc => (h c hc).1

/-- A reader takes a text off the front as a value. -/
def Reads {α : Type} (reader : Reader α) (text : String) (value : α) : Prop :=
  ∀ rest, Ends rest → reader (text.toList ++ rest) = some (value, rest)

@[simp] theorem expect_self (c : Char) (rest : List Char) : expect c (c :: rest) = some rest :=
  if_pos rfl

/-- A number below a hundred, written with two digits. -/
private theorem twoDigits_padded {n : Nat} (hn : n < 100) (rest : List Char) :
    twoDigits ((padded 2 n).toList ++ rest) = some (n, rest) := by
  have hlen : (padded 2 n).toList.length = 2 := padded.length_eq (by decide) hn
  obtain ⟨a, b, hab⟩ := List.length_eq_two.mp hlen
  have ha : a.isDigit := padded.isDigit (w := 2) (n := n) (by simp [hab])
  have hb : b.isDigit := padded.isDigit (w := 2) (n := n) (by simp [hab])
  have hvalue : 10 * digitValue a + digitValue b = n := by
    have := padded.digitsValue 2 n
    rw [hab] at this
    simpa [digitsValue] using this
  simp [hab, twoDigits, ha, hb, hvalue]

/-! ### Years -/

/-- The year at the front of a text behind its sign. -/
def yearOf (negative : Bool) (body : List Char) : Option (Int × List Char) :=
  let digits := body.takeWhile Char.isDigit
  if digits.length < 4 || (4 < digits.length && digits.head? == some '0') then none
  else if twoTo 31 ≤ digitsValue digits then none
  else some (if negative then -(digitsValue digits : Int) else digitsValue digits,
    body.drop digits.length)

/-- A minus sign belongs to the year. -/
theorem readYear_minus (body : List Char) : readYear ('-' :: body) = yearOf true body := by
  simp only [readYear, yearOf]
  split_ifs <;> rfl

/-- Without one the year is not negative. -/
theorem readYear_of_ne {c : Char} (hc : c ≠ '-') (cs : List Char) :
    readYear (c :: cs) = yearOf false (c :: cs) := by
  simp only [readYear, yearOf]
  split
  case h_1 heq => exact absurd (List.cons.inj heq).1 hc
  case h_2 => split_ifs <;> rfl

/-- Years are read only up to 31 bits. -/
private theorem natAbs_lt_of_yearOf {negative : Bool} {body rest : List Char} {y : Int}
    (h : yearOf negative body = some (y, rest)) : y.natAbs < twoTo 31 := by
  simp only [yearOf] at h
  split_ifs at h with h₁ h₂ h₃
  all_goals
    simp only [Option.some.injEq, Prod.mk.injEq] at h
    rw [← h.1]
    simpa using h₂

/-- The same with a sign. -/
theorem natAbs_lt_of_readYear {cs rest : List Char} {y : Int} (h : readYear cs = some (y, rest)) :
    y.natAbs < twoTo 31 := by
  cases cs with
  | nil => exact nomatch h
  | cons c cs =>
    by_cases hc : c = '-'
    · rw [hc, readYear_minus] at h
      exact natAbs_lt_of_yearOf h
    · rw [readYear_of_ne hc] at h
      exact natAbs_lt_of_yearOf h

/-- Years are padded to four digits, so that no more of them start with a zero. -/
private theorem yearOf_padded (negative : Bool) {n : Nat} (hn : n < twoTo 31) {rest : List Char}
    (hrest : NoDigit rest) : yearOf negative ((padded 4 n).toList ++ rest) =
      some (if negative then -(n : Int) else n, rest) := by
  have hdigits := takeWhile_isDigit (fun _ => padded.isDigit (w := 4) (n := n)) hrest
  have hlen : 4 ≤ (padded 4 n).toList.length := padded.le_length 4 n
  -- more than four digits are not padded, so they do not begin with a zero
  have hzero : ¬ (4 < (padded 4 n).toList.length ∧ (padded 4 n).toList.head? = some '0') := by
    rintro ⟨hlong, hhead⟩
    rw [padded.toList, List.length_append, List.length_replicate] at hlong
    have hpad : 4 - (Nat.toDigits 10 n).length = 0 := by omega
    rw [padded.toList, hpad, List.replicate_zero, List.nil_append] at hhead
    refine head?_toDigits_ne_zero (fun h0 => ?_) hhead
    rw [h0] at hlong
    exact absurd hlong (by decide)
  have hgate : (decide ((padded 4 n).toList.length < 4) ||
      (decide (4 < (padded 4 n).toList.length) && (padded 4 n).toList.head? == some '0')) = false := by
    simpa [Nat.not_lt.mpr hlen] using hzero
  simp only [yearOf, hdigits, hgate, padded.digitsValue, Nat.not_le.mpr hn, if_false,
    Bool.false_eq_true, List.drop_left]

/-- A year is written with a sign and at least four digits, and read back. -/
private theorem readYear_yearText {y : Int} (hy : y.natAbs < twoTo 31) {rest : List Char}
    (hrest : NoDigit rest) : readYear ((yearText y).toList ++ rest) = some (y, rest) := by
  by_cases hneg : y < 0
  · have hvalue : -(y.natAbs : Int) = y := by omega
    have htext : (yearText y).toList = '-' :: (padded 4 y.natAbs).toList := by simp [yearText, hneg]
    rw [htext, List.cons_append, readYear_minus, yearOf_padded _ hy hrest]
    simp only [if_true, hvalue]
  · have hvalue : (y.natAbs : Int) = y := by omega
    have htext : (yearText y).toList = (padded 4 y.natAbs).toList := by simp [yearText, hneg]
    have hlen : 4 ≤ (padded 4 y.natAbs).toList.length := padded.le_length 4 y.natAbs
    obtain ⟨c, cs, hcs⟩ : ∃ c cs, (padded 4 y.natAbs).toList = c :: cs :=
      List.exists_cons_of_ne_nil (List.ne_nil_of_length_pos (by omega))
    have hc : c ≠ '-' := by
      rintro rfl
      exact absurd (padded.isDigit (w := 4) (n := y.natAbs) (c := '-') (by simp [hcs])) (by decide)
    have hread := yearOf_padded false hy hrest
    rw [htext]
    rw [hcs, List.cons_append] at hread ⊢
    rw [readYear_of_ne hc, hread]
    simp only [Bool.false_eq_true, if_false, hvalue]

private theorem solid_yearText (y : Int) : Solid (yearText y).toList := by
  have hminus : isBlank '-' = false := by decide
  by_cases hneg : y < 0 <;> simp [yearText, hneg, hminus, padded.solid]

/-! ### Seconds -/

/-- Zeros at the end of a list are dropped and can be put back. -/
theorem exists_replicate_append (ds : List Char) : ∃ k,
    (ds.reverse.dropWhile (· == '0')).reverse ++ List.replicate k '0' = ds := by
  refine ⟨(ds.reverse.takeWhile (· == '0')).length, ?_⟩
  have hzeros : ds.reverse.takeWhile (· == '0') =
      List.replicate (ds.reverse.takeWhile (· == '0')).length '0' := by
    refine List.eq_replicate_of_mem fun c hc => ?_
    exact beq_iff_eq.mp (List.all_eq_true.mp List.all_takeWhile c hc)
  have hsplit := List.takeWhile_append_dropWhile (p := (· == '0')) (l := ds.reverse)
  rw [← List.reverse_inj, List.reverse_append, List.reverse_replicate, List.reverse_reverse, ← hzeros,
    hsplit]

/-- The digits of a fraction are nine digits without the zeros at the end. -/
private theorem exists_fractionDigits_append (nanos : Nat) : ∃ k,
    fractionDigits nanos ++ List.replicate k '0' = (padded 9 nanos).toList :=
  exists_replicate_append _

private theorem fractionDigits_isDigit {nanos : Nat} {c : Char} (hc : c ∈ fractionDigits nanos) : c.isDigit := by
  obtain ⟨k, hk⟩ := exists_fractionDigits_append nanos
  exact padded.isDigit (w := 9) (n := nanos) (by rw [← hk]; exact List.mem_append_left _ hc)

/-- Padding the digits of a fraction to nanoseconds gives the nanoseconds. -/
theorem take_fractionDigits {nanos : Nat} (hn : nanos < nanosPerSecond) :
    (fractionDigits nanos ++ List.replicate 9 '0').take 9 = (padded 9 nanos).toList := by
  obtain ⟨k, hk⟩ := exists_fractionDigits_append nanos
  have hlen : (padded 9 nanos).toList.length = 9 := padded.length_eq (by decide) hn
  have hk' : (fractionDigits nanos).length + k = 9 := by
    rw [← hlen, ← hk, List.length_append, List.length_replicate]
  have hrest : min (9 - (fractionDigits nanos).length) 9 = k := by omega
  rw [List.take_append, List.take_of_length_le (by omega), List.take_replicate, hrest, hk]

/-- A fraction that is not zero has a digit. -/
private theorem fractionDigits_ne_nil {nanos : Nat} (hn : nanos ≠ 0) : fractionDigits nanos ≠ [] := by
  intro hnil
  obtain ⟨k, hk⟩ := exists_fractionDigits_append nanos
  rw [hnil, List.nil_append] at hk
  have hvalue := padded.digitsValue 9 nanos
  rw [← hk, ← List.append_nil (List.replicate k '0'), digitsValue_replicate_append] at hvalue
  exact hn hvalue.symm

/-- The fraction that follows whole seconds, with its point. -/
def fractionText (nanos : Nat) : List Char := if nanos = 0 then [] else '.' :: fractionDigits nanos

/-- Seconds are written with two digits and the fraction behind them. -/
private theorem toList_secondText (second nanos : Nat) :
    (secondText second nanos).toList = (padded 2 second).toList ++ fractionText nanos := by
  unfold secondText fractionText
  split <;> simp

/-- A fraction is read back at nine digits, whichever zeros have been left out. -/
private theorem readNanos_fractionText {nanos : Nat} (hn : nanos < nanosPerSecond) {rest : List Char}
    (hrest : Ends rest) : readNanos (fractionText nanos ++ rest) = some (nanos, rest) := by
  by_cases hzero : nanos = 0
  · rw [fractionText, if_pos hzero, List.nil_append, hzero]
    cases rest with
    | nil => rfl
    | cons c rest =>
      have hpoint : c ≠ '.' := (Ends.cons_iff.mp hrest).2
      simp [readNanos, hpoint]
  · have hall : ∀ c ∈ fractionDigits nanos, c.isDigit := fun _ => fractionDigits_isDigit
    have hdigits := takeWhile_isDigit hall hrest.noDigit
    have hempty : (fractionDigits nanos).isEmpty = false := by
      simpa using fractionDigits_ne_nil hzero
    rw [fractionText, if_neg hzero, List.cons_append]
    simp only [readNanos, hdigits, hempty, take_fractionDigits hn, padded.digitsValue, List.drop_left,
      Bool.false_eq_true, if_false]

private theorem solid_fractionText (nanos : Nat) : Solid (fractionText nanos) := by
  have hpoint : isBlank '.' = false := by decide
  have hdigits : Solid (fractionDigits nanos) := .of_isDigit fun _ => fractionDigits_isDigit
  unfold fractionText
  split <;> simp [hpoint, hdigits]

/-! ### Offsets -/

/-- An offset that can be written: a whole number of minutes up to fourteen hours. -/
def Regular (z : Option Offset) : Prop :=
  ∀ o ∈ z, o.seconds.natAbs % 60 = 0 ∧ o.seconds.natAbs ≤ 50400

@[simp] theorem Regular.none : Regular none := fun _ ho => nomatch ho

/-- The offset that hours and minutes behind a sign make. -/
def offsetOf (negative : Bool) (rest : List Char) : Option (Option Offset) := do
  let (hours, rest) ← twoDigits rest
  let rest ← expect ':' rest
  let (minutes, rest) ← twoDigits rest
  if 59 < minutes || 14 < hours || (hours == 14 && minutes != 0) || !rest.isEmpty then none
  else some (some ⟨if negative then -((hours * 3600 + minutes * 60 : Nat) : Int)
    else (hours * 3600 + minutes * 60 : Nat)⟩)

theorem readOffset?_plus (rest : List Char) : readOffset? ('+' :: rest) = offsetOf false rest := rfl

theorem readOffset?_minus (rest : List Char) : readOffset? ('-' :: rest) = offsetOf true rest := rfl

/-- Besides a signed offset and no offset at all there is only the letter for universal time. -/
theorem readOffset?_other {sign : Char} (hplus : sign ≠ '+') (hminus : sign ≠ '-') {rest : List Char}
    {z : Option Offset} (h : readOffset? (sign :: rest) = some z) : z = some ⟨0⟩ := by
  unfold readOffset? at h
  split at h
  case h_1 heq => exact nomatch heq
  case h_2 => exact (Option.some.inj h).symm
  case h_3 heq =>
    cases heq
    simp only [if_neg hplus, if_neg hminus] at h
    exact nomatch h

/-- Hours and minutes behind a sign are a regular offset, as the reader checks both. -/
private theorem regular_of_offsetOf {negative : Bool} {rest : List Char} {z : Option Offset}
    (h : offsetOf negative rest = some z) : Regular z := by
  simp only [offsetOf, Option.bind_eq_bind, Option.bind_eq_some_iff] at h
  obtain ⟨⟨hours, _⟩, -, _, -, ⟨minutes, rest'⟩, -, h⟩ := h
  split at h
  case isTrue => exact nomatch h
  case isFalse hgate =>
    cases h
    simp only [Bool.or_eq_true, decide_eq_true_eq, Bool.and_eq_true, beq_iff_eq, bne_iff_ne, not_or,
      not_and, not_not] at hgate
    have hsize : (if negative then -((hours * 3600 + minutes * 60 : Nat) : Int)
        else (hours * 3600 + minutes * 60 : Nat)).natAbs = hours * 3600 + minutes * 60 := by
      split <;> omega
    rintro o ⟨⟩
    rw [hsize]
    omega

/-- An offset that is read is regular. -/
theorem regular_of_readOffset? {cs : List Char} {z : Option Offset} (h : readOffset? cs = some z) :
    Regular z := by
  cases cs with
  | nil =>
    cases h
    exact .none
  | cons sign rest =>
    by_cases hplus : sign = '+'
    · rw [hplus, readOffset?_plus] at h
      exact regular_of_offsetOf h
    · by_cases hminus : sign = '-'
      · rw [hminus, readOffset?_minus] at h
        exact regular_of_offsetOf h
      · rw [readOffset?_other hplus hminus h]
        simp [Regular]

/-- How an offset other than zero is written. -/
theorem toList_offsetText {o : Offset} (h : o.seconds ≠ 0) : (offsetText (some o)).toList =
    (if decide (o.seconds < 0) then '-' else '+') ::
      ((padded 2 (o.seconds.natAbs / 3600)).toList ++
        ':' :: (padded 2 (o.seconds.natAbs % 3600 / 60)).toList) := by
  by_cases hneg : o.seconds < 0 <;> simp [offsetText, h, hneg]

/-- Universal time is written as a letter. -/
private theorem toList_offsetText_zero {o : Offset} (h : o.seconds = 0) : (offsetText (some o)).toList = ['Z'] := by
  simp [offsetText, h]

/-- An offset ends the component before it: it begins with a sign or a letter. -/
private theorem ends_offsetText (z : Option Offset) : Ends (offsetText z).toList := by
  cases z with
  | none => simp [offsetText]
  | some o =>
    by_cases h : o.seconds = 0
    · rw [toList_offsetText_zero h, Ends.cons_iff]
      decide
    · rw [toList_offsetText h, Ends.cons_iff]
      split <;> decide

private theorem solid_offsetText (z : Option Offset) : Solid (offsetText z).toList := by
  cases z with
  | none => simp [offsetText]
  | some o =>
    by_cases h : o.seconds = 0
    · rw [toList_offsetText_zero h, Solid.cons_iff]
      exact ⟨by decide, .nil⟩
    · rw [toList_offsetText h]
      simp only [Solid.cons_iff, Solid.append_iff, padded.solid, and_true, true_and]
      exact ⟨by split <;> decide, by decide⟩

/-- Hours and minutes, two digits each, are read back up to fourteen hours. -/
private theorem offsetOf_padded (negative : Bool) (hours minutes : Nat) (hh : hours ≤ 14)
    (hm : minutes ≤ 59) (hlast : hours = 14 → minutes = 0) :
    offsetOf negative ((padded 2 hours).toList ++ ':' :: (padded 2 minutes).toList) =
      some (some ⟨if negative then -((hours * 3600 + minutes * 60 : Nat) : Int)
        else (hours * 3600 + minutes * 60 : Nat)⟩) := by
  have hhours := twoDigits_padded (n := hours) (by omega) (':' :: (padded 2 minutes).toList)
  have hminutes := twoDigits_padded (n := minutes) (by omega) []
  rw [List.append_nil] at hminutes
  have hgate : ¬ (decide (59 < minutes) || decide (14 < hours) || (hours == 14 && minutes != 0) ||
      !List.isEmpty ([] : List Char)) = true := by
    simp only [Bool.or_eq_true, decide_eq_true_eq, Bool.and_eq_true, beq_iff_eq, bne_iff_ne,
      List.isEmpty_nil, Bool.not_true, Bool.false_eq_true, or_false]
    rintro ((h | h) | ⟨h, hne⟩)
    · omega
    · omega
    · exact hne (hlast h)
  simp only [offsetOf, hhours, hminutes, expect_self, Option.bind_eq_bind, Option.bind_some, if_neg hgate]

/-- A regular offset is read back, and so is its absence. -/
private theorem readOffset?_offsetText {z : Option Offset} (hz : Regular z) :
    readOffset? (offsetText z).toList = some z := by
  cases z with
  | none => rfl
  | some o =>
    obtain ⟨hwhole, hle⟩ := hz o rfl
    by_cases h : o.seconds = 0
    · obtain ⟨s⟩ := o
      obtain rfl : s = 0 := h
      rfl
    · have hvalue : o.seconds.natAbs / 3600 * 3600 + o.seconds.natAbs % 3600 / 60 * 60 =
          o.seconds.natAbs := by omega
      have hread := offsetOf_padded (decide (o.seconds < 0)) (o.seconds.natAbs / 3600)
        (o.seconds.natAbs % 3600 / 60) (by omega) (by omega) (by omega)
      rw [hvalue, signed_natAbs] at hread
      rw [toList_offsetText h]
      by_cases hneg : o.seconds < 0
      · simpa [hneg, readOffset?_minus] using hread
      · simpa [hneg, readOffset?_plus] using hread

/-! ### Literals -/

/-- The parts of a date are those of a date. -/
theorem Date.ofParts?_self (d : Date) : Date.ofParts? d.year d.month d.day = some d :=
  dif_pos ⟨d.year_mem, d.month_mem, d.day_mem⟩

/-- No month is longer than 31 days. -/
theorem Date.day_le (d : Date) : d.day ≤ 31 := by
  have hlength : daysInMonth d.year d.month ≤ 31 := by
    unfold daysInMonth
    split <;> [split; skip; skip; skip; skip; skip] <;> omega
  exact d.day_mem.2.trans hlength

/-- A time is put together from its parts, which are in range. -/
theorem TimeOfDay.ofParts?_self (t : TimeOfDay) :
    TimeOfDay.ofParts? t.hour t.minute t.second t.nanosecond = some t ∧
      t.hour < 24 ∧ t.minute < 60 ∧ t.second < 60 ∧ t.nanosecond < nanosPerSecond := by
  obtain ⟨n, hn⟩ := t
  have hparts : n / nanosPerSecond / 3600 < 24 ∧ n / nanosPerSecond / 60 % 60 < 60 ∧
      n / nanosPerSecond % 60 < 60 ∧ n % nanosPerSecond < nanosPerSecond := by
    simp only [nanosPerDay, nanosPerSecond] at *
    omega
  have hvalue : ((n / nanosPerSecond / 3600 * 60 + n / nanosPerSecond / 60 % 60) * 60 +
      n / nanosPerSecond % 60) * nanosPerSecond + n % nanosPerSecond = n := by
    simp only [nanosPerSecond]
    omega
  refine ⟨?_, hparts⟩
  simp only [ofParts?, hour, minute, second, nanosecond, dif_pos hparts, hvalue]

private theorem marks_solid : isBlank '-' = false ∧ isBlank ':' = false ∧ isBlank 'T' = false := by decide

private theorem solid_dateText (d : Date) : Solid (dateText d none).toList := by
  simp [dateText, offsetText, solid_yearText, padded.solid, marks_solid]

private theorem solid_timeText (t : TimeOfDay) : Solid (timeText t none).toList := by
  simp [timeText, offsetText, toList_secondText, padded.solid, solid_fractionText, marks_solid]

/-- A year, taken off the front of a text. -/
private theorem reads_yearText {y : Int} (hy : y.natAbs < twoTo 31) : Reads readYear (yearText y) y :=
  fun _ hrest => readYear_yearText hy hrest.noDigit

/-- A date, component by component. -/
private theorem reads_dateText (d : Date) : Reads readDate (dateText d none) d := by
  intro rest hrest
  have hy := d.year_mem
  have hm := d.month_mem
  have hd := d.day_le
  have htext : (dateText d none).toList ++ rest = (yearText d.year).toList ++
      '-' :: ((padded 2 d.month).toList ++ '-' :: ((padded 2 d.day).toList ++ rest)) := by
    simp [dateText, offsetText]
  have hyear : d.year.natAbs < twoTo 31 := by
    simp only [firstYear, lastYear] at hy
    show d.year.natAbs < 2147483648
    omega
  have hdash : NoDigit ('-' :: ((padded 2 d.month).toList ++ '-' :: ((padded 2 d.day).toList ++ rest))) :=
    NoDigit.cons_iff.mpr (by decide)
  rw [htext]
  simp only [readDate, readYear_yearText hyear hdash, Option.bind_eq_bind, Option.bind_some, expect_self,
    twoDigits_padded (n := d.month) (by omega), twoDigits_padded (n := d.day) (by omega), d.ofParts?_self]
  rfl

/-- A time of the day. It is never written as the end of a day. -/
private theorem reads_timeText (t : TimeOfDay) : Reads readTime (timeText t none) (t, false) := by
  intro rest hrest
  obtain ⟨hself, hh, hm, hs, hn⟩ := t.ofParts?_self
  have htext : (timeText t none).toList ++ rest = (padded 2 t.hour).toList ++
      ':' :: ((padded 2 t.minute).toList ++ ':' :: ((padded 2 t.second).toList ++
        (fractionText t.nanosecond ++ rest))) := by
    simp [timeText, offsetText, toList_secondText]
  have hend : (t.hour == 24) = false := by
    rw [beq_eq_false_iff_ne]
    omega
  rw [htext]
  simp only [readTime, Option.bind_eq_bind, Option.bind_some, expect_self,
    twoDigits_padded (n := t.hour) (by omega), twoDigits_padded (n := t.minute) (by omega),
    twoDigits_padded (n := t.second) (by omega), readNanos_fractionText hn hrest, hself, hend,
    Bool.false_and, Bool.false_eq_true, if_false]
  rfl

/-- A date and a time with a letter between them. -/
private theorem reads_dateTimeText (t : DateTime) : Reads readDateTime (dateTimeText t none) t := by
  intro rest hrest
  have hT : Ends ('T' :: ((timeText t.time none).toList ++ rest)) := Ends.cons_iff.mpr (by decide)
  have htext : (dateTimeText t none).toList ++ rest =
      (dateText t.date none).toList ++ 'T' :: ((timeText t.time none).toList ++ rest) := by
    simp [dateTimeText]
  rw [htext]
  simp only [readDateTime, reads_dateText t.date _ hT, reads_timeText t.time _ hrest, expect_self,
    Option.bind_eq_bind, Option.bind_some, Bool.false_eq_true, if_false]
  rfl

/-- A month of the year. -/
def IsMonth (m : Nat) : Prop := 1 ≤ m ∧ m ≤ 12

/-- A year and a month. -/
private theorem reads_yearMonthLiteral {y : Int} {m : Nat} (hy : y.natAbs < twoTo 31) (hm : IsMonth m) :
    Reads readYearAndMonth (yearMonthLiteral y m none) (y, m) := by
  intro rest hrest
  have htext : (yearMonthLiteral y m none).toList ++ rest =
      (yearText y).toList ++ '-' :: ((padded 2 m).toList ++ rest) := by
    simp [yearMonthLiteral, offsetText]
  have hdash : NoDigit ('-' :: ((padded 2 m).toList ++ rest)) := NoDigit.cons_iff.mpr (by decide)
  have htwo := twoDigits_padded (n := m) (by have := hm.2; omega) rest
  rw [htext]
  simp only [readYearAndMonth, readYear_yearText hy hdash, htwo, expect_self, Option.bind_eq_bind,
    Option.bind_some, if_pos (show 1 ≤ m ∧ m ≤ 12 from hm)]

/-- A month, with the dashes that stand for the year. -/
private theorem reads_monthLiteral {m : Nat} (hm : IsMonth m) : Reads readMonth (monthLiteral m none) m := by
  intro rest hrest
  have htext : (monthLiteral m none).toList ++ rest = '-' :: '-' :: ((padded 2 m).toList ++ rest) := by
    simp [monthLiteral, offsetText]
  have htwo := twoDigits_padded (n := m) (by have := hm.2; omega) rest
  rw [htext]
  simp only [readMonth, htwo, expect_self, Option.bind_eq_bind, Option.bind_some,
    if_pos (show 1 ≤ m ∧ m ≤ 12 from hm)]

/-- A day of a month, which has to exist in a leap year. -/
private theorem reads_monthDayLiteral {m d : Nat} (h : (Date.ofParts? 2000 m d).isSome) :
    Reads readMonthAndDay (monthDayLiteral m d none) (m, d) := by
  intro rest hrest
  obtain ⟨date, hdate⟩ := Option.isSome_iff_exists.mp h
  have hm : date.month = m ∧ date.day = d := by
    unfold Date.ofParts? at hdate
    split at hdate
    · cases hdate
      exact ⟨rfl, rfl⟩
    · exact nomatch hdate
  have hmonth := date.month_mem
  have hday := date.day_le
  have htext : (monthDayLiteral m d none).toList ++ rest =
      '-' :: '-' :: ((padded 2 m).toList ++ '-' :: ((padded 2 d).toList ++ rest)) := by
    simp [monthDayLiteral, offsetText]
  rw [htext]
  simp only [readMonthAndDay, expect_self, Option.bind_eq_bind, Option.bind_some,
    twoDigits_padded (n := m) (by omega), twoDigits_padded (n := d) (by omega), if_pos h]

/-- A day of any month. -/
private theorem reads_dayLiteral {d : Nat} (hd : 1 ≤ d ∧ d ≤ 31) : Reads readDay (dayLiteral d none) d := by
  intro rest hrest
  have htext : (dayLiteral d none).toList ++ rest =
      '-' :: '-' :: '-' :: ((padded 2 d).toList ++ rest) := by
    simp [dayLiteral, offsetText]
  rw [htext]
  simp only [readDay, expect_self, Option.bind_eq_bind, Option.bind_some,
    twoDigits_padded (n := d) (by omega), if_pos hd]

/-! ### What was read -/

/-- What has been read as a year and a month is in range. -/
theorem of_readYearAndMonth {cs rest : List Char} {y : Int} {m : Nat}
    (h : readYearAndMonth cs = some ((y, m), rest)) : y.natAbs < twoTo 31 ∧ IsMonth m := by
  simp only [readYearAndMonth, Option.bind_eq_bind, Option.bind_eq_some_iff] at h
  obtain ⟨⟨y', _⟩, hyear, _, -, ⟨m', _⟩, -, h⟩ := h
  split at h
  case isTrue hm =>
    cases h
    exact ⟨natAbs_lt_of_readYear hyear, hm⟩
  case isFalse => exact nomatch h

/-- What has been read as a month is one. -/
theorem of_readMonth {cs rest : List Char} {m : Nat} (h : readMonth cs = some (m, rest)) :
    IsMonth m := by
  simp only [readMonth, Option.bind_eq_bind, Option.bind_eq_some_iff] at h
  obtain ⟨_, -, _, -, ⟨m', _⟩, -, h⟩ := h
  split at h
  case isTrue hm =>
    cases h
    exact hm
  case isFalse => exact nomatch h

/-- What has been read as a day of a month exists in a leap year. -/
theorem of_readMonthAndDay {cs rest : List Char} {m d : Nat}
    (h : readMonthAndDay cs = some ((m, d), rest)) : (Date.ofParts? 2000 m d).isSome := by
  simp only [readMonthAndDay, Option.bind_eq_bind, Option.bind_eq_some_iff] at h
  obtain ⟨_, -, _, -, ⟨m', _⟩, -, _, -, ⟨d', _⟩, -, h⟩ := h
  split at h
  case isTrue hd =>
    cases h
    exact hd
  case isFalse => exact nomatch h

/-- What has been read as a day is one of 31. -/
theorem of_readDay {cs rest : List Char} {d : Nat} (h : readDay cs = some (d, rest)) :
    1 ≤ d ∧ d ≤ 31 := by
  simp only [readDay, Option.bind_eq_bind, Option.bind_eq_some_iff] at h
  obtain ⟨_, -, _, -, _, -, ⟨d', _⟩, -, h⟩ := h
  split at h
  case isTrue hd =>
    cases h
    exact hd
  case isFalse => exact nomatch h

/-! ### Offsets behind literals -/

/-- What stands in front of an offset has been read by the reader, and the offset is regular. -/
theorem of_withOffset {α : Type} {reader : Reader α} {cs : List Char} {value : α} {z : Option Offset}
    (h : withOffset reader cs = some (value, z)) :
    (∃ rest, reader cs = some (value, rest)) ∧ Regular z := by
  simp only [withOffset, Option.bind_eq_bind, Option.bind_eq_some_iff] at h
  obtain ⟨⟨v, rest⟩, hread, z', hoffset, h⟩ := h
  cases h
  exact ⟨⟨rest, hread⟩, regular_of_readOffset? hoffset⟩

/-- A literal: a solid text that is read, to its end, as a value and an offset. -/
structure Literal {α : Type} (reader : Reader α) (text : String) (value : α) (z : Option Offset) :
    Prop where
  solid : Solid text.toList
  read : withOffset reader text.toList = some (value, z)

/-- A component that is read, with an offset behind it, is a literal. -/
theorem Literal.of_reads {α : Type} {reader : Reader α} {body text : String} {value : α}
    {z : Option Offset} (htext : text = body ++ offsetText z) (hsolid : Solid body.toList)
    (h : Reads reader body value) (hz : Regular z) : Literal reader text value z := by
  subst htext
  refine ⟨by simp [hsolid, solid_offsetText], ?_⟩
  rw [String.toList_append]
  simp only [withOffset, h _ (ends_offsetText z), readOffset?_offsetText hz, Option.bind_eq_bind,
    Option.bind_some]
  rfl

section Literals

variable {z : Option Offset} (hz : Regular z)

include hz

theorem literal_dateText (d : Date) : Literal readDate (dateText d z) d z :=
  .of_reads (by simp [dateText, offsetText]) (solid_dateText d) (reads_dateText d) hz

/-- A time as a literal. The end of a day is not written. -/
theorem literal_timeText (t : TimeOfDay) : Literal readTime (timeText t z) (t, false) z :=
  .of_reads (by simp [timeText, offsetText, String.append_assoc]) (solid_timeText t) (reads_timeText t) hz

theorem literal_dateTimeText (t : DateTime) : Literal readDateTime (dateTimeText t z) t z :=
  .of_reads (by simp [dateTimeText, timeText, offsetText, String.append_assoc])
    (by simp [dateTimeText, solid_dateText, solid_timeText, marks_solid]) (reads_dateTimeText t) hz

theorem literal_yearLiteral {y : Int} (hy : y.natAbs < twoTo 31) :
    Literal readYear (yearLiteral y z) y z :=
  .of_reads rfl (solid_yearText y) (reads_yearText hy) hz

theorem literal_yearMonthLiteral {y : Int} {m : Nat} (hy : y.natAbs < twoTo 31) (hm : IsMonth m) :
    Literal readYearAndMonth (yearMonthLiteral y m z) (y, m) z :=
  .of_reads (by simp [yearMonthLiteral, offsetText])
    (by simp [yearMonthLiteral, offsetText, solid_yearText, padded.solid, marks_solid])
    (reads_yearMonthLiteral hy hm) hz

theorem literal_monthLiteral {m : Nat} (hm : IsMonth m) : Literal readMonth (monthLiteral m z) m z :=
  .of_reads (by simp [monthLiteral, offsetText])
    (by simp [monthLiteral, offsetText, padded.solid, marks_solid]) (reads_monthLiteral hm) hz

theorem literal_monthDayLiteral {m d : Nat} (h : (Date.ofParts? 2000 m d).isSome) :
    Literal readMonthAndDay (monthDayLiteral m d z) (m, d) z :=
  .of_reads (by simp [monthDayLiteral, offsetText])
    (by simp [monthDayLiteral, offsetText, padded.solid, marks_solid]) (reads_monthDayLiteral h) hz

theorem literal_dayLiteral {d : Nat} (hd : 1 ≤ d ∧ d ≤ 31) : Literal readDay (dayLiteral d z) d z :=
  .of_reads (by simp [dayLiteral, offsetText])
    (by simp [dayLiteral, offsetText, padded.solid, marks_solid]) (reads_dayLiteral hd) hz

end Literals

end LazyXPath.Calendar
