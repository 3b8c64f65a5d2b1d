import LazyXPath.Proofs.RoundTrip.Bytes
import LazyXPath.Proofs.RoundTrip.Calendar
import LazyXPath.Proofs.RoundTrip.Duration

/-!
# Canonical texts are read back

A value that was read from a text has a canonical text, which may differ from the first one: white
space is gone, digits are upper-case, a fraction has lost its zeros, midnight at the end of a day is
one at the beginning of the next. `ofLexical_lexical` says that nothing else is lost: reading the
canonical text in the same type gives the value back, and so writing it again gives the same text.

The types that are left out are those of floating-point numbers and of day-time durations, whose texts
are rounded. A decimal comes back by value; see `Decimal.ofText?_toText`.

The proof goes by the type. A text type only has to leave normalized white space alone. For every other
type the canonical text is solid, so that normalization leaves it alone, and the reader of the type
takes it back (`Restored`).
-/

namespace LazyXPath

open Text Calendar

namespace Atomic

/-! ### Texts -/

/-- White space that has been normalized for a type is left alone by the next time. -/
theorem normalizeBlanks_normalizeBlanks (cs : List Char) (t : TextType) :
    normalizeBlanks (normalizeBlanks cs t) t = normalizeBlanks cs t := by
  cases t <;> first | rfl | exact replaceBreaks_replaceBreaks cs | exact collapse_collapse cs

/-- The characters of a text are its canonical text, which only has to pass the check of its form again. -/
private theorem ofLexical_text {T : ItemType} {t : TextType} (hT : TextType.ofItemType? T = some t)
    {text : String} {v : Atomic} (h : ofLexical text T = .ok v) :
    ofLexical v.lexical T = .ok v ∧ v.identical v = true := by
  simp only [ofLexical, hT] at h ⊢
  split at h
  case isTrue hform =>
    cases h
    refine ⟨?_, by simp [identical]⟩
    simp only [lexical, String.toList_ofList, normalizeBlanks_normalizeBlanks, if_pos hform]
  case isFalse => exact nomatch h

/-! ### Integers -/

/-- The integers of every type have 128 bits. -/
theorem bounds_of_holds {t : IntegerType} {i : Int} (h : t.holds i = true) :
    -(twoTo 127 : Int) ≤ i ∧ i < twoTo 127 := by
  have hleast : -(twoTo 127 : Int) ≤ t.least := by cases t <;> decide
  have hgreatest : t.greatest < (twoTo 127 : Int) := by cases t <;> decide
  simp only [IntegerType.holds, Bool.and_eq_true, decide_eq_true_eq] at h
  exact ⟨hleast.trans h.1, h.2.trans_lt hgreatest⟩

/-- The digits of an integer are read as the integer, whose range has been checked before. -/
private theorem ofLexical_integer {T : ItemType} {t : IntegerType} (hT : TextType.ofItemType? T = none)
    (hT' : IntegerType.ofItemType? T = some t) {text : String} {v : Atomic}
    (h : ofLexical text T = .ok v) : ofLexical v.lexical T = .ok v ∧ v.identical v = true := by
  simp only [ofLexical, hT, hT'] at h
  cases hi : integerOfText? (collapse text.toList) with
  | none => simp [hi] at h
  | some i =>
    simp only [hi, ofInteger] at h
    split at h
    case isTrue hholds =>
      cases h
      refine ⟨?_, by simp [identical]⟩
      simp only [ofLexical, hT, hT', lexical, (solid_toString i).collapse,
        integerOfText?_toString (bounds_of_holds hholds), ofInteger, if_pos hholds]
    case isFalse => split at h <;> exact nomatch h

/-! ### Names -/

/-- Only names without a prefix are read from texts, and such a name is its own text. -/
private theorem ofLexical_qname {text : String} {v : Atomic} (h : ofLexical text .qname = .ok v) :
    ofLexical v.lexical .qname = .ok v ∧ v.identical v = true := by
  have hT : TextType.ofItemType? .qname = none := by decide
  have hT' : IntegerType.ofItemType? .qname = none := by decide
  simp only [ofLexical, hT, hT', if_true] at h ⊢
  simp only [qnameOfText] at h ⊢
  cases hsplit : splitAtFirst ':' (collapse text.toList) with
  | none =>
    simp only [hsplit] at h
    split at h
    case isTrue hname =>
      cases h
      refine ⟨?_, by simp [identical]⟩
      simp only [lexical, String.toList_ofList, collapse_collapse, hsplit, if_pos hname]
    case isFalse => exact nomatch h
  | some p =>
    simp only [hsplit] at h
    split at h <;> exact nomatch h

/-! ### The other types -/

/-- The canonical text is solid, and the reader of the type takes it as the value: a decimal by value,
any other value as it is. -/
structure Restored (T : ItemType) (v : Atomic) : Prop where
  solid : Solid v.lexical.toList
  read : ∃ w, ofCollapsed? v.lexical.toList T = some w ∧ w.identical v = true ∧
    w.lexical = v.lexical ∧ (T ≠ .decimal → w = v)

/-- It is enough that the reader gives back the very same value. -/
private theorem Restored.of_eq {T : ItemType} {v : Atomic} (hsolid : Solid v.lexical.toList)
    (hread : ofCollapsed? v.lexical.toList T = some v) (hself : v.identical v = true) :
    Restored T v :=
  ⟨hsolid, v, hread, hself, rfl, fun _ => rfl⟩

private theorem restored_boolean (b : Bool) : Restored .boolean (.boolean b) := by
  cases b
  · exact .of_eq (by simp [lexical, isBlank]) rfl rfl
  · exact .of_eq (by simp [lexical, isBlank]) rfl rfl

/-- A decimal comes back with another number of places, perhaps, but with the same value and text. -/
private theorem restored_decimal (d : Decimal) : Restored .decimal (.decimal d) := by
  obtain ⟨w, hw, hvalue, htext⟩ := d.ofText?_toText
  exact ⟨d.normalize.solid_plainText, .decimal w, by simp [ofCollapsed?, lexical, hw], hvalue, htext,
    fun h => absurd rfl h⟩

section Calendar

variable {cs : List Char} {z : Option Offset}

/-- A type whose values are read from literals with an offset takes back what is written as one. -/
theorem Restored.of_literal {α : Type} {reader : Reader α} {value : α} {T : ItemType} {v : Atomic}
    {make : α × Option Offset → Atomic}
    (hT : ∀ cs, ofCollapsed? cs T = (withOffset reader cs).map make) (hmake : make (value, z) = v)
    (hself : v.identical v = true) (hl : Literal reader v.lexical value z) : Restored T v := by
  refine .of_eq hl.solid ?_ hself
  rw [hT, hl.read, Option.map_some, hmake]

private theorem restored_date {d : Date} (h : dateOfText? cs = some (d, z)) : Restored .date (.date d z) :=
  .of_literal (fun _ => rfl) rfl (by simp [identical]) (literal_dateText (of_withOffset h).2 d)

/-- The reader of times does not tell the end of a day from the beginning of one, so the written text is the
latter. -/
private theorem restored_time {t : TimeOfDay} (h : timeOfText? cs = some (t, z)) :
    Restored .time (.time t z) := by
  simp only [timeOfText?, Option.bind_eq_bind, Option.bind_eq_some_iff] at h
  obtain ⟨⟨⟨t', endOfDay⟩, z'⟩, hread, h⟩ := h
  obtain ⟨rfl, rfl⟩ : t' = t ∧ z' = z := by simpa using h
  have hl := literal_timeText (of_withOffset hread).2 t'
  refine .of_eq hl.solid ?_ (by simp [identical])
  rw [lexical, ofCollapsed?, timeOfText?, hl.read]
  rfl

private theorem restored_dateTime {t : DateTime} (h : dateTimeOfText? cs = some (t, z)) :
    Restored .dateTime (.dateTime t z) :=
  .of_literal (fun _ => rfl) rfl (by simp [identical]) (literal_dateTimeText (of_withOffset h).2 t)

/-- The offset is written, so it is there to be read. -/
private theorem restored_dateTimeStamp {t : DateTime} {o : Offset} (h : dateTimeOfText? cs = some (t, some o)) :
    Restored .dateTimeStamp (.dateTime t (some o)) := by
  have hl := literal_dateTimeText (of_withOffset h).2 t
  refine .of_eq hl.solid ?_ (by simp [identical])
  rw [lexical, ofCollapsed?, dateTimeOfText?, hl.read]

private theorem restored_gYear {y : Int} (h : withOffset readYear cs = some (y, z)) :
    Restored .gYear (.gYear y z) := by
  obtain ⟨⟨rest, hread⟩, hz⟩ := of_withOffset h
  exact .of_literal (fun _ => rfl) rfl (by simp [identical])
    (literal_yearLiteral hz (natAbs_lt_of_readYear hread))

private theorem restored_gYearMonth {y : Int} {m : Nat} (h : withOffset readYearAndMonth cs = some ((y, m), z)) :
    Restored .gYearMonth (.gYearMonth y m z) := by
  obtain ⟨⟨rest, hread⟩, hz⟩ := of_withOffset h
  obtain ⟨hy, hm⟩ := of_readYearAndMonth hread
  exact .of_literal (fun _ => rfl) rfl (by simp [identical]) (literal_yearMonthLiteral hz hy hm)

private theorem restored_gMonth {m : Nat} (h : withOffset readMonth cs = some (m, z)) :
    Restored .gMonth (.gMonth m z) := by
  obtain ⟨⟨rest, hread⟩, hz⟩ := of_withOffset h
  exact .of_literal (fun _ => rfl) rfl (by simp [identical])
    (literal_monthLiteral hz (of_readMonth hread))

/-- The day exists in a leap year, by which it has been checked, and is checked again. -/
private theorem restored_gMonthDay {m d : Nat} (h : withOffset readMonthAndDay cs = some ((m, d), z)) :
    Restored .gMonthDay (.gMonthDay m d z) := by
  obtain ⟨⟨rest, hread⟩, hz⟩ := of_withOffset h
  exact .of_literal (fun _ => rfl) rfl (by simp [identical])
    (literal_monthDayLiteral hz (of_readMonthAndDay hread))

private theorem restored_gDay {d : Nat} (h : withOffset readDay cs = some (d, z)) :
    Restored .gDay (.gDay d z) := by
  obtain ⟨⟨rest, hread⟩, hz⟩ := of_withOffset h
  exact .of_literal (fun _ => rfl) rfl (by simp [identical]) (literal_dayLiteral hz (of_readDay hread))

/-- A number of months is written as years and months, which are added up again. -/
private theorem restored_yearMonthDuration {months : Int} (h : readYearMonth? cs = some months) :
    Restored .yearMonthDuration (.yearMonthDuration months) := by
  refine .of_eq (solid_yearMonthText months) ?_ (by simp [identical])
  rw [lexical, ofCollapsed?, readYearMonth?_yearMonthText (fitsInt_of_readYearMonth? h)]
  rfl

end Calendar

/-- Upper case is the canonical form, and reading does not depend on case. -/
private theorem restored_hexBinary {cs : List Char} (h : (decodeHex cs).isSome) :
    Restored .hexBinary (.hexBinary (String.ofList (cs.map Char.toUpper))) := by
  obtain ⟨hsome, hupper, hsolid⟩ := decodeHex_map_toUpper h
  refine .of_eq (by rwa [lexical, String.toList_ofList]) ?_ (by simp [identical])
  rw [lexical, String.toList_ofList, ofCollapsed?, if_pos hsome, hupper]

/-- The text is what encoding the bytes gives, whatever text they were read from. -/
private theorem restored_base64Binary (bytes : List UInt8) :
    Restored .base64Binary (.base64Binary (String.ofList (encodeBase64 bytes))) := by
  have hsolid := solid_encodeBase64 bytes
  have hfilter : (encodeBase64 bytes).filter (!isBlank ·) = encodeBase64 bytes := by
    refine List.filter_eq_self.mpr fun c hc => ?_
    rw [hsolid c hc]
    rfl
  refine .of_eq (by rwa [lexical, String.toList_ofList]) ?_ (by simp [identical])
  rw [lexical, String.toList_ofList, ofCollapsed?, hfilter, decodeBase64_encodeBase64]
  rfl

/-- What the reader of a type gives is restored from its canonical text, in every type whose texts are
not rounded. -/
theorem restored_of_ofCollapsed? {cs : List Char} {T : ItemType} {v : Atomic}
    (hT : T ≠ .double ∧ T ≠ .float ∧ T ≠ .dayTimeDuration) (h : ofCollapsed? cs T = some v) :
    Restored T v := by
  unfold ofCollapsed? at h
  split at h
  case h_1 =>
    split at h <;> cases h <;> exact restored_boolean _
  case h_2 =>
    obtain ⟨d, -, rfl⟩ := Option.map_eq_some_iff.mp h
    exact restored_decimal d
  case h_3 => exact absurd rfl hT.1
  case h_4 => exact absurd rfl hT.2.1
  case h_5 =>
    obtain ⟨⟨t, z⟩, hread, rfl⟩ := Option.map_eq_some_iff.mp h
    exact restored_dateTime hread
  case h_6 =>
    split at h
    case h_1 t z hread =>
      cases h
      exact restored_dateTimeStamp hread
    case h_2 => exact nomatch h
  case h_7 =>
    obtain ⟨⟨d, z⟩, hread, rfl⟩ := Option.map_eq_some_iff.mp h
    exact restored_date hread
  case h_8 =>
    obtain ⟨⟨t, z⟩, hread, rfl⟩ := Option.map_eq_some_iff.mp h
    exact restored_time hread
  case h_9 =>
    obtain ⟨months, hread, rfl⟩ := Option.map_eq_some_iff.mp h
    exact restored_yearMonthDuration hread
  case h_10 => exact absurd rfl hT.2.2
  case h_11 =>
    obtain ⟨⟨y, z⟩, hread, rfl⟩ := Option.map_eq_some_iff.mp h
    exact restored_gYear hread
  case h_12 =>
    obtain ⟨⟨⟨y, m⟩, z⟩, hread, rfl⟩ := Option.map_eq_some_iff.mp h
    exact restored_gYearMonth hread
  case h_13 =>
    obtain ⟨⟨m, z⟩, hread, rfl⟩ := Option.map_eq_some_iff.mp h
    exact restored_gMonth hread
  case h_14 =>
    obtain ⟨⟨⟨m, d⟩, z⟩, hread, rfl⟩ := Option.map_eq_some_iff.mp h
    exact restored_gMonthDay hread
  case h_15 =>
    obtain ⟨⟨d, z⟩, hread, rfl⟩ := Option.map_eq_some_iff.mp h
    exact restored_gDay hread
  case h_16 =>
    split at h
    case isTrue hsome =>
      cases h
      exact restored_hexBinary hsome
    case isFalse => exact nomatch h
  case h_17 =>
    obtain ⟨bytes, -, rfl⟩ := Option.map_eq_some_iff.mp h
    exact restored_base64Binary bytes
  case h_18 => exact nomatch h

/-! ### All types -/

/-- The canonical text of a value that was read in a type is read in the type again, as the same value
(in decimals as a number), which has the same canonical text. Types without values of their own read
no text, and the texts of floating-point numbers and of day-time durations are rounded. -/
theorem ofLexical_lexical {text : String} {T : ItemType} {v : Atomic}
    (hT : T ≠ .double ∧ T ≠ .float ∧ T ≠ .dayTimeDuration) (h : ofLexical text T = .ok v) :
    ∃ w, ofLexical v.lexical T = .ok w ∧ w.identical v = true ∧ w.lexical = v.lexical ∧
      (T ≠ .decimal → w = v) := by
  -- the cases are those of `ofLexical`, which depend on the type alone: both readings go the same way
  cases htext : TextType.ofItemType? T with
  | some t =>
    obtain ⟨hread, hself⟩ := ofLexical_text htext h
    exact ⟨v, hread, hself, rfl, fun _ => rfl⟩
  | none =>
    cases hinteger : IntegerType.ofItemType? T with
    | some t =>
      obtain ⟨hread, hself⟩ := ofLexical_integer htext hinteger h
      exact ⟨v, hread, hself, rfl, fun _ => rfl⟩
    | none =>
      by_cases hqname : T = .qname
      · subst hqname
        obtain ⟨hread, hself⟩ := ofLexical_qname h
        exact ⟨v, hread, hself, rfl, fun _ => rfl⟩
      · simp only [ofLexical, htext, hinteger, if_neg hqname] at h
        split at h
        case h_1 v' hv =>
          cases h
          obtain ⟨hsolid, w, hread, hw⟩ := restored_of_ofCollapsed? hT hv
          refine ⟨w, ?_, hw⟩
          simp only [ofLexical, htext, hinteger, if_neg hqname, hsolid.collapse, hread]
        case h_2 => exact nomatch h

/-- The end of the last day of February, in a year that is not a leap year and an offset below an hour:
the first of March. -/
theorem ofLexical_lexical_rollover : ∃ v, ofLexical " -0045-02-28T24:00:00.0-00:30\n" .dateTime = .ok v ∧
    v.lexical = "-0045-03-01T00:00:00-00:30" ∧
    ∃ w, ofLexical v.lexical .dateTime = .ok w ∧ w.identical v = true ∧ w.lexical = v.lexical ∧
      (ItemType.dateTime ≠ .decimal → w = v) := by
  have h : ofLexical " -0045-02-28T24:00:00.0-00:30\n" .dateTime =
      .ok (.dateTime ⟨⟨-45, 3, 1, by decide, by decide, by decide⟩, .midnight⟩ (some ⟨-1800⟩)) := by
    rfl
  exact ⟨_, h, by rfl, ofLexical_lexical (by decide) h⟩

end Atomic

end LazyXPath
