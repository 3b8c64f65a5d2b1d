import LazyXPath.Atomic.Cast
import LazyXPath.Proofs.RoundTrip.Text
import Mathlib.Tactic.Ring

/-!
# Numbers are read back

An integer is written by its digits behind a sign, and a decimal by the digits of its coefficient with
a point among them, after trailing zeros of the coefficient are dropped. `integerOfText?_toString` and
`Decimal.ofText?_toText` say what reading makes of these texts. A decimal without places is read with
one, a zero, so its coefficient may differ, but neither its value nor its text does.
-/

namespace LazyXPath

open Text

/-! ### Signs and separators -/

/-- A sign is split off in front of a digit, and only if it is there. -/
theorem splitSign_signed (negative : Bool) {c : Char} (hc : c.isDigit) (cs : List Char) :
    splitSign (if negative then '-' :: c :: cs else c :: cs) = (negative, c :: cs) := by
  cases negative with
  | true => rfl
  | false =>
    have hminus : c ≠ '-' := by
      rintro rfl
      exact absurd hc (by decide)
    have hplus : c ≠ '+' := by
      rintro rfl
      exact absurd hc (by decide)
    simp [splitSign, hminus, hplus]

/-- A text is split at the first separator. -/
theorem splitAtFirst_append {sep : Char} {cs : List Char} (h : sep ∉ cs) (ds : List Char) :
    splitAtFirst sep (cs ++ sep :: ds) = some (cs, ds) := by
  induction cs with
  | nil => simp [splitAtFirst]
  | cons c cs ih =>
    obtain ⟨hc, hcs⟩ := not_or.mp (mt List.mem_cons.mpr h)
    simp [splitAtFirst, Ne.symm hc, ih hcs]

/-- A text without the separator is not split. -/
theorem splitAtFirst_eq_none {sep : Char} {cs : List Char} (h : sep ∉ cs) :
    splitAtFirst sep cs = none := by
  induction cs with
  | nil => rfl
  | cons c cs ih =>
    obtain ⟨hc, hcs⟩ := not_or.mp (mt List.mem_cons.mpr h)
    simp [splitAtFirst, Ne.symm hc, ih hcs]

/-- Putting the sign back on the size of an integer. -/
theorem signed_natAbs (i : Int) : (if decide (i < 0) then -(i.natAbs : Int) else i.natAbs) = i := by
  by_cases h : i < 0
  · simp only [h, decide_true, if_true]
    omega
  · simp only [h, decide_false, Bool.false_eq_true, if_false]
    omega

/-! ### Integers -/

/-- An integer is written by the digits of its magnitude behind a sign. -/
private theorem toList_toString (i : Int) : (toString i).toList =
    if decide (i < 0) then '-' :: Nat.toDigits 10 i.natAbs else Nat.toDigits 10 i.natAbs := by
  rw [Int.toString_eq_repr, Int.repr_eq_if]
  by_cases h : i < 0
  · have hnat : (-i).toNat = i.natAbs := by omega
    simp [h, Int.not_le.mpr h, hnat]
  · have hnat : i.toNat = i.natAbs := by omega
    simp [h, Int.not_lt.mp h, hnat]

theorem solid_toString (i : Int) : Solid (toString i).toList := by
  have hdigits : Solid (Nat.toDigits 10 i.natAbs) := .of_isDigit fun _ => isDigit_of_mem_toDigits
  have hsign : isBlank '-' = false := by decide
  rw [toList_toString]
  split <;> simp [hdigits, hsign]

/-- Integers of 127 bits are read back, and the readers of all integer types check the range after that. -/
theorem integerOfText?_toString {i : Int} (hi : -(twoTo 127 : Int) ≤ i ∧ i < twoTo 127) :
    Atomic.integerOfText? (toString i).toList = some i := by
  obtain ⟨c, cs, hcs⟩ := List.exists_cons_of_ne_nil (Nat.toDigits_ne_nil (b := 10) (n := i.natAbs))
  have hc : c.isDigit := isDigit_of_mem_toDigits (by rw [hcs]; exact List.mem_cons_self)
  have hnum : isNumeral (c :: cs) := hcs ▸ isNumeral_toDigits i.natAbs
  have hval : digitsValue (c :: cs) = i.natAbs := hcs ▸ digitsValue_toDigits i.natAbs
  rw [toList_toString, hcs]
  simp only [Atomic.integerOfText?, splitSign_signed _ hc, hnum, hval, signed_natAbs, if_true,
    if_pos hi]

/-! ### Decimals -/

/-- More digits do not make a number smaller. -/
theorem le_ofDigitChars (ds : List Char) (c : Nat) : c ≤ Nat.ofDigitChars 10 ds c := by
  induction ds generalizing c with
  | nil => simp
  | cons d ds ih =>
    rw [Nat.ofDigitChars_cons]
    exact Nat.le_trans (by omega) (ih _)

namespace Decimal

/-- Digits before the point are read as long as the number that they end in fits. -/
theorem readWhole_eq {c : Nat} {ds : List Char} (h : Nat.ofDigitChars 10 ds c < limit) :
    readWhole c ds = some (Nat.ofDigitChars 10 ds c) := by
  induction ds generalizing c with
  | nil => simp [readWhole]
  | cons d ds ih =>
    rw [Nat.ofDigitChars_cons] at h ⊢
    have hnext : 10 * c + digitValue d < limit := Nat.lt_of_le_of_lt (le_ofDigitChars ds _) h
    simp only [readWhole, if_pos hnext]
    exact ih h

/-- Digits after the point are read to the last one if number and places fit. -/
theorem readFraction_eq {c s : Nat} {ds : List Char} (h : Nat.ofDigitChars 10 ds c < limit)
    (hs : s + ds.length ≤ maxScale) :
    readFraction c s ds = some (Nat.ofDigitChars 10 ds c, s + ds.length) := by
  induction ds generalizing c s with
  | nil => simp [readFraction]
  | cons d ds ih =>
    rw [Nat.ofDigitChars_cons] at h ⊢
    rw [List.length_cons] at hs ⊢
    have hnext : 10 * c + digitValue d < limit := Nat.lt_of_le_of_lt (le_ofDigitChars ds _) h
    have hplace : s < maxScale := by omega
    simp only [readFraction, if_pos (And.intro hplace hnext)]
    rw [Nat.add_comm ds.length 1, ← Nat.add_assoc]
    exact ih h (by omega)

/-- A zero at the end is dropped. -/
private theorem dropZeros_of_dvd {s : Nat} {c : Int} (hc : c % 10 = 0) :
    dropZeros (s + 1) c = dropZeros s (c / 10) := if_pos hc

/-- Any other digit at the end stays, with all those before it. -/
private theorem dropZeros_of_not_dvd {s : Nat} {c : Int} (hc : c % 10 ≠ 0) :
    dropZeros (s + 1) c = (c, s + 1) := if_neg hc

/-- Dropping zeros keeps the value. -/
theorem dropZeros_value (s : Nat) (c : Int) :
    (dropZeros s c).1 * (10 : Int) ^ s = c * (10 : Int) ^ (dropZeros s c).2 := by
  induction s generalizing c with
  | zero => rfl
  | succ s ih =>
    by_cases hc : c % 10 = 0
    · have hten : c / 10 * 10 = c := Int.ediv_mul_cancel (Int.dvd_of_emod_eq_zero hc)
      rw [dropZeros_of_dvd hc]
      calc (dropZeros s (c / 10)).1 * (10 : Int) ^ (s + 1)
          = (dropZeros s (c / 10)).1 * (10 : Int) ^ s * 10 := by ring
        _ = c / 10 * 10 * (10 : Int) ^ (dropZeros s (c / 10)).2 := by rw [ih]; ring
        _ = c * (10 : Int) ^ (dropZeros s (c / 10)).2 := by rw [hten]
    · rw [dropZeros_of_not_dvd hc]

/-- After dropping zeros there are none to drop. -/
theorem dropZeros_dropZeros (s : Nat) (c : Int) :
    dropZeros (dropZeros s c).2 (dropZeros s c).1 = dropZeros s c := by
  induction s generalizing c with
  | zero => rfl
  | succ s ih =>
    by_cases hc : c % 10 = 0
    · rw [dropZeros_of_dvd hc]
      exact ih _
    · rw [dropZeros_of_not_dvd hc]
      exact dropZeros_of_not_dvd hc

/-- Decimals are the same number if their coefficients agree at a common scale. -/
theorem sameValue_iff (a b : Decimal) : a.sameValue b ↔
    a.coefficient * (10 : Int) ^ b.scale = b.coefficient * (10 : Int) ^ a.scale := by
  simp only [sameValue, Decimal.compare, beq_iff_eq, Int.compare_eq_eq]
  norm_cast

theorem mk?_eq {c : Int} {s : Nat} (hc : c.natAbs < limit) (hs : s ≤ maxScale) :
    ∃ w, mk? c s = some w ∧ w.coefficient = c ∧ w.scale = s :=
  ⟨_, dif_pos ⟨hc, hs⟩, rfl, rfl⟩

/-- The text depends on the coefficient and the scale only. -/
private theorem plainText_congr {a b : Decimal} (hc : a.coefficient = b.coefficient)
    (hs : a.scale = b.scale) : a.plainText = b.plainText := by
  cases a
  cases b
  cases hc
  cases hs
  rfl

/-- The digits of a plain text: at least one before the point and as many as the scale says after it. -/
theorem plainText_parts (n : Decimal) : ∃ (c : Char) (cs fraction : List Char),
    (∀ d ∈ c :: cs ++ fraction, d.isDigit) ∧ fraction.length = n.scale ∧
    digitsValue (c :: cs ++ fraction) = n.coefficient.natAbs ∧
    n.plainText.toList =
      if decide (n.coefficient < 0)
      then '-' :: c :: (cs ++ if n.scale = 0 then [] else '.' :: fraction)
      else c :: (cs ++ if n.scale = 0 then [] else '.' :: fraction) := by
  set digits := (padded (n.scale + 1) n.coefficient.natAbs).toList with hdigits
  have hlen : n.scale + 1 ≤ digits.length := padded.le_length _ _
  obtain ⟨c, cs, hwhole⟩ : ∃ c cs, digits.take (digits.length - n.scale) = c :: cs := by
    refine List.exists_cons_of_ne_nil (List.ne_nil_of_length_pos ?_)
    rw [List.length_take]
    omega
  have happend : c :: cs ++ digits.drop (digits.length - n.scale) = digits := by
    rw [← hwhole, List.take_append_drop]
  refine ⟨c, cs, digits.drop (digits.length - n.scale), ?_, ?_, ?_, ?_⟩
  · rw [happend]
    exact fun d hd => padded.isDigit hd
  · rw [List.length_drop]
    omega
  · rw [happend]
    exact padded.digitsValue _ _
  · simp only [plainText, String.toList_ofList, ← hdigits, hwhole, isNegative]
    by_cases hs : n.scale = 0 <;> simp [hs]

theorem solid_plainText (n : Decimal) : Solid n.plainText.toList := by
  obtain ⟨c, cs, fraction, hdigits, -, -, htext⟩ := n.plainText_parts
  have hsolid : Solid (c :: cs ++ fraction) := .of_isDigit hdigits
  have hminus : isBlank '-' = false := by decide
  have hpoint : isBlank '.' = false := by decide
  rw [htext]
  simp only [List.cons_append, Solid.cons_iff, Solid.append_iff] at hsolid
  split <;> split <;> simp [hsolid, hminus, hpoint]

/-- Digits with a point among them are read in two parts. -/
theorem ofText?_point (negative : Bool) {c : Char} {cs fraction : List Char}
    (hdigits : ∀ d ∈ c :: cs ++ fraction, d.isDigit) (hne : fraction ≠ []) :
    ofText? (if negative then '-' :: c :: (cs ++ '.' :: fraction) else c :: (cs ++ '.' :: fraction)) =
      ofDigits? negative (c :: cs) fraction := by
  have hc : c.isDigit := hdigits c (by simp)
  have hpoint : '.' ∉ c :: cs := by
    intro hmem
    exact absurd (hdigits '.' (List.mem_append_left _ hmem)) (by decide)
  have hsplit := splitAtFirst_append hpoint fraction
  have hnum : isNumeral (c :: cs ++ fraction) = true := isNumeral_of_isDigit (by simp) hdigits
  simp only [List.cons_append] at hsplit hnum
  simp only [ofText?, splitSign_signed _ hc, hsplit, Option.getD_some, List.cons_append, hnum, if_true,
    List.isEmpty_iff, hne, if_false]

/-- Digits without a point are read with a zero behind it. -/
theorem ofText?_whole (negative : Bool) {c : Char} {cs : List Char}
    (hdigits : ∀ d ∈ c :: cs, d.isDigit) :
    ofText? (if negative then '-' :: c :: cs else c :: cs) = ofDigits? negative (c :: cs) ['0'] := by
  have hc : c.isDigit := hdigits c List.mem_cons_self
  have hpoint : '.' ∉ c :: cs := fun hmem => absurd (hdigits '.' hmem) (by decide)
  have hnum : isNumeral (c :: cs) = true := isNumeral_of_isDigit (by simp) hdigits
  simp only [ofText?, splitSign_signed _ hc, splitAtFirst_eq_none hpoint, Option.getD_none,
    List.append_nil, hnum, if_true, List.isEmpty_nil]

/-- What is read from digits with a point has their number as its coefficient and the places behind the point
as its scale. -/
theorem ofDigits?_eq {negative : Bool} {whole fraction : List Char} {k m s : Nat} {c : Int}
    (hwhole : readWhole 0 whole = some k) (hfraction : readFraction k 0 fraction = some (m, s))
    (hsign : (if negative then -(m : Int) else m) = c) (hc : c.natAbs < limit) (hs : s ≤ maxScale) :
    ∃ w, ofDigits? negative whole fraction = some w ∧ w.coefficient = c ∧ w.scale = s := by
  obtain ⟨w, hw, hwc, hws⟩ := mk?_eq hc hs
  refine ⟨w, ?_, hwc, hws⟩
  simp only [ofDigits?, hwhole, hfraction, hsign, Option.bind_eq_bind, Option.bind_some, hw]

/-- A zero behind the point makes a place, unless the coefficient is too large for it. -/
theorem readFraction_zero (c : Nat) :
    readFraction c 0 ['0'] = if 10 * c < limit then some (10 * c, 1) else some (c, 0) := by
  have hdigit : digitValue '0' = 0 := by decide
  have hplace : 0 < maxScale := by decide
  simp [readFraction, roundUpAt, hdigit, hplace]

/-- A plain text is read as its decimal, or with one place more if it has none. -/
theorem ofText?_plainText (n : Decimal) : ∃ w, ofText? n.plainText.toList = some w ∧
    (w.coefficient = n.coefficient ∧ w.scale = n.scale ∨
      n.scale = 0 ∧ w.coefficient = 10 * n.coefficient ∧ w.scale = 1) := by
  obtain ⟨c, cs, fraction, hdigits, hlen, hvalue, htext⟩ := n.plainText_parts
  have hlimit : n.coefficient.natAbs < limit := n.coefficient_lt
  have hsign := signed_natAbs n.coefficient
  rw [digitsValue_eq_ofDigitChars, Nat.ofDigitChars_append] at hvalue
  have hwhole : readWhole 0 (c :: cs) = some (Nat.ofDigitChars 10 (c :: cs) 0) :=
    readWhole_eq (Nat.lt_of_le_of_lt (le_ofDigitChars fraction _) (by rw [hvalue]; exact hlimit))
  rw [htext]
  -- only a text without a point gets a digit that was not written
  obtain hzero | hpos := Nat.eq_zero_or_pos n.scale
  · obtain rfl : fraction = [] := List.eq_nil_of_length_eq_zero (hlen.trans hzero)
    rw [List.append_nil] at hdigits
    rw [Nat.ofDigitChars_nil] at hvalue
    rw [hvalue] at hwhole
    have hplace := readFraction_zero n.coefficient.natAbs
    simp only [hzero, if_true, List.append_nil, ofText?_whole _ hdigits]
    split at hplace
    case isTrue hfits =>
      have hten : (if decide (n.coefficient < 0) then -((10 * n.coefficient.natAbs : Nat) : Int)
          else (10 * n.coefficient.natAbs : Nat)) = 10 * n.coefficient := by
        by_cases hneg : n.coefficient < 0
        · simp only [hneg, decide_true, if_true]
          omega
        · simp only [hneg, decide_false, Bool.false_eq_true, if_false]
          omega
      obtain ⟨w, hw, hwc, hws⟩ :=
        ofDigits?_eq hwhole hplace hten (by rwa [Int.natAbs_mul]) (by decide)
      exact ⟨w, hw, .inr ⟨trivial, hwc, hws⟩⟩
    case isFalse =>
      obtain ⟨w, hw, hwc, hws⟩ := ofDigits?_eq hwhole hplace hsign hlimit (by decide)
      exact ⟨w, hw, .inl ⟨hwc, hws⟩⟩
  · have hne : fraction ≠ [] := List.ne_nil_of_length_pos (by omega)
    have hscale : n.scale ≤ maxScale := n.scale_le
    have hread : readFraction (Nat.ofDigitChars 10 (c :: cs) 0) 0 fraction =
        some (n.coefficient.natAbs, n.scale) := by
      rw [readFraction_eq (by rw [hvalue]; exact hlimit) (by omega), hvalue, hlen, Nat.zero_add]
    obtain ⟨w, hw, hwc, hws⟩ := ofDigits?_eq hwhole hread hsign hlimit hscale
    simp only [hpos.ne', if_false, ofText?_point _ hdigits hne]
    exact ⟨w, hw, .inl ⟨hwc, hws⟩⟩

/-- A decimal's text is read as a decimal with the same value and the same text. -/
theorem ofText?_toText (d : Decimal) : ∃ w, ofText? d.toText.toList = some w ∧
    w.sameValue d ∧ w.toText = d.toText := by
  obtain ⟨w, hw, hcase⟩ := d.normalize.ofText?_plainText
  have hvalue : d.normalize.coefficient * (10 : Int) ^ d.scale =
      d.coefficient * (10 : Int) ^ d.normalize.scale := dropZeros_value _ _
  have hdrop : dropZeros d.normalize.scale d.normalize.coefficient = dropZeros d.scale d.coefficient :=
    dropZeros_dropZeros _ _
  have htext : dropZeros w.scale w.coefficient = dropZeros d.scale d.coefficient := by
    obtain ⟨hc, hs⟩ | ⟨hzero, hc, hs⟩ := hcase
    · rw [hc, hs, hdrop]
    · rw [← hdrop, hzero, hs, hc, dropZeros_of_dvd (by omega)]
      congr 1
      omega
  refine ⟨w, hw, ?_, plainText_congr (congrArg Prod.fst htext) (congrArg Prod.snd htext)⟩
  rw [sameValue_iff]
  obtain ⟨hc, hs⟩ | ⟨hzero, hc, hs⟩ := hcase
  · rw [hc, hs, hvalue]
  · rw [hc, hs, mul_assoc, hvalue, hzero]
    ring

end Decimal

end LazyXPath
