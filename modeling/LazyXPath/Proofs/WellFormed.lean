import LazyXPath.Proofs.Conformance
import LazyXPath.Proofs.Decimal.Nanoseconds
import LazyXPath.Proofs.RoundTrip
import LazyXPath.Proofs.TimeLine
import Mathlib.Data.List.TakeWhile
import Mathlib.Data.Rat.Floor

/-!
# Casts give well-formed values

Most types restrict the values of their representation: integer types to a range, text types to a normal form of
white space and a form of names, the recurring dates to the months and days that there are. The representation does
not, so that it takes a reading of each cast to see that these **facets** hold (`Atomic.WellFormed`).

Facets are described here in their own right: normalized white space by where blanks stand, ranges by their bounds,
binary texts by their digits or by the bytes that they are the text of. A cast to another type establishes the facets
whatever value it starts from (`Atomic.wellFormed_of_cast`).
-/

namespace LazyXPath

namespace Text

/-! ### Normalized white space -/

/-- White space in normal form: there is only the blank, single, and neither in front nor at the end. -/
structure Collapsed (cs : List Char) : Prop where
  blanks : ∀ c ∈ cs, isBlank c = true → c = ' '
  head : cs.head? ≠ some ' '
  last : cs.getLast? ≠ some ' '
  single : cs.IsChain fun a b => a ≠ ' ' ∨ b ≠ ' '

namespace Solid

variable {cs : List Char}

/-- A word has no blank in it. -/
private theorem ne_space (h : Solid cs) {c : Char} (hc : c ∈ cs) : c ≠ ' ' := by
  rintro rfl
  exact absurd (h _ hc) (by decide)

/-- So there are no two blanks in a row. -/
private theorem isChain (h : Solid cs) : cs.IsChain fun a b => a ≠ ' ' ∨ b ≠ ' ' := by
  induction cs with
  | nil => exact .nil
  | cons c cs ih => exact (ih (cons_iff.mp h).2).cons fun _ _ => .inl (h.ne_space List.mem_cons_self)

/-- A word is white space in normal form: there is none. -/
private theorem collapsed (h : Solid cs) : Collapsed cs where
  blanks c hc hblank := absurd hblank (by simp [h c hc])
  head hhead := h.ne_space (List.mem_of_mem_head? hhead) rfl
  last hlast := h.ne_space (List.mem_of_mem_getLast? hlast) rfl
  single := h.isChain

end Solid

section

variable {w ds cs : List Char} {ws : List (List Char)}

/-- Words put together leave something. -/
private theorem unwords_ne_nil (h : ∀ w ∈ ws, Solid w ∧ w ≠ []) (hne : ws ≠ []) : unwords ws ≠ [] := by
  cases ws with
  | nil => exact absurd rfl hne
  | cons w ws =>
    obtain ⟨-, hw⟩ := h w List.mem_cons_self
    cases ws with
    | nil => exact hw
    | cons v ws => simp [unwords]

/-- A word may be set before a text in normal form, with a blank between them. -/
theorem Collapsed.cons_word (hw : Solid w) (hne : w ≠ []) (hds : Collapsed ds) (hds' : ds ≠ []) :
    Collapsed (w ++ ' ' :: ds) where
  blanks c hc hblank := by
    obtain hc | hc := List.mem_append.mp hc
    · exact absurd hblank (by simp [hw c hc])
    · obtain rfl | hc := List.mem_cons.mp hc
      · rfl
      · exact hds.blanks c hc hblank
  head := by
    rw [List.head?_append_of_ne_nil _ hne]
    exact hw.collapsed.head
  last := by
    rw [List.getLast?_append, List.getLast?_cons_of_ne_nil hds', List.getLast?_eq_some_getLast hds', Option.some_or,
      ← List.getLast?_eq_some_getLast hds']
    exact hds.last
  single := by
    refine List.isChain_append.mpr ⟨hw.isChain, List.isChain_cons.mpr ⟨fun d hd => ?_, hds.single⟩, fun c hc _ _ => ?_⟩
    · refine .inr ?_
      rintro rfl
      exact hds.head hd
    · exact .inl (hw.ne_space (List.mem_of_mem_getLast? hc))

/-- Words put together with single blanks are in normal form. -/
private theorem collapsed_unwords (h : ∀ w ∈ ws, Solid w ∧ w ≠ []) : Collapsed (unwords ws) := by
  induction ws with
  | nil => exact Solid.nil.collapsed
  | cons w ws ih =>
    obtain ⟨hw, hne⟩ := h w List.mem_cons_self
    have hws : ∀ v ∈ ws, Solid v ∧ v ≠ [] := fun v hv => h v (List.mem_cons_of_mem _ hv)
    cases ws with
    | nil => exact hw.collapsed
    | cons v ws => exact (ih hws).cons_word hw hne (unwords_ne_nil hws (by simp))

/-- A text in normal form is a sequence of words. -/
theorem Collapsed.exists_words (h : Collapsed cs) : ∃ ws, (∀ w ∈ ws, Solid w ∧ w ≠ []) ∧ cs = unwords ws := by
  induction hlength : cs.length using Nat.strong_induction_on generalizing cs with
  | _ n ih =>
    subst hlength
    -- the first word goes up to the first blank
    obtain ⟨w, hw⟩ : ∃ w, w = cs.takeWhile (!isBlank ·) := ⟨_, rfl⟩
    obtain ⟨rest, hrest⟩ : ∃ rest, rest = cs.dropWhile (!isBlank ·) := ⟨_, rfl⟩
    have hcs : cs = w ++ rest := by rw [hw, hrest, List.takeWhile_append_dropWhile]
    have hsolid : Solid w := by
      intro c hc
      rw [hw] at hc
      simpa using List.mem_takeWhile_imp hc
    cases hc : rest with
    | nil =>
      rw [hc, List.append_nil] at hcs
      by_cases hne : w = []
      · exact ⟨[], by simp, by rw [hcs, hne]; rfl⟩
      · exact ⟨[w], by simpa using ⟨hsolid, hne⟩, hcs⟩
    | cons c ds =>
      have hblank : isBlank c = true := by
        have := List.head?_dropWhile_not (!isBlank ·) cs
        simpa [← hrest, hc] using this
      rw [hc] at hcs
      obtain rfl := h.blanks c (by simp [hcs]) hblank
      have hne : w ≠ [] := by
        rintro rfl
        exact h.head (by simp [hcs])
      have hds' : ds ≠ [] := by
        rintro rfl
        exact h.last (by simp [hcs])
      have hsingle := h.single
      rw [hcs, List.isChain_append, List.isChain_cons] at hsingle
      have hds : Collapsed ds := by
        refine ⟨fun d hd => h.blanks d (by simp [hcs, hd]), fun hhead => ?_, fun hlast => h.last ?_, hsingle.2.1.2⟩
        · obtain hfalse | hfalse := hsingle.2.1.1 _ hhead <;> exact hfalse rfl
        · simp [hcs, List.getLast?_append, List.getLast?_cons_of_ne_nil hds', hlast]
      obtain ⟨ws, hws, rfl⟩ := ih ds.length (by simp [hcs]; omega) hds rfl
      cases ws with
      | nil => exact absurd rfl hds'
      | cons v ws => exact ⟨w :: v :: ws, List.forall_mem_cons.mpr ⟨⟨hsolid, hne⟩, hws⟩, hcs⟩

end

/-- Normalization gives the normal form, and leaves it alone. -/
theorem collapsed_iff {cs : List Char} : Collapsed cs ↔ collapse cs = cs := by
  constructor
  · intro h
    obtain ⟨ws, hws, rfl⟩ := h.exists_words
    rw [collapse, words_unwords hws]
  · intro h
    rw [← h]
    exact collapsed_unwords fun w hw => solid_of_mem_wordsFrom Solid.nil hw

/-! ### Hexadecimal texts -/

/-- A hexadecimal text in upper case, with two digits for each byte. -/
structure UpperHex (cs : List Char) : Prop where
  even : Even cs.length
  digits : ∀ c ∈ cs, ('0' ≤ c ∧ c ≤ '9') ∨ ('A' ≤ c ∧ c ≤ 'F')

/-- Two more digits in front. -/
private theorem UpperHex.cons_cons {c d : Char} {cs : List Char} (hc : ('0' ≤ c ∧ c ≤ '9') ∨ ('A' ≤ c ∧ c ≤ 'F'))
    (hd : ('0' ≤ d ∧ d ≤ '9') ∨ ('A' ≤ d ∧ d ≤ 'F')) (h : UpperHex cs) : UpperHex (c :: d :: cs) where
  even := by simpa [Nat.even_add_one] using h.even
  digits := List.forall_mem_cons.mpr ⟨hc, List.forall_mem_cons.mpr ⟨hd, h.digits⟩⟩

private theorem upperHex_nil : UpperHex [] := ⟨⟨0, rfl⟩, List.forall_mem_nil _⟩

/-- The text of bytes is one in upper case. -/
private theorem upperHex_encodeHex (bytes : List UInt8) : UpperHex (encodeHex bytes) := by
  have all : ∀ n < 16, ('0' ≤ hexDigit n ∧ hexDigit n ≤ '9') ∨ ('A' ≤ hexDigit n ∧ hexDigit n ≤ 'F') := by decide
  induction bytes with
  | nil => exact upperHex_nil
  | cons b bytes ih =>
    have hb := b.toNat_lt
    exact .cons_cons (all _ (by omega)) (all _ (by omega)) ih

/-- Every hexadecimal text becomes one in upper case. -/
theorem upperHex_map_toUpper {cs : List Char} (h : (decodeHex cs).isSome) : UpperHex (cs.map Char.toUpper) := by
  have upper : ∀ {c : Char}, (hexValue? c).isSome →
      ('0' ≤ c.toUpper ∧ c.toUpper ≤ '9') ∨ ('A' ≤ c.toUpper ∧ c.toUpper ≤ 'F') := by
    intro c hc
    have all : ∀ n < 128, (hexValue? (Char.ofNat n)).isSome →
        ('0' ≤ (Char.ofNat n).toUpper ∧ (Char.ofNat n).toUpper ≤ '9') ∨
          ('A' ≤ (Char.ofNat n).toUpper ∧ (Char.ofNat n).toUpper ≤ 'F') := by decide
    have hlt := toNat_lt_of_hexValue? hc
    rw [← Char.ofNat_toNat c] at hc ⊢
    exact all c.toNat hlt hc
  induction cs using decodeHex.induct with
  | case1 => exact upperHex_nil
  | case2 c => simp [decodeHex] at h
  | case3 c d rest ih =>
    obtain ⟨bytes, hbytes⟩ := Option.isSome_iff_exists.mp h
    simp only [decodeHex, Option.bind_eq_bind, Option.bind_eq_some_iff] at hbytes
    obtain ⟨hi, hc, lo, hd, tail, hrest, -⟩ := hbytes
    exact .cons_cons (upper (by simp [hc])) (upper (by simp [hd])) (ih (by simp [hrest]))

end Text

/-! ### Facets -/

open Text Calendar

/-- The texts of a text type: the normal form of their white space, and the form of a name. -/
def TextType.Form : TextType → List Char → Prop
  | string, _ | untypedAtomic, _ => True
  | normalizedString, cs => ∀ c ∈ cs, c ≠ '\t' ∧ c ≠ '\n' ∧ c ≠ '\r'
  | token, cs | anyUri, cs => Collapsed cs
  | language, cs => Collapsed cs ∧ isLanguage cs
  | name, cs => Collapsed cs ∧ isName cs
  | nmtoken, cs => Collapsed cs ∧ isNmtoken cs
  | ncname, cs | id, cs | idref, cs | entity, cs => Collapsed cs ∧ isNcname cs

/-- The integers of an integer type. The types that the schema does not bound have 64 bits. -/
def IntegerType.Range : IntegerType → Int → Prop
  | integer, i | long, i => -2 ^ 63 ≤ i ∧ i < 2 ^ 63
  | nonPositiveInteger, i => -2 ^ 63 ≤ i ∧ i ≤ 0
  | negativeInteger, i => -2 ^ 63 ≤ i ∧ i < 0
  | int, i => -2 ^ 31 ≤ i ∧ i < 2 ^ 31
  | short, i => -2 ^ 15 ≤ i ∧ i < 2 ^ 15
  | byte, i => -2 ^ 7 ≤ i ∧ i < 2 ^ 7
  | nonNegativeInteger, i | unsignedLong, i => 0 ≤ i ∧ i < 2 ^ 64
  | positiveInteger, i => 0 < i ∧ i < 2 ^ 64
  | unsignedInt, i => 0 ≤ i ∧ i < 2 ^ 32
  | unsignedShort, i => 0 ≤ i ∧ i < 2 ^ 16
  | unsignedByte, i => 0 ≤ i ∧ i < 2 ^ 8

/-- A month of a year. -/
def IsMonthOfYear (month : Nat) : Prop := 1 ≤ month ∧ month ≤ 12

/-- A year or a number of months has 32 bits. -/
def IsSignedInt (i : Int) : Prop := -2 ^ 31 ≤ i ∧ i < 2 ^ 31

/-- The facets of the type of a value hold of its payload. -/
def Atomic.WellFormed : Atomic → Prop
  | text t s => t.Form s.toList
  | integer t i => t.Range i
  | yearMonthDuration m => IsSignedInt m
  | gYear y _ => IsSignedInt y
  | gYearMonth y m _ => IsSignedInt y ∧ IsMonthOfYear m
  | gMonth m _ => IsMonthOfYear m
  | gMonthDay m d _ => IsMonthOfYear m ∧ 1 ≤ d ∧ d ≤ daysInMonth 2000 m
  | gDay d _ => 1 ≤ d ∧ d ≤ 31
  | base64Binary s => ∃ bytes, s.toList = encodeBase64 bytes
  | hexBinary s => UpperHex s.toList
  | _ => True

/-- The check of an integer type is its range. -/
theorem IntegerType.holds_iff {t : IntegerType} {i : Int} : t.holds i = true ↔ t.Range i := by
  rw [holds, Bool.and_eq_true, decide_eq_true_iff, decide_eq_true_iff]
  cases t <;> simp [least, greatest, Range] <;> omega

/-- A text without tabulators and line breaks is one in which none is replaced. -/
private theorem noBreaks_iff {cs : List Char} :
    (∀ c ∈ cs, c ≠ '\t' ∧ c ≠ '\n' ∧ c ≠ '\r') ↔ replaceBreaks cs = cs := by
  induction cs with
  | nil => simp [replaceBreaks]
  | cons c cs ih =>
    rw [List.forall_mem_cons, ih]
    simp only [replaceBreaks, List.map_cons, List.cons.injEq]
    refine and_congr_left fun _ => ?_
    by_cases hbreak : (c == '\t' || c == '\n' || c == '\r') = true
    · rw [if_pos hbreak]
      simp only [Bool.or_eq_true, beq_iff_eq] at hbreak
      obtain (rfl | rfl) | rfl := hbreak <;> decide
    · rw [if_neg hbreak]
      simpa [and_assoc] using hbreak

/-- A text of a text type is one that reading leaves alone. -/
theorem TextType.form_iff {t : TextType} {cs : List Char} :
    t.Form cs ↔ Atomic.normalizeBlanks cs t = cs ∧ Atomic.isFormOf cs t = true := by
  cases t <;> simp [Form, Atomic.normalizeBlanks, Atomic.isFormOf, collapsed_iff, noBreaks_iff]

/-! ### Readings and casts -/

namespace Atomic

variable {v w : Atomic} {target : ItemType}

/-- The check of an integer is its facet. -/
private theorem wellFormed_of_ofInteger {i : Int} {t : IntegerType} (h : ofInteger i t = .ok w) :
    w = .integer t i ∧ w.WellFormed := by
  unfold ofInteger at h
  split at h
  case isTrue hholds =>
    cases h
    exact ⟨rfl, IntegerType.holds_iff.mp hholds⟩
  case isFalse => split at h <;> cases h

section Calendar

variable {cs rest : List Char}

/-- A bound on the magnitude is one on both sides. -/
private theorem isSignedInt_of_natAbs_lt {y : Int} (h : y.natAbs < twoTo 31) : IsSignedInt y := by
  have hbound : y.natAbs < 2 ^ 31 := h
  unfold IsSignedInt
  omega

/-- A date that is there has a month of a year and a day of this month. -/
private theorem of_isSome_ofParts? {year : Int} {month day : Nat} (h : (Date.ofParts? year month day).isSome) :
    IsMonthOfYear month ∧ 1 ≤ day ∧ day ≤ daysInMonth year month := by
  unfold Date.ofParts? at h
  split at h
  case isTrue hparts => exact hparts.2
  case isFalse => cases h

end Calendar

/-- What is read from a text has the facets of its type, by cases on the type. -/
private theorem wellFormed_of_ofCollapsed? {cs : List Char} (h : ofCollapsed? cs target = some w) :
    w.WellFormed := by
  unfold ofCollapsed? at h
  split at h
  case h_1 => split at h <;> cases h <;> trivial
  case h_6 =>
    split at h <;> cases h
    trivial
  case h_9 =>
    obtain ⟨months, hread, rfl⟩ := Option.map_eq_some_iff.mp h
    simpa [fitsInt, WellFormed, IsSignedInt] using fitsInt_of_readYearMonth? hread
  case h_11 =>
    obtain ⟨⟨y, z⟩, hread, rfl⟩ := Option.map_eq_some_iff.mp h
    obtain ⟨⟨rest, hyear⟩, -⟩ := of_withOffset hread
    exact isSignedInt_of_natAbs_lt (natAbs_lt_of_readYear hyear)
  case h_12 =>
    obtain ⟨⟨⟨y, m⟩, z⟩, hread, rfl⟩ := Option.map_eq_some_iff.mp h
    obtain ⟨⟨rest, hparts⟩, -⟩ := of_withOffset hread
    obtain ⟨hyear, hmonth⟩ := of_readYearAndMonth hparts
    exact ⟨isSignedInt_of_natAbs_lt hyear, hmonth⟩
  case h_13 =>
    obtain ⟨⟨m, z⟩, hread, rfl⟩ := Option.map_eq_some_iff.mp h
    obtain ⟨⟨rest, hmonth⟩, -⟩ := of_withOffset hread
    exact of_readMonth hmonth
  case h_14 =>
    obtain ⟨⟨⟨m, d⟩, z⟩, hread, rfl⟩ := Option.map_eq_some_iff.mp h
    obtain ⟨⟨rest, hparts⟩, -⟩ := of_withOffset hread
    exact of_isSome_ofParts? (of_readMonthAndDay hparts)
  case h_15 =>
    obtain ⟨⟨d, z⟩, hread, rfl⟩ := Option.map_eq_some_iff.mp h
    obtain ⟨⟨rest, hday⟩, -⟩ := of_withOffset hread
    exact of_readDay hday
  case h_16 =>
    split at h
    case isTrue hsome =>
      cases h
      simpa [WellFormed] using upperHex_map_toUpper hsome
    case isFalse => cases h
  case h_17 =>
    obtain ⟨bytes, -, rfl⟩ := Option.map_eq_some_iff.mp h
    exact ⟨bytes, String.toList_ofList⟩
  case h_18 => cases h
  -- the other types have no facets
  all_goals
    obtain ⟨a, -, rfl⟩ := Option.map_eq_some_iff.mp h
    trivial

/-- Whatever is read from a text is well-formed. -/
theorem wellFormed_of_ofLexical {text : String} (h : ofLexical text target = .ok w) : w.WellFormed := by
  unfold ofLexical at h
  dsimp only at h
  split at h
  · split at h
    case isTrue hform =>
      cases h
      rw [WellFormed, String.toList_ofList, TextType.form_iff]
      exact ⟨normalizeBlanks_normalizeBlanks _ _, hform⟩
    case isFalse => cases h
  · split at h
    · exact (wellFormed_of_ofInteger h).2
    · cases h
  · split at h
    · unfold qnameOfText at h
      split at h
      · split at h <;> cases h
        trivial
      · split at h <;> cases h
    · split at h <;> cases h
      exact wellFormed_of_ofCollapsed? ‹_›

/-- Numbers get into an integer type through its check only. -/
private theorem wellFormed_of_toNumeric (h : v.toNumeric target = .ok w) : w.WellFormed := by
  obtain ⟨n, -, ⟨-, rfl⟩ | ⟨-, rfl⟩ | ⟨-, d, -, rfl⟩ | ⟨t, i, -, -, hw⟩⟩ := toNumeric_cases h
  · trivial
  · trivial
  · trivial
  · exact (wellFormed_of_ofInteger hw).2

/-- The recurring dates on which a date falls are well-formed. -/
theorem wellFormed_of_recurring? {d : Date} {z : Option Offset} (h : recurring? d z target = some w) :
    w.WellFormed := by
  have hyear : IsSignedInt d.year := by
    have := d.year_mem
    unfold firstYear lastYear at this
    unfold IsSignedInt
    omega
  have hlength := Date.daysInMonth_le_leap d.year d.month
  unfold recurring? at h
  split at h <;> cases h
  · exact hyear
  · exact ⟨hyear, d.month_mem⟩
  · exact d.month_mem
  · exact ⟨d.month_mem, d.day_mem.1, d.day_mem.2.trans hlength⟩
  · exact ⟨d.day_mem.1, d.day_le⟩

/-- Casts by meaning take parts of values, which have their facets already, or read a text. -/
private theorem wellFormed_of_castByMeaning (h : v.castByMeaning target = .ok w) : w.WellFormed := by
  unfold castByMeaning at h
  dsimp only at h
  split at h
  case h_1 =>
    split at h <;> cases h
    trivial
  case h_5 | h_6 =>
    split at h <;> cases h
    exact wellFormed_of_recurring? ‹_›
  case h_8 =>
    cases h
    exact ⟨by decide, by decide⟩
  case h_9 =>
    split at h <;> cases h
    simpa [WellFormed] using upperHex_encodeHex _
  case h_10 =>
    split at h <;> cases h
    exact ⟨_, String.toList_ofList⟩
  case h_11 => cases h
  all_goals
    cases h
    trivial

/-- A cast to the type of the value gives the value back, whatever its facets are. -/
theorem eq_of_cast_itemType (hsame : v.itemType = target) (h : v.cast target = .ok w) : v = w := by
  obtain ⟨-, heq⟩ | ⟨hne, -⟩ := cast_cases h
  · exact heq
  · exact absurd hsame hne

/-- **A cast to another type gives a well-formed value**, whatever it is given. -/
theorem wellFormed_of_cast (hne : v.itemType ≠ target) (h : v.cast target = .ok w) : w.WellFormed := by
  obtain ⟨hsame, -⟩ | ⟨-, hroute⟩ := cast_cases h
  · exact absurd hsame hne
  cases hroute with
  | string | untyped => trivial
  | read _ hw => exact wellFormed_of_ofLexical hw
  | number _ hw => exact wellFormed_of_toNumeric hw
  | meaning _ hw => exact wellFormed_of_castByMeaning hw

end Atomic

/-! ### The casting table as a whole -/

/-- The integer part of a rational number. -/
def towardZero (q : ℚ) : Int := if 0 ≤ q then ⌊q⌋ else ⌈q⌉

/-- An integer is its own integer part. -/
private theorem towardZero_intCast (i : Int) : towardZero i = i := by
  unfold towardZero
  split_ifs <;> simp

/-- Decimals are truncated toward zero. -/
private theorem Decimal.toInt_eq_towardZero (d : Decimal) : d.toInt = towardZero d.value := by
  have hfloor : ∀ c : Int, ⌊(c : ℚ) / 10 ^ d.scale⌋ = c / (10 ^ d.scale : Nat) := by
    intro c
    rw [← Rat.floor_intCast_div_natCast]
    push_cast
    rfl
  have hpow : ((tenTo d.scale : Nat) : Int) = (10 ^ d.scale : Nat) := by simp [tenTo]
  have hsign : 0 ≤ d.value ↔ 0 ≤ d.coefficient := by
    rw [Decimal.value, le_div_iff₀ (by positivity), zero_mul]
    exact_mod_cast Iff.rfl
  rw [toInt, hpow, towardZero]
  by_cases hc : 0 ≤ d.coefficient
  · rw [if_pos (hsign.mpr hc), Decimal.value, hfloor, Int.tdiv_eq_ediv_of_nonneg hc]
  · have hneg : 0 ≤ -d.coefficient := by omega
    rw [if_neg (mt hsign.mp hc), Decimal.value, ← neg_neg ((d.coefficient : ℚ) / _), Int.ceil_neg, ← neg_div,
      ← Int.cast_neg, hfloor, ← Int.tdiv_eq_ediv_of_nonneg hneg, Int.neg_tdiv, neg_neg]

namespace Atomic

variable {v w : Atomic} {target : ItemType} {q : ℚ}

/-- The number that a value is without rounding: a boolean counts as zero or one. -/
def exactValue? : Atomic → Option ℚ
  | boolean b => some (if b then 1 else 0)
  | v => v.rational?

/-- A value with an exact number is cast through this number, truncated toward zero. -/
private theorem exists_number?_of_exactValue? (h : v.exactValue? = some q) :
    ∃ n, v.number? = some n ∧ ∀ t, n.toInteger t = .ok (towardZero q) := by
  cases v with
  | boolean b =>
    obtain rfl := Option.some.inj h
    refine ⟨_, rfl, fun t => ?_⟩
    cases b <;> simp [Number.toInteger, towardZero]
  | integer t i =>
    obtain rfl := Option.some.inj h
    refine ⟨_, rfl, fun t => ?_⟩
    rw [towardZero_intCast]
    rfl
  | decimal d =>
    obtain rfl := Option.some.inj h
    exact ⟨_, rfl, fun t => congrArg Except.ok d.toInt_eq_towardZero⟩
  | _ => cases h

/-- The exact number of an integer is that integer. -/
private theorem integer?_of_exactValue? {t : IntegerType} (hv : v.itemType = t.itemType)
    (h : v.exactValue? = some q) :
    v.integer? = some (towardZero q) := by
  cases v with
  | integer t' i =>
    obtain rfl := Option.some.inj h
    rw [towardZero_intCast]
    rfl
  | boolean b => cases t <;> cases hv
  | decimal d => cases t <;> cases hv
  | _ => cases h

/-- Nothing is cast to a type that is not atomic. -/
private theorem cast_of_not_isAtomic (h : target.isAtomic = false) :
    v.cast target = .error (.cannotCast v.itemType target) := by
  simp [cast, h]

/-- The abstract types and `xs:NOTATION` are no targets of casts. -/
theorem cast_of_mem_abstract (h : target ∈ [.anyAtomic, .numeric, .duration, .notationName]) :
    v.cast target = .error (.notACastTarget target) := by
  have htarget : target.isAtomic = true ∧ target.isInstantiable = false := by
    revert h
    cases target <;> decide
  simp [cast, htarget]

/-- Numbers are cast to types of numbers by their value. -/
theorem cast_eq_toNumeric {n : Number} (hn : v.number? = some n) (hne : v.itemType ≠ target)
    (hnumeric : target.isNumeric = true) (hinstantiable : target.isInstantiable = true) :
    v.cast target = v.toNumeric target := by
  have hsource : v.itemType ≠ .untypedAtomic ∧ v.itemType.isStringLike = false := by
    cases v with
    | integer t i => cases t <;> exact ⟨nofun, rfl⟩
    | boolean | decimal | double | float => exact ⟨nofun, rfl⟩
    | _ => cases hn
  have htarget : target.isAtomic = true ∧ target ≠ .string ∧ target ≠ .untypedAtomic ∧
      target.isStringLike = false := by
    revert hnumeric
    cases target <;> decide
  simp [cast, hne, hnumeric, hinstantiable, hsource, htarget]

/-- A number gets to an integer type by truncation and then through the check of this type. -/
theorem toNumeric_eq_ofInteger {n : Number} {t : IntegerType} (hn : v.number? = some n) :
    v.toNumeric t.itemType = n.toInteger t >>= fun i => ofInteger i t := by
  cases t <;> simp only [toNumeric, hn] <;> rfl

end Atomic

/-- The subtypes of `xs:integer` are the integer types. -/
private theorem ItemType.exists_integerType {target : ItemType} (h : target.isSubtypeOf .integer = true) :
    ∃ t : IntegerType, t.itemType = target := by
  have all : ∀ T : ItemType, T.isSubtypeOf .integer = true →
      T ∈ IntegerType.all.map IntegerType.itemType := by
    intro T
    cases T <;> decide
  obtain ⟨t, -, ht⟩ := List.mem_map.mp (all target h)
  exact ⟨t, ht⟩

/-- **Casts give well-formed values of the target type.** A value that is cast to `xs:dateTimeStamp` becomes an
`xs:dateTime` with an offset. A boolean, an integer or a decimal becomes the integer that it is, truncated toward zero.
There are no casts to types that are not atomic, nor to those that have no values of their own. -/
theorem cast_wellFormed (v : Atomic) (target : ItemType) :
    (∀ w, v.WellFormed → v.cast target = .ok w →
      w.WellFormed ∧
      (target ≠ .dateTimeStamp → w.itemType = target) ∧
      (target = .dateTimeStamp → ∃ t offset, w = .dateTime t (some offset)) ∧
      (target.isSubtypeOf .integer = true → ∀ q ∈ v.exactValue?, w.integer? = some (towardZero q))) ∧
    (target.isAtomic = false → FailsWith .XPTY0004 (v.cast target)) ∧
    (target ∈ [.anyAtomic, .numeric, .duration, .notationName] → FailsWith .XPST0080 (v.cast target)) := by
  refine ⟨fun w hv h => ?_, fun hatomic => ?_, fun habstract => ?_⟩
  · have htype := Atomic.ofType_of_cast h
    refine ⟨?_, fun hne => ?_, fun heq => ?_, fun hinteger q hq => ?_⟩
    · by_cases hsame : v.itemType = target
      · obtain rfl := Atomic.eq_of_cast_itemType hsame h
        exact hv
      · exact Atomic.wellFormed_of_cast hsame h
    · obtain htype | ⟨heq, -⟩ := htype
      · exact htype
      · exact absurd heq hne
    · obtain htype | ⟨-, hoffset⟩ := htype
      · rw [heq] at htype
        cases w with
        | text t s => cases t <;> cases htype
        | integer t i => cases t <;> cases htype
        | _ => cases htype
      · cases w with
        | dateTime t z =>
          obtain ⟨offset, rfl⟩ := Option.isSome_iff_exists.mp hoffset
          exact ⟨t, offset, rfl⟩
        | _ => cases hoffset
    · obtain ⟨t, rfl⟩ := ItemType.exists_integerType hinteger
      by_cases hsame : v.itemType = t.itemType
      · obtain rfl := Atomic.eq_of_cast_itemType hsame h
        exact Atomic.integer?_of_exactValue? hsame hq
      · obtain ⟨n, hn, htrunc⟩ := Atomic.exists_number?_of_exactValue? hq
        rw [Atomic.cast_eq_toNumeric hn hsame (by cases t <;> rfl) (by cases t <;> rfl),
          Atomic.toNumeric_eq_ofInteger hn, htrunc] at h
        rw [(Atomic.wellFormed_of_ofInteger h).1]
        rfl
  · exact ⟨_, Atomic.cast_of_not_isAtomic hatomic, rfl⟩
  · exact ⟨_, Atomic.cast_of_mem_abstract habstract, rfl⟩

theorem cast_wellFormed_decimal :
    let v : Atomic := .decimal ⟨-37, 1, by decide, by decide, false, nofun⟩
    let w : Atomic := .integer .byte (-3)
    v.cast .byte = .ok w ∧
    (w.WellFormed ∧ w.itemType = .byte ∧ w.integer? = some (towardZero (-37 / 10))) ∧
    FailsWith .XPTY0004 (v.cast .node) ∧
    FailsWith .XPST0080 (v.cast .notationName) := by
  intro v w
  have hcast : v.cast .byte = .ok w := rfl
  obtain ⟨hw, htype, -, htrunc⟩ := (cast_wellFormed v .byte).1 w trivial hcast
  have hnode := (cast_wellFormed v .node).2.1 rfl
  have hnotation := (cast_wellFormed v .notationName).2.2 (by decide)
  refine ⟨hcast, ⟨hw, htype (by decide), htrunc rfl _ ?_⟩, hnode, hnotation⟩
  simp [v, Atomic.exactValue?, Atomic.rational?, Decimal.value]

end LazyXPath
