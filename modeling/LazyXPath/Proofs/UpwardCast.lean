import LazyXPath.Proofs.WellFormed

/-!
# Casts to supertypes

A value of a type is one of each of its supertypes, too: the forms of the text types are nested, and so are the ranges
of the integer types (`TextType.Form.of_isSubtypeOf`, `IntegerType.Range.of_isSubtypeOf`). There is one hole. An
`xs:integer` has 64 bits and a sign, whereas the unsigned types below it go on to `2 ^ 64`.

Both are shown step by step along the derivation of types, and from this it follows which casts to supertypes there
are, what they keep and that they can be undone (`upwardCast`).
-/

namespace LazyXPath

open Text

namespace ItemType

variable {s t u b : ItemType} {P : ItemType → Prop}

/-- What passes from a type to the one that it is derived from passes along its derivation. -/
theorem of_mem_derivation (hbase : ∀ s b, s.base? = some b → P s → P b) {n : Nat} (ht : P t)
    (h : u ∈ derivation n t) : P u := by
  induction n generalizing t with
  | zero =>
    obtain rfl := List.mem_singleton.mp h
    exact ht
  | succ n ih =>
    obtain rfl | h := List.mem_cons.mp h
    · exact ht
    · cases hb : t.base? with
      | none => simp [hb] at h
      | some b =>
        rw [hb] at h
        exact ih (hbase t b hb ht) h

/-- Types without values of their own are derived from such types only. -/
theorem isInstantiable_of_base? (hb : s.base? = some b) (hs : s.isInstantiable = false) :
    b.isInstantiable = false := by
  cases s <;> cases hs <;> cases hb <;> rfl

/-- What passes along each step of the derivation passes to all supertypes. The supertypes without values of their own
do not matter. -/
theorem of_isSubtypeOf (hbase : ∀ s b, s.base? = some b → P s → P b ∨ b.isInstantiable = false)
    (hu : u.isInstantiable = true) (ht : P t) (h : t.isSubtypeOf u = true) : P u := by
  obtain ⟨s, hs, hsu⟩ := List.any_eq_true.mp h
  -- the only union has no values of its own
  have hunion : s.union? ≠ some u := by
    intro hunion
    cases s <;> cases hunion <;> cases hu
  have heq : s = u := by simpa [hunion] using hsu
  refine (of_mem_derivation (P := fun s => P s ∨ s.isInstantiable = false) ?_ (.inl ht) (heq ▸ hs)).resolve_right
    (by simp [hu])
  rintro s b hb (hs | hs)
  · exact hbase s b hb hs
  · exact .inr (isInstantiable_of_base? hb hs)

end ItemType

/-! ### Nested forms and ranges -/

namespace TextType

variable {t t' b : TextType} {s : ItemType} {cs : List Char}

/-- A text type is found by its item type. -/
private theorem ofItemType?_itemType (t : TextType) : ofItemType? t.itemType = some t := by
  cases t <;> rfl

/-- So different text types have different item types. -/
private theorem itemType_injective : Function.Injective itemType := fun t t' h => by
  simpa [h, ofItemType?_itemType] using (ofItemType?_itemType t).symm

/-- The form of a text type is at least as strict as that of its base, by cases on the derivation. -/
private theorem Form.of_base? (hb : t.itemType.base? = some b.itemType) (h : t.Form cs) : b.Form cs := by
  match t, b, hb, h with
  | normalizedString, string, _, _ => trivial
  | token, normalizedString, _, h =>
    intro c hc
    -- the blank is not a break
    refine ⟨?_, ?_, ?_⟩ <;>
    · rintro rfl
      exact absurd (h.blanks _ hc (by decide)) (by decide)
  | language, token, _, h | nmtoken, token, _, h | name, token, _, h => exact h.1
  | ncname, name, _, h => exact ⟨h.1, (Bool.and_eq_true_iff.mp h.2).1⟩
  | id, ncname, _, h | idref, ncname, _, h | entity, ncname, _, h => exact h

/-- Below a text type there are only text types. -/
private theorem exists_of_base? (hb : s.base? = some t.itemType) : ∃ t' : TextType, t'.itemType = s := by
  have hsome : (ofItemType? s).isSome = true := by
    cases s <;> first | rfl | (cases t <;> cases hb)
  obtain ⟨t', ht'⟩ := Option.isSome_iff_exists.mp hsome
  exact ⟨t', itemType_eq ht'⟩

/-- The forms of the text types are nested. -/
theorem Form.of_isSubtypeOf (h : t.itemType.isSubtypeOf t'.itemType = true) (ht : t.Form cs) : t'.Form cs := by
  refine ItemType.of_isSubtypeOf (P := fun s => ∀ t : TextType, t.itemType = s → t.Form cs) ?_ ?_ ?_ h t' rfl
  · intro s c hb hs
    refine .inl ?_
    rintro b rfl
    obtain ⟨t', rfl⟩ := exists_of_base? hb
    exact (hs t' rfl).of_base? hb
  · cases t' <;> rfl
  · intro t₁ ht₁
    rwa [itemType_injective ht₁]

/-- Text types with subtypes are strings. -/
theorem isStringLike_of_isSubtypeOf (hne : t ≠ t') (h : t.itemType.isSubtypeOf t'.itemType = true) :
    t.itemType.isStringLike = true ∧ t'.itemType.isStringLike = true := by
  revert hne h
  cases t <;> cases t' <;> decide

end TextType

namespace IntegerType

variable {t t' b : IntegerType} {s : ItemType} {i : Int}

/-- An integer type is found by its item type. -/
private theorem ofItemType?_itemType (t : IntegerType) : ofItemType? t.itemType = some t := by
  cases t <;> rfl

/-- So different integer types have different item types. -/
private theorem itemType_injective : Function.Injective itemType := fun t t' h => by
  simpa [h, ofItemType?_itemType] using (ofItemType?_itemType t).symm

private theorem itemType_ne_decimal (t : IntegerType) : t.itemType ≠ .decimal := by
  cases t <;> decide

/-- Below an integer type there are only integer types. -/
private theorem exists_of_base? (hb : s.base? = some t.itemType) : ∃ t' : IntegerType, t'.itemType = s := by
  have hsome : (ofItemType? s).isSome = true := by
    cases s <;> first | rfl | (cases t <;> cases hb)
  obtain ⟨t', ht'⟩ := Option.isSome_iff_exists.mp hsome
  exact ⟨t', itemType_eq ht'⟩

/-- The range of an integer type is a part of that of its base, with the exception of the unsigned types
below `xs:integer`. -/
private theorem Range.of_base? (hb : t.itemType.base? = some b.itemType) (hi : b = .integer → i < 2 ^ 63)
    (h : t.Range i) :
    b.Range i := by
  cases t <;> cases b <;> cases hb <;> simp [Range] at h hi ⊢ <;> omega

/-- The ranges of the integer types are nested, up to the greatest `xs:integer`. -/
theorem Range.of_isSubtypeOf (h : t.itemType.isSubtypeOf t'.itemType = true) (hi : t' = .integer → i < 2 ^ 63)
    (ht : t.Range i) : t'.Range i := by
  refine ItemType.of_isSubtypeOf
    (P := fun s => ∀ t : IntegerType, t.itemType = s → (t = .integer → i < 2 ^ 63) → t.Range i) ?_ ?_ ?_ h t' rfl hi
  · intro s c hb hs
    refine .inl ?_
    rintro b rfl hi
    obtain ⟨t', rfl⟩ := exists_of_base? hb
    -- `xs:integer` is derived from none of them
    refine (hs t' rfl ?_).of_base? hb hi
    rintro rfl
    cases b <;> cases hb
  · cases t' <;> rfl
  · intro t₁ ht₁ _
    rwa [itemType_injective ht₁]

end IntegerType

/-! ### Casts within a family -/

namespace Atomic

variable {u v w : Atomic} {source target : ItemType}

/-- A cast to the type of the value does nothing. -/
private theorem cast_itemType (v : Atomic) : v.cast v.itemType = .ok v := by
  have htype : v.itemType.isAtomic = true ∧ v.itemType.isInstantiable = true := by
    cases v with
    | text t s => cases t <;> exact ⟨rfl, rfl⟩
    | integer t i => cases t <;> exact ⟨rfl, rfl⟩
    | _ => exact ⟨rfl, rfl⟩
  simp [cast, htype]

/-- A string is cast to the other types of texts to which it belongs. -/
theorem cast_text {t t' : TextType} {s : String} (ht : t.itemType.isStringLike = true) (hs : t'.Form s.toList) :
    (text t s).cast t'.itemType = .ok (text t' s) := by
  by_cases hsame : t = t'
  · rw [hsame]
    exact cast_itemType (text t' s)
  have hne : t.itemType ≠ t'.itemType := mt (@TextType.itemType_injective t t') hsame
  have htarget : t'.itemType.isAtomic = true ∧ t'.itemType.isInstantiable = true := by
    cases t' <;> exact ⟨rfl, rfl⟩
  by_cases hlexical : t' = .string ∨ t' = .untypedAtomic
  · obtain rfl | rfl := hlexical <;> simp [cast, itemType, hne, htarget] <;> rfl
  · have hread : ofLexical s t'.itemType = .ok (text t' s) := by
      obtain ⟨hblanks, hform⟩ := TextType.form_iff.mp hs
      simp [ofLexical, TextType.ofItemType?_itemType, hblanks, hform]
    have hlexical' : t'.itemType ≠ .string ∧ t'.itemType ≠ .untypedAtomic := by
      revert hlexical
      cases t' <;> decide
    simp [cast, itemType, text?, hne, htarget, hlexical', ht, hread]

/-- An integer is cast to every integer type in whose range it is. -/
private theorem cast_integer {t t' : IntegerType} {i : Int} (hi : t'.Range i) :
    (integer t i).cast t'.itemType = .ok (integer t' i) := by
  by_cases hsame : t = t'
  · rw [hsame]
    exact cast_itemType (integer t' i)
  have hne : (integer t i).itemType ≠ t'.itemType := mt (@IntegerType.itemType_injective t t') hsame
  rw [cast_eq_toNumeric rfl hne (by cases t' <;> rfl) (by cases t' <;> rfl), toNumeric_eq_ofInteger rfl]
  exact if_pos (IntegerType.holds_iff.mpr hi)

/-- The exception: an unsigned integer that is no signed one is too large for `xs:integer`. -/
private theorem cast_integer_too_large {t : IntegerType} {i : Int} (ht : t ≠ .integer) (hi : 2 ^ 63 ≤ i) :
    (integer t i).cast .integer = .error (.tooLargeFor .integer) := by
  have hne : (integer t i).itemType ≠ .integer := mt (@IntegerType.itemType_injective t .integer) ht
  have hrange : ¬ IntegerType.Range .integer i := fun hrange => not_le.mpr hrange.2 hi
  rw [cast_eq_toNumeric rfl hne rfl rfl]
  exact if_neg (mt IntegerType.holds_iff.mp hrange)

/-- Integers of all types are decimals. -/
private theorem cast_decimal {t : IntegerType} {i : Int} (hi : t.Range i) :
    ∃ d, (integer t i).cast .decimal = .ok (decimal d) ∧ d.value = i := by
  have hbound : -2 ^ 63 ≤ i ∧ i < 2 ^ 64 := by
    cases t <;> simp only [IntegerType.Range] at hi <;> omega
  obtain ⟨d, hd, -⟩ := Decimal.mk?_eq (c := i) (s := 0) (by rw [Decimal.limit_eq]; omega) (Nat.zero_le _)
  refine ⟨d, ?_, Decimal.value_ofInt? hd⟩
  have hfit : Number.toDecimal (.int i) = .ok d := by
    unfold Number.toDecimal Decimal.ofInt?
    dsimp only
    rw [hd]
  have hne : (integer t i).itemType ≠ .decimal := t.itemType_ne_decimal
  rw [cast_eq_toNumeric rfl hne rfl rfl]
  exact congrArg (Except.map decimal) hfit

/-- The decimal of an integer is cast back to it. -/
private theorem cast_integer_of_decimal {t : IntegerType} {i : Int} {d : Decimal} (hd : d.value = i)
    (hi : t.Range i) :
    (decimal d).cast t.itemType = .ok (integer t i) := by
  have hne : (decimal d).itemType ≠ t.itemType := t.itemType_ne_decimal.symm
  rw [cast_eq_toNumeric rfl hne (by cases t <;> rfl) (by cases t <;> rfl), toNumeric_eq_ofInteger rfl]
  have htrunc : Number.toInteger t (.dec d) = .ok i := congrArg Except.ok (Decimal.toInt_of_value hd)
  rw [htrunc]
  exact if_pos (IntegerType.holds_iff.mpr hi)

/-! ### Supertypes -/

/-- The supertypes of a text type that have values are text types. -/
theorem exists_textType_of_isSubtypeOf {t : TextType} (htarget : target.isInstantiable = true)
    (h : t.itemType.isSubtypeOf target = true) : ∃ t' : TextType, t'.itemType = target := by
  refine ItemType.of_isSubtypeOf (P := fun s => ∃ t' : TextType, t'.itemType = s) ?_ htarget ⟨t, rfl⟩ h
  rintro s b hb ⟨t, rfl⟩
  cases t with
  | string | untypedAtomic | anyUri => cases hb; exact .inr rfl
  | normalizedString => cases hb; exact .inl ⟨.string, rfl⟩
  | token => cases hb; exact .inl ⟨.normalizedString, rfl⟩
  | language | nmtoken | name => cases hb; exact .inl ⟨.token, rfl⟩
  | ncname => cases hb; exact .inl ⟨.name, rfl⟩
  | id | idref | entity => cases hb; exact .inl ⟨.ncname, rfl⟩

/-- The supertypes of an integer type that have values are integer types and `xs:decimal`. -/
theorem exists_integerType_of_isSubtypeOf {t : IntegerType} (htarget : target.isInstantiable = true)
    (h : t.itemType.isSubtypeOf target = true) : target = .decimal ∨ ∃ t' : IntegerType, t'.itemType = target := by
  refine ItemType.of_isSubtypeOf (P := fun s => s = .decimal ∨ ∃ t' : IntegerType, t'.itemType = s) ?_ htarget
    (.inr ⟨t, rfl⟩) h
  rintro s b hb (rfl | ⟨t, rfl⟩)
  · cases hb
    exact .inr rfl
  refine .inl ?_
  cases t with
  | integer => cases hb; exact .inl rfl
  | nonPositiveInteger | long | nonNegativeInteger => cases hb; exact .inr ⟨.integer, rfl⟩
  | negativeInteger => cases hb; exact .inr ⟨.nonPositiveInteger, rfl⟩
  | int => cases hb; exact .inr ⟨.long, rfl⟩
  | short => cases hb; exact .inr ⟨.int, rfl⟩
  | byte => cases hb; exact .inr ⟨.short, rfl⟩
  | positiveInteger | unsignedLong => cases hb; exact .inr ⟨.nonNegativeInteger, rfl⟩
  | unsignedInt => cases hb; exact .inr ⟨.unsignedLong, rfl⟩
  | unsignedShort => cases hb; exact .inr ⟨.unsignedInt, rfl⟩
  | unsignedByte => cases hb; exact .inr ⟨.unsignedShort, rfl⟩

/-- The other types have no supertypes with values. -/
theorem eq_of_isSubtypeOf (htext : v.text? = none) (hinteger : v.integer? = none)
    (htarget : target.isInstantiable = true) (h : v.itemType.isSubtypeOf target = true) : target = v.itemType := by
  refine ItemType.of_isSubtypeOf (P := fun s => s = v.itemType) ?_ htarget rfl h
  rintro s b hb rfl
  refine .inr ?_
  cases v with
  | text => cases htext
  | integer => cases hinteger
  | _ => cases hb; rfl

/-- What a cast to a supertype gives: a value of that type, which is the same number or the same text, and which is cast
back to the value. -/
def CastsUp (v : Atomic) (target : ItemType) : Prop :=
  ∃ w, v.cast target = .ok w ∧ w.itemType = target ∧
    (target.isSubtypeOf .decimal = true → w.rational? = v.rational?) ∧
    (target.isStringLike = true → w.text? = v.text?) ∧
    w.cast v.itemType = .ok v

/-- Every type is a supertype of itself. -/
private theorem castsUp_itemType (v : Atomic) : v.CastsUp v.itemType :=
  ⟨v, v.cast_itemType, rfl, fun _ => rfl, fun _ => rfl, v.cast_itemType⟩

/-- Texts are cast to the text types above theirs, and keep their characters. -/
private theorem castsUp_text {t : TextType} {s : String} (hs : t.Form s.toList)
    (htarget : target.isInstantiable = true)
    (h : t.itemType.isSubtypeOf target = true) : (text t s).CastsUp target := by
  obtain ⟨t', rfl⟩ := exists_textType_of_isSubtypeOf htarget h
  by_cases hsame : t = t'
  · obtain rfl := hsame
    exact castsUp_itemType (text t s)
  · obtain ⟨ht, ht'⟩ := TextType.isStringLike_of_isSubtypeOf hsame h
    refine ⟨text t' s, cast_text ht (hs.of_isSubtypeOf h), rfl, fun hdecimal => ?_, fun _ => rfl, cast_text ht' hs⟩
    rfl

/-- Integers are cast to the integer types above theirs and to decimals, unless they are too large for
`xs:integer`. -/
private theorem castsUp_integer {t : IntegerType} {i : Int} (hi : t.Range i)
    (htarget : target.isInstantiable = true)
    (h : t.itemType.isSubtypeOf target = true) (hlimit : target = .integer → i < 2 ^ 63) :
    (integer t i).CastsUp target := by
  obtain rfl | ⟨t', rfl⟩ := exists_integerType_of_isSubtypeOf htarget h
  · obtain ⟨d, hd, hvalue⟩ := cast_decimal hi
    refine ⟨decimal d, hd, rfl, fun _ => congrArg some hvalue, fun hlike => ?_, cast_integer_of_decimal hvalue hi⟩
    cases hlike
  · have hi' : t'.Range i := hi.of_isSubtypeOf h fun ht' => hlimit (congrArg IntegerType.itemType ht')
    exact ⟨integer t' i, cast_integer hi', rfl, fun _ => rfl, fun _ => rfl, cast_integer hi⟩

end Atomic

/-- **Casts to supertypes** succeed, keep the number or the text that a value is and can be undone, except for the casts
of unsigned integers beyond the 64 bits of `xs:integer` to this type. This is so for every value that a cast has given,
provided that the value from which it was cast is well-formed when this was a cast to its own type. -/
theorem upwardCast {u v : Atomic} {source target : ItemType} (hu : u.WellFormed ∨ u.itemType ≠ source)
    (hv : u.cast source = .ok v) (htarget : target.isInstantiable = true)
    (h : v.itemType.isSubtypeOf target = true) :
    (target = .integer → ∀ i ∈ v.integer?, 2 ^ 63 ≤ i → FailsWith .FOCA0003 (v.cast target)) ∧
    ((target = .integer → ∀ i ∈ v.integer?, i < 2 ^ 63) → v.CastsUp target) := by
  have hwell : v.WellFormed := by
    by_cases hsame : u.itemType = source
    · obtain rfl := Atomic.eq_of_cast_itemType hsame hv
      exact hu.resolve_right (not_not.mpr hsame)
    · exact Atomic.wellFormed_of_cast hsame hv
  constructor
  · rintro rfl i hi hlarge
    cases v with
    | integer t i' =>
      obtain rfl := Option.some.inj hi
      have ht : t ≠ .integer := by
        rintro rfl
        exact not_le.mpr hwell.2 hlarge
      rw [Atomic.cast_integer_too_large ht hlarge]
      exact ⟨_, rfl, rfl⟩
    | _ => cases hi
  · intro hlimit
    cases v with
    | text t s => exact Atomic.castsUp_text hwell htarget h
    | integer t i => exact Atomic.castsUp_integer hwell htarget h fun heq => hlimit heq i rfl
    | _ =>
      obtain rfl := Atomic.eq_of_isSubtypeOf rfl rfl htarget h
      exact Atomic.castsUp_itemType _

/-- A name without a colon is a token, and the greatest unsigned integer is a non-negative one. -/
theorem upwardCast_ncname_unsignedLong :
    let v : Atomic := .text .ncname "a-b"
    let n : Atomic := .integer .unsignedLong (2 ^ 64 - 1)
    v.CastsUp .token ∧ n.CastsUp .nonNegativeInteger ∧ FailsWith .FOCA0003 (n.cast .integer) := by
  intro v n
  have hv : (Atomic.ofString " a-b\n").cast .ncname = .ok v := rfl
  have hn : (Atomic.ofString "18446744073709551615").cast .unsignedLong = .ok n := rfl
  exact ⟨(upwardCast (.inr (by decide)) hv rfl rfl).2 nofun, (upwardCast (.inr (by decide)) hn rfl rfl).2 nofun,
    (upwardCast (.inr (by decide)) hn rfl rfl).1 rfl _ rfl (by decide)⟩

/-- An `xs:unsignedLong` need not be an `xs:integer`. -/
theorem unsignedLong_cast_integer :
    let n : Atomic := .integer .unsignedLong (2 ^ 63)
    (Atomic.ofString "9223372036854775808").cast .unsignedLong = .ok n ∧
    ItemType.isSubtypeOf .unsignedLong .integer = true ∧ ItemType.isInstantiable .integer = true ∧
    FailsWith .FOCA0003 (n.cast .integer) := by
  intro n
  exact ⟨rfl, rfl, rfl, _, rfl, rfl⟩

end LazyXPath
