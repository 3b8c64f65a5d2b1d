import LazyXPath.Atomic.Key
import LazyXPath.Proofs.Comparison

/-!
# Classes of keys

Whether two values are the same key is decided by rules that look at both of them: numbers of all types are compared
through their decimals, texts of all types by their characters, and everything else by type and payload. All the same
every value has a **class** of its own, which says what the rules look at, and two values are the same key if they have
the same class (`Atomic.sameKey_iff`). So being the same key is symmetric and transitive. It is not reflexive, because
floating-point numbers without a decimal have no class unless they are not a number.
-/

namespace LazyXPath

/-! ### Not a number -/

open Float.Model in
/-- There is one pattern of bits for what is not a number. -/
private theorem eq_packedNaN_of_isNaN {spec : Format} {b : BitVec spec.numBits} (hb : spec.Valid b)
    (h : (UnpackedFloat.unpack spec b).isNaN = true) : b = UnpackedFloat.packedNaN spec := by
  unfold UnpackedFloat.unpack at h
  by_cases he : UnpackedFloat.unpackExponent b = -1#_
  · by_cases hm : UnpackedFloat.unpackMantissa b = 0#_
    · rw [if_pos he, if_pos hm] at h
      cases h
    · exact hb.eq_packedNaN he hm
  · rw [if_neg he] at h
    by_cases hz : UnpackedFloat.unpackExponent b = 0#_
    · rw [if_pos hz] at h
      by_cases hm : UnpackedFloat.unpackMantissa b = 0#_
      · rw [dif_pos hm] at h
        cases h
      · rw [dif_neg hm] at h
        cases h
    · rw [if_neg hz] at h
      cases h

private theorem datum_of_isNaN {x : Float} (h : x.isNaN = true) : Binary.datum x = .nan := by
  have hbits : x.toBits.toBitVec = _ := eq_packedNaN_of_isNaN x.toModel.valid h
  rw [Binary.datum, ← UInt64.toNat_toBitVec, hbits]
  rfl

private theorem datum32_of_isNaN {x : Float32} (h : x.isNaN = true) : Binary.datum32 x = .nan := by
  have hbits : x.toBits.toBitVec = _ := eq_packedNaN_of_isNaN x.toModel.valid h
  rw [Binary.datum32, ← UInt32.toNat_toBitVec, hbits]
  rfl

namespace Atomic

variable {a b c : Atomic}

/-- What is not a number has no decimal. -/
theorem decimal?_of_bothNaN (h : bothNaN a b = true) : a.decimal? = none ∧ b.decimal? = none := by
  unfold bothNaN at h
  split at h
  next x y =>
    obtain ⟨hx, hy⟩ := Bool.and_eq_true_iff.mp h
    simp [decimal?, Decimal.ofDouble?, datum_of_isNaN hx, datum_of_isNaN hy]
  next x y =>
    obtain ⟨hx, hy⟩ := Bool.and_eq_true_iff.mp h
    simp [decimal?, Decimal.ofFloat?, datum32_of_isNaN hx, datum32_of_isNaN hy]
  next => cases h

end Atomic

/-! ### Classes -/

/-- What a value is as a key. -/
inductive KeyClass where
  | number (value : ℚ)
  | notANumber (type : ItemType)
  | text (characters : String)
  | seconds (value : ℚ)
  | exactly (value : Atomic)

namespace Atomic

/-- The class of a number. -/
def numberClass? (a : Atomic) : Option KeyClass :=
  match a.decimal? with
  | some d => some (.number d.value)
  | none => if bothNaN a a then some (.notANumber a.itemType) else none

/-- The class of a value as a key. -/
def keyClass? : Atomic → Option KeyClass
  | text _ s => some (.text s)
  | dayTimeDuration s => some (.seconds s.value)
  | integer t i => numberClass? (integer t i)
  | decimal d => numberClass? (decimal d)
  | double x => numberClass? (double x)
  | float x => numberClass? (float x)
  | a => some (.exactly a)

variable {a b : Atomic} {c : KeyClass}

private theorem bothNaN_iff :
    bothNaN a b = true ↔ bothNaN a a = true ∧ bothNaN b b = true ∧ a.itemType = b.itemType := by
  cases a <;> cases b <;> simp [bothNaN, itemType]

private theorem keyClass?_of_isNumeric (h : a.itemType.isNumeric = true) : a.keyClass? = a.numberClass? := by
  cases a with
  | text t => cases t <;> cases h
  | integer | decimal | double | float => rfl
  | _ => cases h

private theorem sameKey_of_isNumeric (ha : a.itemType.isNumeric = true) (hb : b.itemType.isNumeric = true) :
    a.sameKey b = true ↔ ∃ c, a.keyClass? = some c ∧ b.keyClass? = some c := by
  -- next to a decimal there is no number that is not a number
  have hnone (h : a.decimal? ≠ none ∨ b.decimal? ≠ none) : bothNaN a b = false := by
    cases hnan : bothNaN a b with
    | false => rfl
    | true =>
      obtain ⟨hx, hy⟩ := decimal?_of_bothNaN hnan
      exact absurd h (by simp [hx, hy])
  rw [keyClass?_of_isNumeric ha, keyClass?_of_isNumeric hb, sameKey, ha, hb, numberClass?, numberClass?]
  rcases hx : a.decimal? with _ | x <;> rcases hy : b.decimal? with _ | y
  · cases hself : bothNaN a a <;> cases hother : bothNaN b b <;> simp [bothNaN_iff (b := b), hself, hother, eq_comm]
  · simp [hnone (.inr (by simp [hy]))]
  · simp [hnone (.inl (by simp [hx]))]
  · simp [Decimal.sameValue_iff_value, eq_comm (a := y.value)]

/-- Identical values have one type. -/
theorem itemType_eq_of_identical (h : a.identical b = true) : a.itemType = b.itemType := by
  unfold identical at h
  split at h
  case h_2 | h_3 =>
    obtain ⟨htype, -⟩ := Bool.and_eq_true_iff.mp h
    rw [itemType, itemType, eq_of_beq htype]
  case h_20 => cases h
  all_goals rfl

theorem exists_keyClass?_of_identical (ha : a.itemType.isNumeric = false) (h : a.identical b = true) :
    ∃ c, a.keyClass? = some c ∧ b.keyClass? = some c := by
  unfold identical at h
  split at h
  case h_3 t i _ _ => cases t <;> cases ha
  case h_4 | h_5 | h_6 => cases ha
  case h_12 => exact ⟨_, rfl, by rw [keyClass?, Decimal.sameValue_iff_value.mp h]⟩
  case h_20 => cases h
  all_goals
    simp only [Bool.and_eq_true, beq_iff_eq, and_assoc] at h
    simp [keyClass?, h]

private theorem numberClass?_cases (h : a.numberClass? = some c) :
    (∃ q, c = .number q) ∨ ∃ t, c = .notANumber t := by
  unfold numberClass? at h
  split at h
  · exact .inl ⟨_, (Option.some.inj h).symm⟩
  · split at h
    · exact .inr ⟨_, (Option.some.inj h).symm⟩
    · cases h

/-- What a class tells about its values. -/
theorem keyClass?_cases (h : a.keyClass? = some c) :
    (a.itemType.isNumeric = true ∧ ((∃ q, c = .number q) ∨ ∃ t, c = .notANumber t)) ∨
    (∃ t s, a = text t s ∧ c = .text s) ∨ (∃ d, a = dayTimeDuration d ∧ c = .seconds d.value) ∨
    (a.itemType ≠ .float ∧ a.itemType ≠ .double ∧ c = .exactly a) := by
  cases a with
  | integer t i => exact .inl ⟨by cases t <;> rfl, numberClass?_cases h⟩
  | decimal d => exact .inl ⟨rfl, numberClass?_cases (a := .decimal d) h⟩
  | double x => exact .inl ⟨rfl, numberClass?_cases (a := .double x) h⟩
  | float x => exact .inl ⟨rfl, numberClass?_cases (a := .float x) h⟩
  | text t s => exact .inr (.inl ⟨t, s, rfl, (Option.some.inj h).symm⟩)
  | dayTimeDuration d => exact .inr (.inr (.inl ⟨d, rfl, (Option.some.inj h).symm⟩))
  | _ => exact .inr (.inr (.inr ⟨nofun, nofun, (Option.some.inj h).symm⟩))

private theorem identical_of_keyClass? (hnumber : a.itemType.isNumeric = false ∨ b.itemType.isNumeric = false)
    (htext : a.text? = none ∨ b.text? = none) (ha : a.keyClass? = some c) (hb : b.keyClass? = some c) :
    a.identical b = true := by
  obtain ⟨hnumeric, hc⟩ | ⟨t, s, rfl, rfl⟩ | ⟨d, rfl, rfl⟩ | ⟨hfloat, hdouble, rfl⟩ := keyClass?_cases ha
  · -- the other value is a number, too
    obtain ⟨hnumeric', -⟩ | ⟨t, s, rfl, rfl⟩ | ⟨d, rfl, rfl⟩ | ⟨-, -, rfl⟩ := keyClass?_cases hb
    · simp [hnumeric, hnumeric'] at hnumber
    all_goals simp at hc
  · obtain ⟨-, hc⟩ | ⟨t', s', rfl, -⟩ | ⟨d, rfl, hc⟩ | ⟨-, -, hc⟩ := keyClass?_cases hb
    · simp at hc
    · simp [text?] at htext
    · cases hc
    · cases hc
  · obtain ⟨-, hc⟩ | ⟨t', s', rfl, hc⟩ | ⟨d', rfl, hc⟩ | ⟨-, -, hc⟩ := keyClass?_cases hb
    · simp at hc
    · cases hc
    · exact Decimal.sameValue_iff_value.mpr (KeyClass.seconds.inj hc)
    · cases hc
  · obtain ⟨-, hc⟩ | ⟨t', s', rfl, hc⟩ | ⟨d', rfl, hc⟩ | ⟨-, -, hc⟩ := keyClass?_cases hb
    · simp at hc
    · cases hc
    · cases hc
    · rw [← KeyClass.exactly.inj hc]
      exact identical_self hfloat hdouble

theorem keyClass?_of_text? {x : String} (ha : a.text? = some x) : a.keyClass? = some (.text x) := by
  cases a with
  | text t s =>
    cases ha
    rfl
  | _ => cases ha

private theorem isNumeric_of_text? {x : String} (ha : a.text? = some x) : a.itemType.isNumeric = false := by
  cases a with
  | text t s => cases t <;> rfl
  | _ => cases ha

theorem sameKey_of_texts {x y : String} (ha : a.text? = some x) (hb : b.text? = some y) :
    a.sameKey b = true ↔ ∃ c, a.keyClass? = some c ∧ b.keyClass? = some c := by
  rw [keyClass?_of_text? ha, keyClass?_of_text? hb, sameKey, isNumeric_of_text? ha, ha, hb]
  simp [eq_comm (a := x)]

/-- **Two values are the same key if they have the same class.** -/
theorem sameKey_iff : a.sameKey b = true ↔ ∃ c, a.keyClass? = some c ∧ b.keyClass? = some c := by
  by_cases hnumber : a.itemType.isNumeric = true ∧ b.itemType.isNumeric = true
  · exact sameKey_of_isNumeric hnumber.1 hnumber.2
  by_cases htext : (∃ x, a.text? = some x) ∧ ∃ y, b.text? = some y
  · obtain ⟨⟨x, hx⟩, y, hy⟩ := htext
    exact sameKey_of_texts hx hy
  -- values of different types are not the same key any more
  replace htext : a.text? = none ∨ b.text? = none := by
    simpa only [← Option.isSome_iff_exists, Decidable.not_and_iff_or_not, Bool.not_eq_true, Option.isSome_eq_false_iff,
      Option.isNone_iff_eq_none] using htext
  have hidentical : a.sameKey b = (a.itemType.primitive == b.itemType.primitive && a.identical b) := by
    rw [sameKey, if_neg (by simpa using hnumber)]
    split
    next hx hy => simp [hx, hy] at htext
    next => rfl
  rw [hidentical]
  constructor
  · intro h
    obtain ⟨-, h⟩ := Bool.and_eq_true_iff.mp h
    have ha : a.itemType.isNumeric = false := by
      rw [itemType_eq_of_identical h] at hnumber
      rw [itemType_eq_of_identical h]
      simpa using hnumber
    exact exists_keyClass?_of_identical ha h
  · rintro ⟨c, ha, hb⟩
    have hnumber : a.itemType.isNumeric = false ∨ b.itemType.isNumeric = false := by grind
    have h := identical_of_keyClass? hnumber htext ha hb
    simp [h, itemType_eq_of_identical h]

theorem sameKey_symm (h : a.sameKey b = true) : b.sameKey a = true := by
  obtain ⟨c, ha, hb⟩ := sameKey_iff.mp h
  exact sameKey_iff.mpr ⟨c, hb, ha⟩

theorem sameKey_trans {d : Atomic} (hab : a.sameKey b = true) (hbd : b.sameKey d = true) : a.sameKey d = true := by
  obtain ⟨c, ha, hb⟩ := sameKey_iff.mp hab
  obtain ⟨c', hb', hd⟩ := sameKey_iff.mp hbd
  rw [hb] at hb'
  exact sameKey_iff.mpr ⟨c, ha, hb' ▸ hd⟩

end Atomic

end LazyXPath
