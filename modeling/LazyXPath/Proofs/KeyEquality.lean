import LazyXPath.Proofs.Dictionary
import LazyXPath.Proofs.ValueOrder

/-!
# Keys and equal values

Whether two values are the same key is decided by rules of its own and not by the comparison `eq`. The two agree on
all values but floating-point numbers, except for **details** of a key that equality does not look at: the mark of a
qualified name, the offset of a point in time, and the kind of a duration, which matters to zero durations. Values that
are equal are the same key if they have the same detail, and only then (`sameKey_iff_of_equal`).
-/

namespace LazyXPath

private theorem ComparisonBasis.of_onlyEqual {x : Bool} (h : onlyEqual x = some .eq) : x = true := by
  cases x with
  | true => rfl
  | false => cases h

/-- What tells keys of equal values apart. -/
inductive KeyDetail where
  | mark (mark : Option String)
  | offset (offset : Option Calendar.Offset)
  | kind (kind : DurationKind)

namespace Atomic

/-- What tells a key apart from those of equal values. -/
def keyDetail? : Atomic → Option KeyDetail
  | qname _ p _ => some (.mark p)
  | dateTime _ z | date _ z | time _ z => some (.offset z)
  | yearMonthDuration _ => some (.kind .yearMonth)
  | dayTimeDuration _ => some (.kind .dayTime)
  | _ => none

variable {a b : Atomic} {x y : ℚ}

/-- What a class leaves as it is is the same key as itself only. -/
theorem sameKey_iff_eq (ha : a.keyClass? = some (.exactly a)) (hb : b.keyClass? = some (.exactly b)) :
    a.sameKey b = true ↔ a = b := by
  rw [sameKey_iff, ha, hb]
  simp [eq_comm]

/-! ### Integers and decimals -/

private theorem keyDetail?_of_rational? (ha : a.rational? = some x) : a.keyDetail? = none := by
  cases a with
  | integer | decimal => rfl
  | _ => cases ha

private theorem decimal?_of_promoteDecimal {p : Decimal} (ha : a.rational? = some x)
    (hp : a.promoteDecimal = .ok p) :
    a.decimal? = some p := by
  cases a with
  | integer t i =>
    unfold promoteDecimal at hp
    dsimp only at hp
    rw [decimal?]
    cases hi : Decimal.ofInt? i with
    | some q => rw [hi] at hp; rw [Except.ok.inj hp]
    | none => rw [hi] at hp; cases hp
  | decimal d => exact congrArg some (Except.ok.inj hp)
  | _ => cases ha

private theorem keyClass?_of_rational? {p : Decimal} (ha : a.rational? = some x) (hp : a.decimal? = some p) :
    a.keyClass? = some (.number p.value) := by
  have hclass : a.keyClass? = a.numberClass? := by
    cases a with
    | integer | decimal => rfl
    | _ => cases ha
  rw [hclass, numberClass?, hp]

private theorem exists_rational? {k : NumericKind} (hk : a.numericKind? = some k)
    (ha : a.itemType ≠ .float ∧ a.itemType ≠ .double) : ∃ x, a.rational? = some x := by
  cases a with
  | integer | decimal => exact ⟨_, rfl⟩
  | float => exact absurd rfl ha.1
  | double => exact absurd rfl ha.2
  | _ => cases hk

/-! ### Texts and values compared by identity -/

private theorem keyDetail?_of_text? {s : String} (ha : a.text? = some s) : a.keyDetail? = none := by
  cases a with
  | text => rfl
  | _ => cases ha

private theorem of_isIdentityType (ha : ComparisonRule.isIdentityType a.itemType = true) :
    a.itemType.isNumeric = false ∧ a.keyDetail? = none := by
  cases a with
  | gYear | gYearMonth | gMonth | gMonthDay | gDay | base64Binary | hexBinary => exact ⟨rfl, rfl⟩
  | text t => cases t <;> cases ha
  | integer t => cases t <;> cases ha
  | _ => cases ha

/-! ### Points in time -/

private theorem instant_of_temporalKind {t : TemporalKind} (ha : TemporalKind.ofType? a.itemType = some t) :
    ∃ n, a.instant? = some n ∧ a.keyClass? = some (.exactly a) := by
  obtain ⟨-, u, z, rfl⟩ | ⟨-, d, z, rfl⟩ | ⟨-, u, z, rfl⟩ := temporal_cases ha
  · exact ⟨_, rfl, rfl⟩
  · exact ⟨_, rfl, rfl⟩
  · exact ⟨_, rfl, rfl⟩

private theorem family?_of_temporalKind {t : TemporalKind} (ha : TemporalKind.ofType? a.itemType = some t)
    (hb : TemporalKind.ofType? b.itemType = some t) : a.family? = b.family? := by
  obtain ⟨rfl, u, y, rfl⟩ | ⟨rfl, d, y, rfl⟩ | ⟨rfl, u, y, rfl⟩ := temporal_cases ha <;>
    obtain ⟨h, v, z, rfl⟩ | ⟨h, e, z, rfl⟩ | ⟨h, v, z, rfl⟩ := temporal_cases hb <;>
    first | rfl | cases h

/-- With one offset, points in time of one instant are one point in local time. -/
theorem eq_of_instant? {n : Int} (hfamily : a.family? = b.family?) (ha : a.instant? = some n)
    (hb : b.instant? = some n) (hdetail : a.keyDetail? = b.keyDetail?) : a = b := by
  have hlocal {u v : Calendar.DateTime} {y z : Option Calendar.Offset}
      (hu : some (u.instant - Calendar.offsetNanos y) = some n) (hv : some (v.instant - Calendar.offsetNanos z) = some n)
      (hyz : some (KeyDetail.offset y) = some (KeyDetail.offset z)) : u = v ∧ y = z := by
    obtain rfl : y = z := KeyDetail.offset.inj (Option.some.inj hyz)
    have huv : v.instant = u.instant := by grind
    have hsome := Calendar.DateTime.ofInstant?_eq_some_iff.mpr huv
    rw [Calendar.DateTime.ofInstant?_instant] at hsome
    exact ⟨Option.some.inj hsome, rfl⟩
  cases a with
  | dateTime u y =>
    cases b <;> cases hfamily
    obtain ⟨rfl, rfl⟩ := hlocal ha hb hdetail
    rfl
  | date d y =>
    cases b <;> cases hfamily
    obtain ⟨hmidnight, rfl⟩ := hlocal ha hb hdetail
    rw [(Calendar.DateTime.mk.inj hmidnight).1]
  | time u y =>
    cases b <;> cases hfamily
    obtain ⟨htoday, rfl⟩ := hlocal ha hb hdetail
    rw [(Calendar.DateTime.mk.inj htoday).2]
  | _ => cases ha

end Atomic

/-! ### Equal values -/

namespace OperatorCache.Coherent

variable {c : OperatorCache} (hc : c.Coherent) {a b : Atomic}

include hc

/-- Integers and decimals are equal only if both have decimals. -/
theorem decimals_of_equal {x y : ℚ} (ha : a.rational? = some x) (hb : b.rational? = some y)
    (h : (c.compare .eq a b).1 = .ok true) :
    ∃ p q, a.decimal? = some p ∧ b.decimal? = some q ∧ p.value = q.value := by
  have hxy : x = y := (hc.comparedBy_rational ha hb).relates h
  suffices hpromote : (∃ p, a.promoteDecimal = .ok p ∧ p.value = x) ∧ ∃ q, b.promoteDecimal = .ok q ∧ q.value = y by
    obtain ⟨⟨p, hp, hpx⟩, q, hq, hqy⟩ := hpromote
    exact ⟨p, q, Atomic.decimal?_of_promoteDecimal ha hp, Atomic.decimal?_of_promoteDecimal hb hq, by rw [hpx, hqy, hxy]⟩
  by_cases hdecimal : a.integer? = none ∨ b.integer? = none
  · rw [hc.compare_of_basis? (basis?_decimals .eq ha hb hdecimal), ComparisonBasis.order, Operands.promote] at h
    obtain hp | hp := Atomic.promoteDecimal_cases ha
    · obtain hq | hq := Atomic.promoteDecimal_cases hb
      · exact ⟨hp, hq⟩
      · obtain ⟨p, hp, -⟩ := hp
        rw [hp, hq] at h
        cases h
    · rw [hp] at h
      cases h
  obtain ⟨hleft, hright⟩ := not_or.mp hdecimal
  obtain ⟨t, i, rfl, rfl⟩ := Atomic.eq_integer_of_rational ha hleft
  obtain ⟨u, j, rfl, rfl⟩ := Atomic.eq_integer_of_rational hb hright
  rw [hc.compare_integers] at h
  split_ifs at h with hfits
  have hi := fitsLong_iff.mp hfits.1
  have hj := fitsLong_iff.mp hfits.2
  exact ⟨Atomic.exists_promoteDecimal ha (by rintro _ ⟨⟩; omega), Atomic.exists_promoteDecimal hb (by rintro _ ⟨⟩; omega)⟩

/-- Equal values are compared by something that suits them, and that finds them equal. -/
theorem basis_of_equal (h : (c.compare .eq a b).1 = .ok true) :
    ∃ basis : ComparisonBasis, basis.Suits a b ∧ basis.order a b = .ok (some .eq) := by
  cases hbasis : ComparisonRule.basis? .eq (ComparisonRule.operandType a.itemType)
      (ComparisonRule.operandType b.itemType) with
  | none =>
    rw [hc.compare_eq, ComparisonRule.resolve, hbasis] at h
    cases h
  | some basis =>
    refine ⟨basis, ComparisonRule.suits_of_basis? hbasis, ?_⟩
    rw [hc.compare_of_basis? hbasis] at h
    rcases ho : basis.order a b with e | o
    · rw [ho] at h
      cases h
    · rw [ho] at h
      have hholds : ComparisonOp.eq.holds o = true := Except.ok.inj h
      cases o with
      | none => cases hholds
      | some o => cases o <;> first | rfl | cases hholds

/-- Points in time of one instant are the same key if they have one offset. -/
theorem sameKey_of_equal_instants {t : TemporalKind} (ha : TemporalKind.ofType? a.itemType = some t)
    (hb : TemporalKind.ofType? b.itemType = some t) (h : (c.compare .eq a b).1 = .ok true) :
    a.sameKey b = true ↔ a.keyDetail? = b.keyDetail? := by
  obtain ⟨x, hx, hclass⟩ := Atomic.instant_of_temporalKind ha
  obtain ⟨y, hy, hclass'⟩ := Atomic.instant_of_temporalKind hb
  have hfamily := Atomic.family?_of_temporalKind ha hb
  obtain rfl : x = y := (hc.comparedBy_instant hfamily hx hy).relates h
  rw [Atomic.sameKey_iff_eq hclass hclass']
  exact ⟨fun heq => by rw [heq], Atomic.eq_of_instant? hfamily hx hy⟩

/-- Durations of one kind and length are the same key. -/
theorem sameKey_of_equal_durations {k : DurationKind} (ha : DurationKind.ofType? a.itemType = some k)
    (hb : DurationKind.ofType? b.itemType = some k) (h : (c.compare .eq a b).1 = .ok true) :
    a.sameKey b = true ∧ a.keyDetail? = b.keyDetail? := by
  obtain ⟨rfl, m, rfl⟩ | ⟨rfl, s, rfl⟩ := Atomic.duration_cases ha
  · obtain ⟨-, n, rfl⟩ | ⟨hne, -⟩ := Atomic.duration_cases hb
    · obtain rfl : m = n := (hc.comparedBy_months rfl rfl).relates h
      exact ⟨(Atomic.sameKey_iff_eq rfl rfl).mpr rfl, rfl⟩
    · cases hne
  · obtain ⟨hne, -⟩ | ⟨-, s', rfl⟩ := Atomic.duration_cases hb
    · cases hne
    · have hvalue : s.value = s'.value := (hc.comparedBy_seconds rfl rfl).relates h
      exact ⟨Atomic.sameKey_iff.mpr ⟨.seconds s.value, rfl, by rw [hvalue]; rfl⟩, rfl⟩

omit hc in
/-- Durations of different kinds are never the same key. -/
theorem not_sameKey_of_kinds {k l : DurationKind} (hkl : k ≠ l) (ha : DurationKind.ofType? a.itemType = some k)
    (hb : DurationKind.ofType? b.itemType = some l) :
    a.sameKey b = false ∧ a.keyDetail? ≠ b.keyDetail? := by
  obtain ⟨rfl, m, rfl⟩ | ⟨rfl, s, rfl⟩ := Atomic.duration_cases ha <;>
    obtain ⟨rfl, n, rfl⟩ | ⟨rfl, s', rfl⟩ := Atomic.duration_cases hb
  · exact absurd rfl hkl
  · exact ⟨rfl, nofun⟩
  · exact ⟨rfl, nofun⟩
  · exact absurd rfl hkl

end OperatorCache.Coherent

/-! ### Keys and equality -/

/-- **Equal values are the same key up to their details.** If two values that are not floating-point numbers are equal,
then they are the same key if and only if they have the same detail. So an entry that is put under a key is found under
every equal key of the same detail, and under no other equal key. -/
theorem sameKey_iff_of_equal {c : OperatorCache} (hc : c.Coherent) {a b : Atomic}
    (ha : a.itemType ≠ .float ∧ a.itemType ≠ .double) (hb : b.itemType ≠ .float ∧ b.itemType ≠ .double)
    (h : (c.compare .eq a b).1 = .ok true) :
    (a.sameKey b = true ↔ a.keyDetail? = b.keyDetail?) ∧
    ∀ (α : Type) (d : Dictionary α) (value : α), a.keyDetail? = b.keyDetail? → (d.put a value).get? b = some value := by
  have hsame : a.sameKey b = true ↔ a.keyDetail? = b.keyDetail? := by
    obtain ⟨basis, hsuits, horder⟩ := hc.basis_of_equal h
    cases hsuits with
    | numbers hak hbk =>
      obtain ⟨x, hx⟩ := Atomic.exists_rational? hak ha
      obtain ⟨y, hy⟩ := Atomic.exists_rational? hbk hb
      obtain ⟨p, q, hp, hq, hpq⟩ := hc.decimals_of_equal hx hy h
      have hclass := Atomic.keyClass?_of_rational? hx hp
      rw [hpq] at hclass
      refine iff_of_true (Atomic.sameKey_iff.mpr ⟨_, hclass, Atomic.keyClass?_of_rational? hy hq⟩) ?_
      rw [Atomic.keyDetail?_of_rational? hx, Atomic.keyDetail?_of_rational? hy]
    | @texts _ _ s t hat hbt =>
      have hcompare : compareTexts s t = .eq := by simpa [ComparisonBasis.order, hat, hbt] using horder
      obtain rfl : s = t := (hcompare ▸ compareTexts_compares s t : Ordering.eq.Compares s t)
      refine iff_of_true ((Atomic.sameKey_of_texts hat hbt).mpr ?_) ?_
      · exact ⟨_, Atomic.keyClass?_of_text? hat, Atomic.keyClass?_of_text? hbt⟩
      · rw [Atomic.keyDetail?_of_text? hat, Atomic.keyDetail?_of_text? hbt]
    | booleans x y =>
      obtain rfl : x = y := (hc.comparedBy_truth rfl rfl).relates h
      exact iff_of_true ((Atomic.sameKey_iff_eq rfl rfl).mpr rfl) rfl
    | instants hat hbt => exact hc.sameKey_of_equal_instants hat hbt h
    | durations hak hbk =>
      obtain ⟨hsame, hdetail⟩ := hc.sameKey_of_equal_durations hak hbk h
      exact iff_of_true hsame hdetail
    | zeroDurations hkl hak hbl =>
      obtain ⟨hsame, hdetail⟩ := OperatorCache.Coherent.not_sameKey_of_kinds hkl hak hbl
      exact iff_of_false (by simp [hsame]) hdetail
    | qnames s p l s' p' l' =>
      have hnames := ComparisonBasis.of_onlyEqual (Except.ok.inj horder)
      simp only [Bool.and_eq_true, beq_iff_eq] at hnames
      obtain ⟨rfl, rfl⟩ := hnames
      simp [Atomic.sameKey_iff_eq (a := .qname s p l) (b := .qname s p' l) rfl rfl, Atomic.keyDetail?]
    | identity hidentity =>
      have hidentical := ComparisonBasis.of_onlyEqual (Except.ok.inj horder)
      obtain ⟨hnumeric, hdetail⟩ := Atomic.of_isIdentityType hidentity
      rw [Atomic.itemType_eq_of_identical hidentical] at hidentity
      obtain ⟨-, hdetail'⟩ := Atomic.of_isIdentityType hidentity
      refine iff_of_true (Atomic.sameKey_iff.mpr (Atomic.exists_keyClass?_of_identical hnumeric hidentical)) ?_
      rw [hdetail, hdetail']
  refine ⟨hsame, fun α d value hdetail => ?_⟩
  rw [Dictionary.get?_put, if_pos (hsame.mpr hdetail)]

/-- A number and a decimal of the same value, and midnight with and without an offset. -/
theorem sameKey_iff_of_equal_decimal :
    let one : Decimal := ⟨10, 1, by decide, by decide, false, nofun⟩
    let midnight (offset : Option Calendar.Offset) : Atomic := .time .midnight offset
    (((⟨[]⟩ : Dictionary Nat).put (.integer .byte 1) 5).get? (.decimal one) = some 5) ∧
    (OperatorCache.empty.compare .eq (midnight none) (midnight (some ⟨0⟩))).1 = .ok true ∧
    (midnight none).sameKey (midnight (some ⟨0⟩)) = false := by
  intro one midnight
  have hc := OperatorCache.Holds.empty.coherent
  have hequal : (OperatorCache.empty.compare .eq (midnight none) (midnight (some ⟨0⟩))).1 = .ok true := by
    decide +kernel
  have htime (z : Option Calendar.Offset) : (midnight z).itemType ≠ .float ∧ (midnight z).itemType ≠ .double :=
    ⟨(by decide : ItemType.time ≠ .float), (by decide : ItemType.time ≠ .double)⟩
  refine ⟨?_, hequal, Bool.eq_false_iff.mpr fun hsame => ?_⟩
  · exact (sameKey_iff_of_equal hc (a := .integer .byte 1) (b := .decimal one) (by decide) ⟨nofun, nofun⟩
      (by decide +kernel)).2 Nat ⟨[]⟩ 5 rfl
  · cases (sameKey_iff_of_equal hc (htime _) (htime _) hequal).1.mp hsame

/-- Equal names with two marks, equal points in time with two offsets and equal durations of two kinds are different
keys. -/
theorem equal_not_sameKey :
    let name (mark : String) : Atomic := .qname (some "urn:x") (some mark) "a"
    let day : Calendar.Date := ⟨2020, 1, 1, by decide, by decide, by decide⟩
    let noonEast : Atomic := .dateTime ⟨day, ⟨12 * 3600 * 10 ^ 9, by decide⟩⟩ (some ⟨3600⟩)
    let eleven : Atomic := .dateTime ⟨day, ⟨11 * 3600 * 10 ^ 9, by decide⟩⟩ (some ⟨0⟩)
    let pairs := [(name "p", name "q"), (noonEast, eleven), (.yearMonthDuration 0, .dayTimeDuration Decimal.zero)]
    ∀ p ∈ pairs, (OperatorCache.empty.compare .eq p.1 p.2).1 = .ok true ∧ p.1.sameKey p.2 = false := by
  decide +kernel

end LazyXPath
