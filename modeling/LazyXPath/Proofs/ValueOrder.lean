import LazyXPath.Proofs.Comparison
import LazyXPath.Proofs.TimeLine
import Mathlib.Data.String.Basic

/-!
# The order of values

Values fall into families whose members are compared to each other (`ValueFamily`): texts, truth values, integers
and decimals, three kinds of points in time and two kinds of durations. In each family a value has a place in a
linear order: its code points, its number, its instant or its length. Two values are compared by their places, or
not at all, whatever the comparison and the order of the operands (`OperatorCache.ComparedBy`).

So the six comparisons, each of which is resolved and cached by itself for each pair of types, are those of one
total preorder (`comparisons_coherent`).
-/

namespace LazyXPath

namespace ComparisonOp

/-- The comparison that holds where the given one does not. -/
def negation : ComparisonOp → ComparisonOp
  | eq => ne
  | ne => eq
  | lt => ge
  | le => gt
  | gt => le
  | ge => lt

/-- The comparison with the operands swapped. -/
def swapped : ComparisonOp → ComparisonOp
  | eq => eq
  | ne => ne
  | lt => gt
  | le => ge
  | gt => lt
  | ge => le

section

variable {α : Type} [LinearOrder α] {x y : α}

private theorem relates_negation (op : ComparisonOp) : op.negation.Relates x y ↔ ¬ op.Relates x y := by
  cases op <;> simp [negation, Relates]

private theorem relates_swapped (op : ComparisonOp) : op.swapped.Relates y x ↔ op.Relates x y := by
  cases op <;> simp [swapped, Relates, eq_comm]

/-- Two elements are in exactly one of the strict relations and equality. -/
theorem existsUnique_relates (x y : α) : ∃! op, op ∈ [lt, eq, gt] ∧ op.Relates x y := by
  obtain hlt | rfl | hgt := lt_trichotomy x y
  · refine ⟨lt, ⟨by simp, hlt⟩, ?_⟩
    rintro op ⟨hop, hrel⟩
    cases op <;> simp_all [Relates, hlt.ne, hlt.asymm]
  · refine ⟨eq, ⟨by simp, rfl⟩, ?_⟩
    rintro op ⟨hop, hrel⟩
    cases op <;> simp_all [Relates]
  · refine ⟨gt, ⟨by simp, hgt⟩, ?_⟩
    rintro op ⟨hop, hrel⟩
    cases op <;> simp_all [Relates, hgt.ne', hgt.asymm]

end

end ComparisonOp

/-! ### Coherent comparisons -/

namespace OperatorCache

/-- Two values are compared by the places `x` and `y`, or there is a failure that neither depends on the comparison
nor on the order of the operands. -/
def ComparedBy {α : Type} [LinearOrder α] (c : OperatorCache) (a b : Atomic) (x y : α) : Prop :=
  (∃ e, ∀ op, (c.compare op a b).1 = .error e ∧ (c.compare op b a).1 = .error e) ∨
    ∀ op : ComparisonOp, (c.compare op a b).1 = .ok (decide (op.Relates x y))

/-- On the values with a property, comparisons are those of a total preorder. Where one comparison of two values
fails, all of them do, with the same error. -/
structure TotalPreorder (c : OperatorCache) (P : Atomic → Prop) : Prop where
  fails_alike {a b op e} : P a → P b → (c.compare op a b).1 = .error e →
    ∀ op', (c.compare op' a b).1 = .error e ∧ (c.compare op' b a).1 = .error e
  trichotomy {a b op r} : P a → P b → (c.compare op a b).1 = .ok r →
    ∃! o, o ∈ [ComparisonOp.lt, .eq, .gt] ∧ (c.compare o a b).1 = .ok true
  negation {a b op r} : P a → P b → (c.compare op a b).1 = .ok r → (c.compare op.negation a b).1 = .ok (!r)
  swap {a b op r} : P a → P b → (c.compare op a b).1 = .ok r → (c.compare op.swapped b a).1 = .ok r
  lt_trans {a b d r} : P a → P b → P d → (c.compare .lt a b).1 = .ok true → (c.compare .lt b d).1 = .ok true →
    (c.compare .lt a d).1 = .ok r → r = true
  congr_left {a b d op r s} : P a → P b → P d → (c.compare .eq a b).1 = .ok true →
    (c.compare op a d).1 = .ok r → (c.compare op b d).1 = .ok s → r = s
  congr_right {a b d op r s} : P a → P b → P d → (c.compare .eq a b).1 = .ok true →
    (c.compare op d a).1 = .ok r → (c.compare op d b).1 = .ok s → r = s

section

variable {α : Type} [LinearOrder α] {c : OperatorCache} {a b : Atomic} {x y : α}

/-- If one comparison succeeds, the places are compared by all of them. -/
theorem ComparedBy.of_ok (h : c.ComparedBy a b x y) {op : ComparisonOp} {r : Bool}
    (hr : (c.compare op a b).1 = .ok r)
    (op' : ComparisonOp) : (c.compare op' a b).1 = .ok (decide (op'.Relates x y)) := by
  obtain ⟨e, he⟩ | h := h
  · rw [(he op).1] at hr
    cases hr
  · exact h op'

private theorem ComparedBy.eq_decide (h : c.ComparedBy a b x y) {op : ComparisonOp} {r : Bool}
    (hr : (c.compare op a b).1 = .ok r) : r = decide (op.Relates x y) :=
  Except.ok.inj (hr.symm.trans (h.of_ok hr op))

theorem ComparedBy.relates (h : c.ComparedBy a b x y) {op : ComparisonOp} (hr : (c.compare op a b).1 = .ok true) :
    op.Relates x y := of_decide_eq_true (h.eq_decide hr).symm

/-- Values that have places in a linear order, by which they are compared, are preordered. -/
theorem TotalPreorder.of_places {P : Atomic → Prop} {place? : Atomic → Option α}
    (hplace : ∀ {a}, P a → ∃ x, place? a = some x)
    (h : ∀ {a b x y}, P a → P b → place? a = some x → place? b = some y → c.ComparedBy a b x y) :
    c.TotalPreorder P where
  fails_alike {a b op e} ha hb he := by
    obtain ⟨x, hx⟩ := hplace ha
    obtain ⟨y, hy⟩ := hplace hb
    obtain ⟨e', he'⟩ | hok := h ha hb hx hy
    · obtain rfl : e' = e := Except.error.inj ((he' op).1.symm.trans he)
      exact he'
    · rw [hok op] at he
      cases he
  trichotomy {a b op r} ha hb hr := by
    obtain ⟨x, hx⟩ := hplace ha
    obtain ⟨y, hy⟩ := hplace hb
    have hall := (h ha hb hx hy).of_ok hr
    simp only [hall, Except.ok.injEq, decide_eq_true_eq]
    exact ComparisonOp.existsUnique_relates x y
  negation {a b op r} ha hb hr := by
    obtain ⟨x, hx⟩ := hplace ha
    obtain ⟨y, hy⟩ := hplace hb
    have hab := h ha hb hx hy
    rw [hab.of_ok hr, hab.eq_decide hr, ← decide_not, decide_eq_decide.mpr op.relates_negation]
  swap {a b op r} ha hb hr := by
    obtain ⟨x, hx⟩ := hplace ha
    obtain ⟨y, hy⟩ := hplace hb
    obtain ⟨e, he⟩ | hba := h hb ha hy hx
    · rw [(he op).2] at hr
      cases hr
    · rw [hba, (h ha hb hx hy).eq_decide hr, decide_eq_decide.mpr op.relates_swapped]
  lt_trans {a b d r} ha hb hd hab hbd hr := by
    obtain ⟨x, hx⟩ := hplace ha
    obtain ⟨y, hy⟩ := hplace hb
    obtain ⟨z, hz⟩ := hplace hd
    have hxy : x < y := (h ha hb hx hy).relates hab
    have hyz : y < z := (h hb hd hy hz).relates hbd
    rw [(h ha hd hx hz).eq_decide hr]
    exact decide_eq_true (hxy.trans hyz)
  congr_left {a b d op r s} ha hb hd hab hr hs := by
    obtain ⟨x, hx⟩ := hplace ha
    obtain ⟨y, hy⟩ := hplace hb
    obtain ⟨z, hz⟩ := hplace hd
    obtain rfl : x = y := (h ha hb hx hy).relates hab
    rw [(h ha hd hx hz).eq_decide hr, (h hb hd hy hz).eq_decide hs]
  congr_right {a b d op r s} ha hb hd hab hr hs := by
    obtain ⟨x, hx⟩ := hplace ha
    obtain ⟨y, hy⟩ := hplace hb
    obtain ⟨z, hz⟩ := hplace hd
    obtain rfl : x = y := (h ha hb hx hy).relates hab
    rw [(h hd ha hz hx).eq_decide hr, (h hd hb hz hy).eq_decide hs]

/-- It is enough to know by what two values are compared, and that it orders them as their places. -/
theorem Coherent.comparedBy (hc : c.Coherent) (basis : ComparisonBasis)
    (hab : ∀ op, ComparisonRule.basis? op (ComparisonRule.operandType a.itemType)
      (ComparisonRule.operandType b.itemType) = some basis)
    (hba : ∀ op, ComparisonRule.basis? op (ComparisonRule.operandType b.itemType)
      (ComparisonRule.operandType a.itemType) = some basis)
    (horder : (∃ e, basis.order a b = .error e ∧ basis.order b a = .error e) ∨
      ∃ o : Ordering, basis.order a b = .ok (some o) ∧ o.Compares x y) :
    c.ComparedBy a b x y := by
  obtain ⟨e, he, he'⟩ | ⟨o, ho, hcompares⟩ := horder
  · refine .inl ⟨e, fun op => ⟨?_, ?_⟩⟩
    · rw [hc.compare_of_basis? (hab op), he]
      rfl
    · rw [hc.compare_of_basis? (hba op), he']
      rfl
  · refine .inr fun op => ?_
    rw [hc.compare_of_basis? (hab op), ho]
    exact congrArg Except.ok (op.holds_of_compares hcompares)

end

end OperatorCache

/-! ### Families and places -/

/-- The families of values that are compared to each other. -/
inductive ValueFamily where
  | text
  | boolean
  | number
  | dateTime
  | date
  | time
  | yearMonthDuration
  | dayTimeDuration
deriving DecidableEq

namespace Atomic

/-- The family of a value. Texts are those of any type, and numbers are integers and decimals. -/
def family? : Atomic → Option ValueFamily
  | text .. => some .text
  | boolean _ => some .boolean
  | integer .. => some .number
  | decimal _ => some .number
  | dateTime .. => some .dateTime
  | date .. => some .date
  | time .. => some .time
  | yearMonthDuration _ => some .yearMonthDuration
  | dayTimeDuration _ => some .dayTimeDuration
  | _ => none

/-- The code points of a text. -/
def codePoints? (v : Atomic) : Option (List Nat) := v.text?.map (·.toList.map Char.toNat)

/-- A truth value. -/
def truth? : Atomic → Option Bool
  | boolean b => some b
  | _ => none

open Calendar in
/-- The instant that a point in time stands for, in nanoseconds: a date is its midnight, a time is on the reference
day, and a local time without an offset is universal. -/
def instant? : Atomic → Option Int
  | dateTime t z => some (t.instant - offsetNanos z)
  | date d z => some ((⟨d, .midnight⟩ : DateTime).instant - offsetNanos z)
  | time t z => some ((⟨referenceDate, t⟩ : DateTime).instant - offsetNanos z)
  | _ => none

/-- The number of months of a year-month duration. -/
def months? : Atomic → Option Int
  | yearMonthDuration m => some m
  | _ => none

/-- The number of seconds of a day-time duration. -/
def seconds? : Atomic → Option ℚ
  | dayTimeDuration s => some s.value
  | _ => none

/-- A point in time is taken to the point of universal time with its instant, unless that is out of the calendar. -/
theorem universal_eq {v : Atomic} {x : Int} (h : v.instant? = some x) :
    v.universal = inCalendar (Calendar.DateTime.ofInstant? x) := by
  have hpoint : ∀ (t : Calendar.DateTime) (z : Option Calendar.Offset), (dateTime t z).universal =
      inCalendar (Calendar.DateTime.ofInstant? (t.instant - Calendar.offsetNanos z)) := by
    intro t z
    rw [← Calendar.DateTime.toUniversal?_eq]
    unfold universal
    cases hu : t.toUniversal? z <;> simp only [bind, Except.bind, hu, inCalendar]
  -- a date is taken like its midnight, and a time like that time on the reference date
  cases v with
  | dateTime | date | time =>
    obtain rfl := Option.some.inj h
    exact hpoint _ _
  | _ => cases h

end Atomic

/-! ### The order of each family -/

theorem compareTexts_compares (s t : String) : (compareTexts s t).Compares s t := by
  unfold compareTexts
  split_ifs with hless hgreater
  · exact hless
  · exact hgreater
  · exact le_antisymm (not_lt.mp hgreater) (not_lt.mp hless)

private theorem codePoints_strictMono : StrictMono fun s : String => s.toList.map Char.toNat := fun _ _ h =>
  List.map_lt (fun _ _ h => h) (String.lt_iff_toList_lt.mp h)

section

variable {a b : Atomic} {x y : Int}

theorem basis?_instants (hfamily : a.family? = b.family?) (ha : a.instant? = some x) (op : ComparisonOp) :
    ComparisonRule.basis? op (ComparisonRule.operandType a.itemType) (ComparisonRule.operandType b.itemType) =
      some .instants := by
  cases a with
  | dateTime | date | time =>
    cases b <;> cases hfamily
    rfl
  | _ => cases ha

theorem order_instants (ha : a.instant? = some x) (hb : b.instant? = some y) : ComparisonBasis.instants.order a b =
    Atomic.inCalendar (Calendar.DateTime.ofInstant? x) >>= fun u =>
      Atomic.inCalendar (Calendar.DateTime.ofInstant? y) >>= fun v =>
        pure (some (Ord.compare u.instant v.instant)) := by
  rw [← Atomic.universal_eq ha, ← Atomic.universal_eq hb]
  rfl

end

namespace OperatorCache.Coherent

variable {c : OperatorCache} (hc : c.Coherent) {a b : Atomic}

include hc

/-- Texts are compared by their code points. -/
theorem compare_codePoints {x y : List Nat} (ha : a.codePoints? = some x) (hb : b.codePoints? = some y)
    (op : ComparisonOp) : (c.compare op a b).1 = .ok (decide (op.Relates x y)) := by
  have hbasis : ∀ t u : TextType, ComparisonRule.basis? op (ComparisonRule.operandType t.itemType)
      (ComparisonRule.operandType u.itemType) = some .texts := by
    intro t u
    cases t <;> cases u <;> rfl
  cases a with
  | text t s =>
    cases b with
    | text u s' =>
      cases ha
      cases hb
      rw [hc.compare_of_basis? (hbasis t u)]
      exact congrArg Except.ok (op.holds_of_compares (codePoints_strictMono.compares.mpr (compareTexts_compares s s')))
    | _ => cases hb
  | _ => cases ha

theorem comparedBy_truth {x y : Bool} (ha : a.truth? = some x) (hb : b.truth? = some y) : c.ComparedBy a b x y := by
  cases a with
  | boolean x =>
    cases b with
    | boolean y =>
      cases ha
      cases hb
      refine hc.comparedBy .booleans (fun _ => rfl) (fun _ => rfl) (.inr ⟨compareBooleans x y, rfl, ?_⟩)
      cases x <;> cases y <;> first | exact Bool.false_lt_true | exact rfl
    | _ => cases hb
  | _ => cases ha

theorem comparedBy_rational {x y : ℚ} (ha : a.rational? = some x) (hb : b.rational? = some y) :
    c.ComparedBy a b x y := by
  by_cases hdecimal : a.integer? = none ∨ b.integer? = none
  · obtain ⟨p, hp, rfl⟩ | hp := Atomic.promoteDecimal_cases ha <;>
      obtain ⟨q, hq, rfl⟩ | hq := Atomic.promoteDecimal_cases hb
    case inl.inl => exact .inr fun op => hc.compare_decimals op ha hb hdecimal hp hq
    all_goals
      refine hc.comparedBy (.numbers .decimal) (basis?_decimals · ha hb hdecimal)
        (basis?_decimals · hb ha hdecimal.symm) (.inl ⟨.numericOverflow, ?_, ?_⟩) <;>
      · rw [ComparisonBasis.order, Operands.promote, hp, hq]
        rfl
  obtain ⟨hleft, hright⟩ := not_or.mp hdecimal
  obtain ⟨t, i, rfl, rfl⟩ := Atomic.eq_integer_of_rational ha hleft
  obtain ⟨u, j, rfl, rfl⟩ := Atomic.eq_integer_of_rational hb hright
  by_cases hfits : Calendar.fitsLong i = true ∧ Calendar.fitsLong j = true
  · exact .inr fun op => (hc.compare_integers op t u i j).trans (if_pos hfits)
  · exact .inl ⟨.numericOverflow, fun op => ⟨(hc.compare_integers op t u i j).trans (if_neg hfits),
      (hc.compare_integers op u t j i).trans (if_neg fun h => hfits h.symm)⟩⟩

/-- Points in time of one family are compared by their instants, if both are in the calendar. -/
theorem compare_instants {x y : Int} {u v : Calendar.DateTime} (hfamily : a.family? = b.family?)
    (ha : a.instant? = some x) (hb : b.instant? = some y) (hx : Calendar.DateTime.ofInstant? x = some u)
    (hy : Calendar.DateTime.ofInstant? y = some v) (op : ComparisonOp) :
    (c.compare op a b).1 = .ok (decide (op.Relates x y)) := by
  rw [hc.compare_of_basis? (basis?_instants hfamily ha op), order_instants ha hb, hx, hy,
    ← Calendar.DateTime.ofInstant?_eq_some_iff.mp hx, ← Calendar.DateTime.ofInstant?_eq_some_iff.mp hy]
  exact congrArg Except.ok (op.holds_of_compares ((compare_iff u.instant v.instant).mp rfl))

theorem comparedBy_instant {x y : Int} (hfamily : a.family? = b.family?) (ha : a.instant? = some x)
    (hb : b.instant? = some y) : c.ComparedBy a b x y := by
  cases hx : Calendar.DateTime.ofInstant? x with
  | some u =>
    cases hy : Calendar.DateTime.ofInstant? y with
    | some v => exact .inr (hc.compare_instants hfamily ha hb hx hy)
    | none =>
      refine hc.comparedBy .instants (basis?_instants hfamily ha) (basis?_instants hfamily.symm hb) (.inl ?_)
      rw [order_instants ha hb, order_instants hb ha, hx, hy]
      exact ⟨_, rfl, rfl⟩
  | none =>
    refine hc.comparedBy .instants (basis?_instants hfamily ha) (basis?_instants hfamily.symm hb) (.inl ?_)
    rw [order_instants ha hb, order_instants hb ha, hx]
    exact ⟨.dateTimeOutOfRange, rfl, by cases Calendar.DateTime.ofInstant? y <;> rfl⟩

theorem comparedBy_months {x y : Int} (ha : a.months? = some x) (hb : b.months? = some y) :
    c.ComparedBy a b x y := by
  cases a with
  | yearMonthDuration m =>
    cases b with
    | yearMonthDuration n =>
      cases ha
      cases hb
      exact hc.comparedBy (.durations .yearMonth) (fun _ => rfl) (fun _ => rfl)
        (.inr ⟨_, rfl, (compare_iff _ _).mp rfl⟩)
    | _ => cases hb
  | _ => cases ha

theorem comparedBy_seconds {x y : ℚ} (ha : a.seconds? = some x) (hb : b.seconds? = some y) :
    c.ComparedBy a b x y := by
  cases a with
  | dayTimeDuration s =>
    cases b with
    | dayTimeDuration t =>
      cases ha
      cases hb
      exact hc.comparedBy (.durations .dayTime) (fun _ => rfl) (fun _ => rfl)
        (.inr ⟨_, rfl, s.compare_compares t⟩)
    | _ => cases hb
  | _ => cases ha

end OperatorCache.Coherent

/-- **The comparisons of values are coherent.** On each family they are those of a total preorder, wherever they do
not fail. Texts are compared by code points, and points in time by their instants. -/
theorem comparisons_coherent {c : OperatorCache} (hc : c.Coherent) :
    (∀ family, c.TotalPreorder (·.family? = some family)) ∧
    (∀ {a b x y}, a.codePoints? = some x → b.codePoints? = some y → ∀ op : ComparisonOp,
      (c.compare op a b).1 = .ok (decide (op.Relates x y))) ∧
    ∀ {a b x y}, a.family? = b.family? → a.instant? = some x → b.instant? = some y → ∀ {op : ComparisonOp} {r},
      (c.compare op a b).1 = .ok r → r = decide (op.Relates x y) := by
  refine ⟨fun family => ?_, hc.compare_codePoints,
    fun hfamily ha hb _ _ hr => (hc.comparedBy_instant hfamily ha hb).eq_decide hr⟩
  cases family
  case' text => refine .of_places ?_ fun _ _ hx hy => .inr (hc.compare_codePoints hx hy)
  case' boolean => refine .of_places ?_ fun _ _ => hc.comparedBy_truth
  case' number => refine .of_places ?_ fun _ _ => hc.comparedBy_rational
  case' yearMonthDuration => refine .of_places ?_ fun _ _ => hc.comparedBy_months
  case' dayTimeDuration => refine .of_places ?_ fun _ _ => hc.comparedBy_seconds
  case' dateTime | date | time => refine .of_places ?_ fun ha hb => hc.comparedBy_instant (ha.trans hb.symm)
  -- every member of a family has a place
  all_goals
    intro v hv
    cases v <;> first | exact ⟨_, rfl⟩ | cases hv

/-- Noon one hour east of universal time is eleven in universal time, and both come before noon without an offset. -/
theorem comparisons_coherent_offsets :
    let day : Calendar.Date := ⟨2020, 1, 1, by decide, by decide, by decide⟩
    let noonEast : Atomic := .dateTime ⟨day, ⟨12 * 3600 * 10 ^ 9, by decide⟩⟩ (some ⟨3600⟩)
    let eleven : Atomic := .dateTime ⟨day, ⟨11 * 3600 * 10 ^ 9, by decide⟩⟩ (some ⟨0⟩)
    let noon : Atomic := .dateTime ⟨day, ⟨12 * 3600 * 10 ^ 9, by decide⟩⟩ none
    (OperatorCache.empty.compare .eq noonEast eleven).1 = .ok true ∧
    (OperatorCache.empty.compare .lt noonEast noon).1 = .ok true ∧
    (OperatorCache.empty.compare .gt noon noonEast).1 = .ok true ∧
    ∀ r, (OperatorCache.empty.compare .lt eleven noon).1 = .ok r → r = true := by
  intro day noonEast eleven noon
  have horder := (comparisons_coherent OperatorCache.Holds.empty.coherent).1 .dateTime
  have heq : (OperatorCache.empty.compare .eq noonEast eleven).1 = .ok true := by decide +kernel
  have hlt : (OperatorCache.empty.compare .lt noonEast noon).1 = .ok true := by decide +kernel
  exact ⟨heq, hlt, horder.swap rfl rfl hlt, fun r hr => (horder.congr_left rfl rfl rfl heq hlt hr).symm⟩

end LazyXPath
