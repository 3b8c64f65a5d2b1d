import LazyXPath.Proofs.Decimal.Remainder
import Mathlib.Order.Compare
import Mathlib.Order.Monotone.Basic

/-!
# Comparison of integers and decimals

A comparison asks whether two elements of a linear order are in a certain relation (`ComparisonOp.Relates`).
Numbers are compared after promotion. That of an integer to a decimal is exact, but two integers are both narrowed
to signed 64-bit numbers, although nothing is computed with them. So integers and decimals are compared by the
order of the rational numbers that they stand for, unless both are integers and one of them is no such number
(`compare_exact`).
-/

namespace LazyXPath

/-! ### Relations of a linear order -/

namespace ComparisonOp

section

variable {α : Type} [LinearOrder α] {x y : α}

/-- The relation that a comparison asks for. -/
def Relates : ComparisonOp → α → α → Prop
  | eq, x, y => x = y
  | ne, x, y => x ≠ y
  | lt, x, y => x < y
  | le, x, y => x ≤ y
  | gt, x, y => y < x
  | ge, x, y => y ≤ x

instance : (op : ComparisonOp) → (x y : α) → Decidable (op.Relates x y)
  | eq, x, y => inferInstanceAs (Decidable (x = y))
  | ne, x, y => inferInstanceAs (Decidable (x ≠ y))
  | lt, x, y => inferInstanceAs (Decidable (x < y))
  | le, x, y => inferInstanceAs (Decidable (x ≤ y))
  | gt, x, y => inferInstanceAs (Decidable (y < x))
  | ge, x, y => inferInstanceAs (Decidable (y ≤ x))

/-- A comparison holds of the order of two elements if they are in its relation. -/
theorem holds_of_compares (op : ComparisonOp) {o : Ordering} (h : o.Compares x y) :
    op.holds (some o) = decide (op.Relates x y) := by
  rw [Bool.eq_iff_iff, decide_eq_true_iff]
  cases op with
  | eq => simp [holds, Relates, h.eq_eq]
  | ne => simp [holds, Relates, h.eq_eq]
  | lt => simp [holds, Relates, h.eq_lt]
  | le => simp [holds, Relates, h.eq_lt, h.eq_eq, le_iff_lt_or_eq]
  | gt => simp [holds, Relates, h.eq_gt]
  | ge => simp [holds, Relates, h.eq_gt, h.eq_eq, le_iff_lt_or_eq, eq_comm (a := y)]

end

end ComparisonOp

/-- Integers are compared as rational numbers. -/
theorem compare_compares_cast (i j : Int) : (Ord.compare i j).Compares (i : ℚ) j :=
  Int.cast_strictMono.compares.mpr ((compare_iff i j).mp rfl)

/-- Decimals are compared by their values. -/
theorem Decimal.compare_compares (p q : Decimal) : (p.compare q).Compares p.value q.value := by
  have hpow : ∀ s : Nat, ((tenTo s : Int) : ℚ) = 10 ^ s := fun s => by simp [tenTo]
  have hpos : (0 : ℚ) < 10 ^ p.scale * 10 ^ q.scale := by positivity
  have hmono : StrictMono fun i : Int => (i : ℚ) / (10 ^ p.scale * 10 ^ q.scale) := fun i j hij =>
    div_lt_div_of_pos_right (Int.cast_lt.mpr hij) hpos
  have hvalues := hmono.compares.mpr ((compare_iff (p.coefficient * (tenTo q.scale : Int))
    (q.coefficient * (tenTo p.scale : Int))).mp rfl)
  rw [Int.cast_mul, Int.cast_mul, hpow, hpow, mul_comm ((10 : ℚ) ^ p.scale),
    mul_div_mul_right _ _ (by positivity), mul_comm ((10 : ℚ) ^ q.scale),
    mul_div_mul_right _ _ (by positivity)] at hvalues
  exact hvalues

theorem Decimal.sameValue_iff_value {p q : Decimal} : p.sameValue q = true ↔ p.value = q.value := by
  rw [sameValue, beq_iff_eq]
  exact (p.compare_compares q).eq_eq

/-- Only floating-point numbers may differ from themselves. -/
theorem Atomic.identical_self {v : Atomic} (hfloat : v.itemType ≠ .float) (hdouble : v.itemType ≠ .double) :
    v.identical v = true := by
  cases v with
  | float => exact absurd rfl hfloat
  | double => exact absurd rfl hdouble
  | decimal | dayTimeDuration => exact Decimal.sameValue_iff_value.mpr rfl
  | _ => simp [identical]

/-! ### Comparisons through the cache -/

section

variable {c : OperatorCache} {a b : Atomic} {basis : ComparisonBasis} {k l : NumericKind}

/-- What values are compared by is all that a comparison looks at. -/
theorem OperatorCache.Coherent.compare_of_basis? (hc : c.Coherent) {op : ComparisonOp}
    (h : ComparisonRule.basis? op (ComparisonRule.operandType a.itemType) (ComparisonRule.operandType b.itemType) =
      some basis) :
    (c.compare op a b).1 = (basis.order a b).map op.holds := by
  have hrule : ComparisonRule.resolve op a.itemType b.itemType = .ok ⟨op, basis⟩ := by
    rw [ComparisonRule.resolve, h]
  rw [hc.compare_eq, hrule]
  change basis.order a b >>= (fun o => pure (op.holds o)) = _
  cases basis.order a b <;> rfl

private theorem ofType?_comparisonType (h : a.numericKind? = some k) :
    NumericKind.ofType? (ComparisonRule.operandType a.itemType) = some k := by
  cases a with
  | integer t i => cases h; cases t <;> rfl
  | decimal => cases h; rfl
  | float => cases h; rfl
  | double => cases h; rfl
  | _ => cases h

/-- Numbers are compared in the higher of their kinds. -/
theorem basis?_numbers (op : ComparisonOp) (ha : a.numericKind? = some k) (hb : b.numericKind? = some l) :
    ComparisonRule.basis? op (ComparisonRule.operandType a.itemType) (ComparisonRule.operandType b.itemType) =
      some (.numbers (k.join l)) := by
  rw [ComparisonRule.basis?, ofType?_comparisonType ha, ofType?_comparisonType hb]

end

/-! ### Exact comparison -/

section

variable {c : OperatorCache} {a b : Atomic} {x y : ℚ} {p q : Decimal}

/-- A rational number is an integer or a decimal. -/
theorem Atomic.rational_cases (ha : a.rational? = some x) :
    (∃ t i, a = .integer t i ∧ x = i) ∨ a.numericKind? = some .decimal ∧ a.integer? = none := by
  cases a with
  | integer t i =>
    cases ha
    exact .inl ⟨t, i, rfl, rfl⟩
  | decimal d => exact .inr ⟨rfl, rfl⟩
  | _ => cases ha

theorem Atomic.eq_integer_of_rational (ha : a.rational? = some x) (hint : a.integer? ≠ none) :
    ∃ t i, a = .integer t i ∧ x = i := by
  obtain h | ⟨-, hnone⟩ := Atomic.rational_cases ha
  · exact h
  · exact absurd hnone hint

/-- Integers of all types are decimals. -/
theorem Atomic.exists_promoteDecimal (ha : a.rational? = some x)
    (hrange : ∀ i ∈ a.integer?, -2 ^ 63 ≤ i ∧ i < 2 ^ 64) : ∃ p, a.promoteDecimal = .ok p ∧ p.value = x := by
  cases a with
  | integer t i =>
    cases ha
    have hi := hrange i rfl
    obtain ⟨p, hp, -⟩ := Decimal.mk?_eq (c := i) (s := 0) (by rw [Decimal.limit_eq]; omega) (Nat.zero_le _)
    refine ⟨p, ?_, Decimal.value_ofInt? hp⟩
    unfold promoteDecimal
    dsimp only
    rw [Decimal.ofInt?, hp]
  | decimal d =>
    cases ha
    exact ⟨d, rfl, rfl⟩
  | _ => cases ha

theorem Atomic.promoteDecimal_cases (ha : a.rational? = some x) :
    (∃ p, a.promoteDecimal = .ok p ∧ p.value = x) ∨ a.promoteDecimal = .error .numericOverflow := by
  cases a with
  | integer t i =>
    cases ha
    unfold promoteDecimal
    dsimp only
    cases hi : Decimal.ofInt? i with
    | some p => exact .inl ⟨p, rfl, Decimal.value_ofInt? hi⟩
    | none => exact .inr rfl
  | decimal d =>
    cases ha
    exact .inl ⟨d, rfl, rfl⟩
  | _ => cases ha

/-- Of two rational numbers that are not both integers, both are taken as decimals. -/
theorem basis?_decimals (op : ComparisonOp) (ha : a.rational? = some x) (hb : b.rational? = some y)
    (hdecimal : a.integer? = none ∨ b.integer? = none) :
    ComparisonRule.basis? op (ComparisonRule.operandType a.itemType) (ComparisonRule.operandType b.itemType) =
      some (.numbers .decimal) := by
  obtain ⟨t, i, rfl, -⟩ | ⟨hak, -⟩ := Atomic.rational_cases ha <;>
    obtain ⟨u, j, rfl, -⟩ | ⟨hbk, -⟩ := Atomic.rational_cases hb
  · obtain h | h := hdecimal <;> cases h
  · exact basis?_numbers (k := .integer) op rfl hbk
  · exact basis?_numbers (l := .integer) op hak rfl
  · exact basis?_numbers op hak hbk

private theorem order_decimals (ha : a.promoteDecimal = .ok p) (hb : b.promoteDecimal = .ok q) :
    (ComparisonBasis.numbers .decimal).order a b = .ok (some (p.compare q)) := by
  rw [ComparisonBasis.order, Operands.promote, ha, hb]
  rfl

namespace OperatorCache.Coherent

variable (hc : c.Coherent) (op : ComparisonOp)

include hc

/-- Two integers are compared if both are signed 64-bit numbers. -/
theorem compare_integers (t u : IntegerType) (i j : Int) : (c.compare op (.integer t i) (.integer u j)).1 =
    if Calendar.fitsLong i ∧ Calendar.fitsLong j then .ok (decide (op.Relates (i : ℚ) j))
    else .error .numericOverflow := by
  rw [hc.compare_of_basis? (basis?_numbers (k := .integer) (l := .integer) op rfl rfl)]
  change ((ComparisonBasis.numbers .integer).order _ _).map _ = _
  rw [ComparisonBasis.order, promote_integers]
  split_ifs
  · exact congrArg Except.ok (op.holds_of_compares (compare_compares_cast i j))
  · rfl

/-- An operand that is no integer makes the other one a decimal. -/
theorem compare_decimals (ha : a.rational? = some x) (hb : b.rational? = some y)
    (hdecimal : a.integer? = none ∨ b.integer? = none) (hp : a.promoteDecimal = .ok p) (hq : b.promoteDecimal = .ok q) :
    (c.compare op a b).1 = .ok (decide (op.Relates p.value q.value)) := by
  rw [hc.compare_of_basis? (basis?_decimals op ha hb hdecimal), order_decimals hp hq]
  exact congrArg Except.ok (op.holds_of_compares (p.compare_compares q))

end OperatorCache.Coherent

end

/-- **Integers and decimals are compared by value**, whatever their types, as long as not both are integers of
which one is no signed 64-bit number. That is an overflow, although the same integer is compared to every
decimal. -/
theorem compare_exact {c : OperatorCache} (hc : c.Coherent) (op : ComparisonOp) {a b : Atomic} {x y : ℚ}
    (ha : a.rational? = some x) (hb : b.rational? = some y)
    (harange : ∀ i ∈ a.integer?, -2 ^ 63 ≤ i ∧ i < 2 ^ 64) (hbrange : ∀ j ∈ b.integer?, -2 ^ 63 ≤ j ∧ j < 2 ^ 64) :
    let result := (c.compare op a b).1
    let narrowed := ∃ i ∈ a.integer?, ∃ j ∈ b.integer?, 2 ^ 63 ≤ i ∨ 2 ^ 63 ≤ j
    (¬ narrowed → result = .ok (decide (op.Relates x y))) ∧ (narrowed → FailsWith .FOAR0002 result) := by
  intro result narrowed
  by_cases hdecimal : a.integer? = none ∨ b.integer? = none
  · obtain ⟨p, hp, rfl⟩ := Atomic.exists_promoteDecimal ha harange
    obtain ⟨q, hq, rfl⟩ := Atomic.exists_promoteDecimal hb hbrange
    refine ⟨fun _ => hc.compare_decimals op ha hb hdecimal hp hq, ?_⟩
    rintro ⟨i, hi, j, hj, -⟩
    obtain h | h := hdecimal
    · rw [h] at hi
      cases hi
    · rw [h] at hj
      cases hj
  obtain ⟨hleft, hright⟩ := not_or.mp hdecimal
  obtain ⟨t, i, rfl, rfl⟩ := Atomic.eq_integer_of_rational ha hleft
  obtain ⟨u, j, rfl, rfl⟩ := Atomic.eq_integer_of_rational hb hright
  have hi := harange i rfl
  have hj := hbrange j rfl
  have hresult : result = _ := hc.compare_integers op t u i j
  rw [hresult]
  constructor
  · intro hfits
    have hboth : i < 2 ^ 63 ∧ j < 2 ^ 63 := by
      have hnot : ¬ (2 ^ 63 ≤ i ∨ 2 ^ 63 ≤ j) := fun h => hfits ⟨i, rfl, j, rfl, h⟩
      omega
    exact if_pos ⟨fitsLong_iff.mpr ⟨hi.1, hboth.1⟩, fitsLong_iff.mpr ⟨hj.1, hboth.2⟩⟩
  · rintro ⟨_, ⟨⟩, _, ⟨⟩, hout⟩
    rw [if_neg fun h => ?_]
    · exact failsWith_overflow
    · have := fitsLong_iff.mp h.1
      have := fitsLong_iff.mp h.2
      omega

/-- The greatest `xs:unsignedLong` is greater than `0.5`. -/
theorem compare_exact_unsignedLong :
    let half : Decimal := ⟨5, 1, by decide, by decide, false, nofun⟩
    (OperatorCache.empty.compare .gt (.integer .unsignedLong (2 ^ 64 - 1)) (.decimal half)).1 = .ok true := by
  intro half
  have hless : (5 : Int) / (10 : ℚ) ^ 1 < ((2 ^ 64 - 1 : Int) : ℚ) := by norm_num
  have hresult := (compare_exact OperatorCache.Holds.empty.coherent .gt (a := .integer .unsignedLong (2 ^ 64 - 1))
    (b := .decimal half) rfl rfl (by rintro _ ⟨⟩; decide) nofun).1 (by rintro ⟨i, -, j, ⟨⟩, -⟩)
  exact hresult.trans (congrArg Except.ok (decide_eq_true hless))

/-- An `xs:unsignedLong` is not compared to itself if it is no signed 64-bit number, but it is to the decimal of the
same value. -/
theorem compare_exact_narrowed :
    let limit : Decimal := ⟨2 ^ 63, 0, by decide, by decide, false, nofun⟩
    IntegerType.unsignedLong.holds (2 ^ 63) = true ∧ ComparisonOp.eq.Relates ((2 ^ 63 : Int) : ℚ) (2 ^ 63 : Int) ∧
    FailsWith .FOAR0002
      (OperatorCache.empty.compare .eq (.integer .unsignedLong (2 ^ 63)) (.integer .unsignedLong (2 ^ 63))).1 ∧
    (OperatorCache.empty.compare .eq (.integer .unsignedLong (2 ^ 63)) (.decimal limit)).1 = .ok true := by
  intro limit
  exact ⟨by decide, rfl, failsWith_overflow, by decide +kernel⟩

end LazyXPath
