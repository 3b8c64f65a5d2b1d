import LazyXPath.Proofs.OperatorCache
import Mathlib.Algebra.Group.Int.Defs

/-!
# Integer arithmetic

Integers are combined as signed 64-bit numbers. An operand that is no such number is refused before
anything is computed (`Atomic.promoteInteger`), although the result might be one. For operands in range the
arithmetic is exact: the operator gives the mathematical result, or an overflow if that is out of range
(`arithmetic_integer`).
-/

namespace LazyXPath

/-! ### Numbers through the cache -/

/-- An attempt that fails with the given code. -/
def FailsWith {α : Type} (c : ErrorCode) (x : Except Error α) : Prop := ∃ e, x = .error e ∧ e.code = c.name

theorem failsWith_overflow {α : Type} : FailsWith .FOAR0002 (.error .numericOverflow : Except Error α) :=
  ⟨_, rfl, rfl⟩

private theorem failsWith_divisionByZero {α : Type} :
    FailsWith .FOAR0001 (.error .divisionByZero : Except Error α) :=
  ⟨_, rfl, rfl⟩

section

variable {a b : Atomic} {k l : NumericKind}

private theorem Atomic.typed_of_numericKind? (h : a.numericKind? = some k) : a.typed = .ok a := by
  cases a <;> first | rfl | cases h

private theorem operandType_of_numericKind? (h : a.numericKind? = some k) :
    ArithmeticRule.operandType a.itemType = a.itemType := by
  refine if_neg fun ht => ?_
  rw [← Atomic.ofType?_itemType, ht] at h
  cases h

private theorem resolve_of_numericKind? (op : ArithmeticOp) (ha : a.numericKind? = some k)
    (hb : b.numericKind? = some l) :
    ArithmeticRule.resolve op a.itemType b.itemType = .ok (.ofKinds op k l) := by
  unfold ArithmeticRule.resolve
  dsimp only
  rw [operandType_of_numericKind? ha, operandType_of_numericKind? hb, Atomic.ofType?_itemType, ha,
    Atomic.ofType?_itemType, hb]

/-- Operators other than `div` combine two numbers in the higher of their kinds. -/
theorem OperatorCache.Coherent.arithmetic_numbers {c : OperatorCache} (h : c.Coherent) {op : ArithmeticOp}
    (hop : op ≠ .div) (ha : a.numericKind? = some k) (hb : b.numericKind? = some l) :
    (c.arithmetic op a b).1 = Operands.promote (k.join l) a b >>= op.onOperands := by
  have hrule : ArithmeticRule.ofKinds op k l = .numeric op (k.join l) :=
    congrArg _ (if_neg fun hk => hop hk.1)
  rw [h.arithmetic_eq, resolve_of_numericKind? op ha hb, hrule]
  change (ArithmeticRule.numeric op (k.join l)).apply a b = _
  rw [ArithmeticRule.apply, Atomic.typed_of_numericKind? ha, Atomic.typed_of_numericKind? hb]
  rfl

end

/-! ### Exact results -/

/-- The exact result of an operator on integers, where quotients are truncated toward zero. There is none
for a zero divisor; and `div` leaves the integers. -/
def ArithmeticOp.exactResult? (op : ArithmeticOp) (i j : Int) : Option Int :=
  match op with
  | add => some (i + j)
  | sub => some (i - j)
  | mul => some (i * j)
  | idiv => if j = 0 then none else some (i.tdiv j)
  | mod => if j = 0 then none else some (i.tmod j)
  | div => none

theorem fitsLong_iff {i : Int} : Calendar.fitsLong i = true ↔ -2 ^ 63 ≤ i ∧ i < 2 ^ 63 := by
  simp [Calendar.fitsLong]

private theorem checkedLong_of_fits {i : Int} (h : Calendar.fitsLong i = true) : checkedLong i = .ok i := if_pos h

section

variable {i j r : Int}

/-- Only the least integer divided by `-1` has a quotient out of range. -/
theorem fitsLong_tdiv (hi : Calendar.fitsLong i = true) (hj : j ≠ 0) (h : ¬ (i = -2 ^ 63 ∧ j = -1)) :
    Calendar.fitsLong (i.tdiv j) = true := by
  rw [fitsLong_iff] at hi ⊢
  obtain rfl | rfl | hlarge : j = 1 ∨ j = -1 ∨ 2 ≤ j.natAbs := by omega
  · rwa [Int.tdiv_one]
  · rw [Int.tdiv_neg, Int.tdiv_one]
    omega
  · have hhalf : (i.tdiv j).natAbs ≤ i.natAbs / 2 := by
      rw [Int.natAbs_tdiv]
      exact Nat.div_le_div_left hlarge (by decide)
    omega

private theorem fitsLong_tmod (hi : Calendar.fitsLong i = true) : Calendar.fitsLong (i.tmod j) = true := by
  rw [fitsLong_iff] at hi ⊢
  have habs : (i.tmod j).natAbs ≤ i.natAbs := by
    rw [Int.natAbs_tmod]
    exact Nat.mod_le _ _
  have hsign : i ≤ 0 → i.tmod j ≤ 0 := fun h => by
    have hneg : 0 ≤ (-i).tmod j := Int.tmod_nonneg j (by omega)
    rw [Int.neg_tmod] at hneg
    omega
  omega

/-- Both operands have to be in range. -/
theorem promote_integers (t u : IntegerType) (i j : Int) :
    Operands.promote .integer (.integer t i) (.integer u j) =
      if Calendar.fitsLong i ∧ Calendar.fitsLong j then .ok (.integers i j) else .error .numericOverflow := by
  unfold Operands.promote Atomic.promoteInteger
  by_cases hi : Calendar.fitsLong i = true <;> by_cases hj : Calendar.fitsLong j = true <;> simp [hi, hj] <;> rfl

/-- On integers in range, an operator gives its exact result if that is in range. -/
theorem ArithmeticOp.onIntegers_of_exactResult? {op : ArithmeticOp} (hi : Calendar.fitsLong i = true)
    (hleast : ¬ (op = .mod ∧ i = -2 ^ 63 ∧ j = -1)) (h : op.exactResult? i j = some r) :
    op.onIntegers i j = if Calendar.fitsLong r then .ok (.ofInt r) else .error .numericOverflow := by
  have checked : ∀ r : Int, (checkedLong r >>= fun n => pure (Atomic.ofInt n)) =
      if Calendar.fitsLong r then .ok (.ofInt r) else .error .numericOverflow := fun r => by
    unfold checkedLong
    split <;> rfl
  cases op with
  | add | sub | mul =>
    cases h
    exact checked _
  | idiv =>
    obtain ⟨hj, rfl⟩ : j ≠ 0 ∧ i.tdiv j = r := by simpa [exactResult?] using h
    exact (if_neg hj).trans (checked _)
  | mod =>
    obtain ⟨hj, rfl⟩ : j ≠ 0 ∧ i.tmod j = r := by simpa [exactResult?] using h
    -- the quotient is in range, and the remainder always is
    have hq := checkedLong_of_fits (fitsLong_tdiv hi hj fun hm => hleast ⟨rfl, hm⟩)
    rw [onIntegers, if_neg hj, hq, if_pos (fitsLong_tmod hi)]
    rfl
  | div => cases h

private theorem ArithmeticOp.onIntegers_of_exactResult?_eq_none {op : ArithmeticOp} (hop : op ≠ .div)
    (h : op.exactResult? i j = none) : op.onIntegers i j = .error .divisionByZero := by
  cases op with
  | add | sub | mul => cases h
  | idiv | mod =>
    have hj : j = 0 := by simpa [exactResult?] using h
    exact if_pos hj
  | div => exact absurd rfl hop

end

/-- **Integer arithmetic is exact on 64-bit operands.** An operand that is no signed 64-bit number is an
overflow, whatever the operator and the other operand. Otherwise a zero divisor is a division by zero, and
every other result is the exact one, of type `xs:integer`, or an overflow if that is no signed 64-bit
number. Nothing is said of the remainder of the least integer by `-1`. -/
theorem arithmetic_integer {c : OperatorCache} (hc : c.Coherent) {op : ArithmeticOp} (hop : op ≠ .div)
    (t u : IntegerType) (i j : Int) (hleast : ¬ (op = .mod ∧ i = -2 ^ 63 ∧ j = -1)) :
    let result := (c.arithmetic op (.integer t i) (.integer u j)).1
    let inRange := fun n : Int => -2 ^ 63 ≤ n ∧ n < 2 ^ 63
    (¬ (inRange i ∧ inRange j) → FailsWith .FOAR0002 result) ∧
    (inRange i → inRange j →
      ((op = .idiv ∨ op = .mod) ∧ j = 0 → FailsWith .FOAR0001 result) ∧
      (¬ ((op = .idiv ∨ op = .mod) ∧ j = 0) → ∃ r, op.exactResult? i j = some r ∧
        (inRange r → result = .ok (.integer .integer r)) ∧
        (¬ inRange r → FailsWith .FOAR0002 result))) := by
  intro result inRange
  have hresult : result = Operands.promote .integer (.integer t i) (.integer u j) >>= op.onOperands :=
    hc.arithmetic_numbers (k := .integer) (l := .integer) hop rfl rfl
  have fits_iff : ∀ n, inRange n ↔ Calendar.fitsLong n = true := fun n => fitsLong_iff.symm
  simp only [fits_iff]
  rw [promote_integers] at hresult
  refine ⟨fun hout => ?_, fun hi hj => ?_⟩
  · rw [hresult, if_neg hout]
    exact failsWith_overflow
  · replace hresult : result = op.onIntegers i j := by
      rw [hresult, if_pos ⟨hi, hj⟩]
      rfl
    refine ⟨fun hzero => ?_, fun hzero => ?_⟩
    · have hnone : op.exactResult? i j = none := by
        obtain ⟨rfl | rfl, rfl⟩ := hzero <;> rfl
      rw [hresult, ArithmeticOp.onIntegers_of_exactResult?_eq_none hop hnone]
      exact failsWith_divisionByZero
    · obtain ⟨r, hr⟩ : ∃ r, op.exactResult? i j = some r := by
        cases op with
        | add | sub | mul => exact ⟨_, rfl⟩
        | idiv | mod => exact ⟨_, if_neg fun hj => hzero ⟨by simp, hj⟩⟩
        | div => exact absurd rfl hop
      rw [hresult, ArithmeticOp.onIntegers_of_exactResult? hi hleast hr]
      refine ⟨r, hr, fun hfits => if_pos hfits, fun hout => ?_⟩
      rw [if_neg hout]
      exact failsWith_overflow

/-- The product of two 64-bit numbers that is out of range by one, and the one next to it that is not. -/
theorem arithmetic_integer_boundary :
    FailsWith .FOAR0002 (OperatorCache.empty.arithmetic .mul (.integer .long (2 ^ 32)) (.integer .int (2 ^ 31))).1 ∧
    (OperatorCache.empty.arithmetic .mul (.integer .long (2 ^ 32)) (.integer .int (-2 ^ 31))).1 =
      .ok (.integer .integer (-2 ^ 63)) := by
  have hc : OperatorCache.empty.Coherent := OperatorCache.Holds.empty.coherent
  have hmul : ArithmeticOp.mul ≠ .div := by decide
  have hup := arithmetic_integer hc hmul .long .int (2 ^ 32) (2 ^ 31) (by decide)
  have hdown := arithmetic_integer hc hmul .long .int (2 ^ 32) (-2 ^ 31) (by decide)
  obtain ⟨r, hr, -, hover⟩ := (hup.2 (by decide) (by decide)).2 (by decide)
  obtain ⟨s, hs, hfit, -⟩ := (hdown.2 (by decide) (by decide)).2 (by decide)
  cases hr
  cases hs
  exact ⟨hover (by decide), hfit (by decide)⟩

/-- The difference of an `xs:unsignedLong` and itself is zero, which is in range, but it is refused if the
operand is not. -/
theorem arithmetic_integer_refused :
    IntegerType.unsignedLong.holds (2 ^ 63) = true ∧ ArithmeticOp.sub.exactResult? (2 ^ 63) (2 ^ 63) = some 0 ∧
      FailsWith .FOAR0002 (OperatorCache.empty.arithmetic .sub
        (.integer .unsignedLong (2 ^ 63)) (.integer .unsignedLong (2 ^ 63))).1 := by
  refine ⟨by decide, by decide, ?_⟩
  rw [OperatorCache.Holds.empty.coherent.arithmetic_numbers (k := .integer) (l := .integer) (by decide) rfl rfl]
  exact failsWith_overflow

end LazyXPath
