import LazyXPath.Decimal.Remainder
import LazyXPath.Proofs.Decimal.Quotient
import LazyXPath.Proofs.IntegerArithmetic
import Mathlib.Algebra.Order.Field.Basic
import Mathlib.Algebra.Order.Ring.Rat
import Mathlib.Data.Sign.Basic
import Mathlib.Tactic.FieldSimp

/-!
# Quotient and remainder of decimals

The integer quotient of decimals is the integer part of a rounded quotient, while their remainder is taken
exactly, as far as the division of words is exact. So `a = (a idiv b) * b + (a mod b)` depends on the
rounding: it holds if and only if the quotient was not carried to the next integer (`idiv_mod_decimal`).
-/

namespace LazyXPath

namespace Decimal

/-- The rational number that a decimal stands for. -/
def value (d : Decimal) : ℚ := d.coefficient / 10 ^ d.scale

theorem value_eq_zero_iff {a : Decimal} : a.value = 0 ↔ a.coefficient = 0 := by
  simp [value]

private theorem abs_cast_sign {i : Int} (hi : i ≠ 0) : |(i.sign : ℚ)| = 1 := by
  rw [← Int.cast_abs, Int.abs_sign_of_ne_zero hi, Int.cast_one]

private theorem cast_sign_mul_self {i : Int} (hi : i ≠ 0) : (i.sign : ℚ) * i.sign = 1 := by
  rw [← abs_mul_abs_self, abs_cast_sign hi, one_mul]

/-- A value at a larger scale. -/
theorem value_scaled (a : Decimal) (k : Nat) :
    a.value = a.coefficient.sign * ((a.coefficient.natAbs * 10 ^ k : Nat) : ℚ) / 10 ^ (a.scale + k) := by
  have hself : (a.coefficient : ℚ) = a.coefficient.sign * a.coefficient.natAbs := by
    rw [← Int.cast_natCast, ← Int.cast_mul, Int.sign_mul_natAbs]
  rw [value, hself, pow_add]
  push_cast
  field_simp

section

variable (a b : Decimal)

private theorem value_left : a.value = a.coefficient.sign * (a.alignedLeft b : ℚ) / 10 ^ max a.scale b.scale := by
  have hmax : max a.scale b.scale = a.scale + (b.scale - a.scale) := by omega
  rw [alignedLeft_eq, hmax, ← value_scaled]

private theorem value_right : b.value = b.coefficient.sign * (a.alignedRight b : ℚ) / 10 ^ max a.scale b.scale := by
  have hmax : max a.scale b.scale = b.scale + (a.scale - b.scale) := by omega
  rw [alignedRight_eq, hmax, ← value_scaled]

/-- Sizes are compared at the common scale. -/
theorem compare_abs : (a.abs.sameValue b.abs = true ↔ a.alignedLeft b = a.alignedRight b) ∧
    ((a.abs.compare b.abs == .lt) = true ↔ a.alignedLeft b < a.alignedRight b) := by
  have hpos : 0 < 10 ^ min a.scale b.scale := by positivity
  have hleft : a.coefficient.natAbs * tenTo b.scale = a.alignedLeft b * 10 ^ min a.scale b.scale := by
    have hexp : b.scale - a.scale + min a.scale b.scale = b.scale := by omega
    rw [alignedLeft_eq, Nat.mul_assoc, ← pow_add, hexp]
    rfl
  have hright : b.coefficient.natAbs * tenTo a.scale = a.alignedRight b * 10 ^ min a.scale b.scale := by
    have hexp : a.scale - b.scale + min a.scale b.scale = a.scale := by omega
    rw [alignedRight_eq, Nat.mul_assoc, ← pow_add, hexp]
    rfl
  have hcompare : a.abs.compare b.abs = Ord.compare ((a.alignedLeft b * 10 ^ min a.scale b.scale : Nat) : Int)
      ((a.alignedRight b * 10 ^ min a.scale b.scale : Nat) : Int) := by
    rw [← hleft, ← hright, Int.natCast_mul, Int.natCast_mul]
    rfl
  constructor
  · rw [sameValue, hcompare, beq_iff_eq, Int.compare_eq_eq, Int.natCast_inj, Nat.mul_left_inj hpos.ne']
  · rw [hcompare, beq_iff_eq, Int.compare_eq_lt, Int.ofNat_lt, Nat.mul_lt_mul_right hpos]

end

/-- The law over a common denominator: `A` and `B` are sizes, `e` and `f` signs, and `k` is the quotient. -/
theorem law_iff {A B k : Nat} {e f : ℚ} {P : ℚ} (hP : P ≠ 0) (he : e ≠ 0) (hf : f * f = 1) (hB : 0 < B) :
    e * A / P = e * f * k * (f * B / P) + e * (A % B : Nat) / P ↔ k = A / B := by
  have hterm : e * f * k * (f * B / P) + e * (A % B : Nat) / P = e * (k * B + (A % B : Nat)) / P := by
    calc e * f * k * (f * B / P) + e * (A % B : Nat) / P
        = e * ((f * f) * k * B + (A % B : Nat)) / P := by ring
      _ = e * (k * B + (A % B : Nat)) / P := by rw [hf, one_mul]
  rw [hterm, div_left_inj' hP, mul_right_inj' he]
  have hcast : (A : ℚ) = k * B + (A % B : Nat) ↔ A = k * B + A % B := by exact_mod_cast Iff.rfl
  rw [hcast]
  have hdiv := Nat.div_add_mod' A B
  constructor
  · intro hA
    refine Nat.eq_of_mul_eq_mul_right hB ?_
    omega
  · rintro rfl
    exact hdiv.symm

section

variable {a b q r : Decimal} (hb : b.coefficient ≠ 0)
  (hexact : wordRemainder (a.alignedLeft b) (a.alignedRight b) = a.alignedLeft b % a.alignedRight b)
  (hr : a.rem? b = some r)

include hb hexact hr

/-- The remainder is the exact one if the division of the words is. -/
theorem value_rem? : r.value = a.coefficient.sign *
    ((a.alignedLeft b % a.alignedRight b : Nat) : ℚ) / 10 ^ max a.scale b.scale := by
  have hbzero : b.isZero = false := by simpa [isZero] using hb
  obtain ⟨hsame, hless⟩ := compare_abs a b
  simp only [rem?, hbzero, Bool.false_eq_true, if_false] at hr
  split_ifs at hr with hzero hlt
  · obtain rfl := Option.some.inj hr
    have hmod : a.alignedLeft b % a.alignedRight b = 0 := by
      rw [Bool.or_eq_true, hsame] at hzero
      obtain hazero | heq := hzero
      · have ha : a.coefficient = 0 := by simpa [isZero] using hazero
        rw [alignedLeft_eq, ha, Int.natAbs_zero, Nat.zero_mul, Nat.zero_mod]
      · rw [heq, Nat.mod_self]
    rw [hmod]
    simp [value, zero]
  · obtain rfl := Option.some.inj hr
    rw [Nat.mod_eq_of_lt (hless.mp hlt), ← value_left]
  · change mk? (a.coefficient.sign * (wordRemainder (a.alignedLeft b) (a.alignedRight b) : Nat)) _ = _ at hr
    rw [hexact] at hr
    unfold mk? at hr
    split at hr
    case isTrue =>
      obtain rfl := Option.some.inj hr
      rw [value, Int.cast_mul, Int.cast_natCast]
    case isFalse => cases hr

private theorem abs_value_rem?_lt : |r.value| < |b.value| := by
  have hP : (0 : ℚ) < 10 ^ max a.scale b.scale := by positivity
  have hmod : ((a.alignedLeft b % a.alignedRight b : Nat) : ℚ) < a.alignedRight b :=
    Nat.cast_lt.mpr (Nat.mod_lt _ (alignedRight_pos hb))
  have hsign : |(b.coefficient.sign : ℚ)| = 1 := abs_cast_sign hb
  have hsign' : |(a.coefficient.sign : ℚ)| ≤ 1 := by
    by_cases ha : a.coefficient = 0
    · simp [ha]
    · exact (abs_cast_sign ha).le
  rw [value_rem? hb hexact hr, value_right a b, abs_div, abs_div, abs_mul, abs_mul, hsign, one_mul, Nat.abs_cast,
    Nat.abs_cast]
  refine div_lt_div_of_pos_right (lt_of_le_of_lt ?_ hmod) (abs_pos.mpr hP.ne')
  exact mul_le_of_le_one_left (Nat.cast_nonneg _) hsign'

private theorem sign_value_rem? : r.value = 0 ∨ SignType.sign r.value = SignType.sign a.value := by
  have hP : (0 : ℚ) < 10 ^ max a.scale b.scale := by positivity
  rw [value_rem? hb hexact hr, value_left a b]
  obtain hzero | hpos := Nat.eq_zero_or_pos (a.alignedLeft b % a.alignedRight b)
  · left
    simp [hzero]
  right
  have hmod : (0 : ℚ) < (a.alignedLeft b % a.alignedRight b : Nat) := Nat.cast_pos.mpr hpos
  have hleft : (0 : ℚ) < a.alignedLeft b := Nat.cast_pos.mpr (hpos.trans_le (Nat.mod_le _ _))
  rw [mul_div_assoc, mul_div_assoc, sign_mul, sign_mul, sign_pos (div_pos hmod hP), sign_pos (div_pos hleft hP)]

/-- The dividend is made up of quotient and remainder exactly if rounding keeps the integer part. -/
theorem value_eq_mul_add_iff (hq : a.div? b = some q) : a.value = q.toInt * b.value + r.value ↔
    KeepsWhole (a.alignedLeft b) (a.alignedRight b) := by
  obtain ⟨k, hk, hkeeps⟩ := toInt_div? hb hq
  have hB := alignedRight_pos (a := a) hb
  have hP : (10 : ℚ) ^ max a.scale b.scale ≠ 0 := by positivity
  rw [value_rem? hb hexact hr, value_left a b, value_right a b, hk]
  push_cast
  by_cases ha : a.coefficient = 0
  · -- of a zero nothing is lost
    have hleft : a.alignedLeft b = 0 := by rw [alignedLeft_eq, ha, Int.natAbs_zero, Nat.zero_mul]
    have hkeep : KeepsWhole (a.alignedLeft b) (a.alignedRight b) := keepsWhole_of_lt hB (by rw [hleft]; decide)
    simp [ha, hkeep]
  · rw [hkeeps, ← law_iff hP (e := a.coefficient.sign) (f := b.coefficient.sign) ?_ ?_ hB]
    · exact_mod_cast mt Int.sign_eq_zero_iff_zero.mp ha
    · exact cast_sign_mul_self hb

end

end Decimal

/-! ### The law -/

/-- The rational number that an integer or a decimal is. -/
def Atomic.rational? : Atomic → Option ℚ
  | integer _ i => some i
  | decimal d => some d.value
  | _ => none

section

variable {a b : Atomic} {x y : Decimal}

theorem Decimal.value_ofInt? {i : Int} (h : Decimal.ofInt? i = some x) : x.value = i := by
  unfold Decimal.ofInt? Decimal.mk? at h
  split at h
  case isTrue =>
    cases h
    simp [Decimal.value]
  case isFalse => cases h

/-- Promotion keeps the value, and it is for integers and decimals only. -/
theorem rational?_of_promoteDecimal (h : a.promoteDecimal = .ok x) :
    a.rational? = some x.value ∧ (a.numericKind? = some .integer ∨ a.numericKind? = some .decimal) := by
  cases a with
  | decimal d =>
    cases h
    exact ⟨rfl, .inr rfl⟩
  | integer t i =>
    unfold Atomic.promoteDecimal at h
    dsimp only at h
    split at h
    case h_1 d hd =>
      cases h
      exact ⟨congrArg some (Decimal.value_ofInt? hd).symm, .inl rfl⟩
    case h_2 => cases h
  | _ => cases h

/-- An operator on an integer and a decimal, or on two decimals, works on decimals. -/
theorem arithmetic_decimals {c : OperatorCache} (hc : c.Coherent) {op : ArithmeticOp} (hop : op ≠ .div)
    (ha : a.promoteDecimal = .ok x) (hb : b.promoteDecimal = .ok y)
    (hdecimal : a.itemType = .decimal ∨ b.itemType = .decimal) :
    (c.arithmetic op a b).1 = op.onDecimals x y := by
  obtain ⟨k, hk, l, hl, hjoin⟩ : ∃ k, a.numericKind? = some k ∧ ∃ l, b.numericKind? = some l ∧
      k.join l = .decimal := by
    have hkind : ∀ {v : Atomic}, v.itemType = .decimal → v.numericKind? = some .decimal := fun {v} h => by
      rw [← Atomic.ofType?_itemType, h]
      rfl
    obtain ⟨-, hak | hak⟩ := rational?_of_promoteDecimal ha <;>
      obtain ⟨-, hbk | hbk⟩ := rational?_of_promoteDecimal hb
    · obtain h | h := hdecimal
      · rw [hkind h] at hak
        cases hak
      · rw [hkind h] at hbk
        cases hbk
    all_goals exact ⟨_, hak, _, hbk, rfl⟩
  rw [hc.arithmetic_numbers hop hk hl, hjoin, Operands.promote, ha, hb]
  rfl

private theorem onDecimals_idiv (hy : y.coefficient ≠ 0) :
    ArithmeticOp.idiv.onDecimals x y =
      orOverflow (x.div? y) >>= fun d => checkedLong d.toInt >>= fun k => .ok (.integer .integer k) := by
  have hzero : y.isZero = false := by simpa [Decimal.isZero] using hy
  simp only [ArithmeticOp.onDecimals, hzero, Bool.false_eq_true, if_false]
  rfl

private theorem onDecimals_mod (hy : y.coefficient ≠ 0) :
    ArithmeticOp.mod.onDecimals x y = orOverflow (x.rem? y) >>= fun m => .ok (.decimal m) := by
  have hzero : y.isZero = false := by simpa [Decimal.isZero] using hy
  simp only [ArithmeticOp.onDecimals, hzero, Bool.false_eq_true, if_false]
  rfl

section

variable {α β : Type} {b : β}

private theorem of_orOverflow_bind {o : Option α} {f : α → Except Error β} (h : orOverflow o >>= f = .ok b) :
    ∃ a, o = some a ∧ f a = .ok b := by
  cases o with
  | none => cases h
  | some a => exact ⟨a, rfl, h⟩

private theorem of_checkedLong_bind {i : Int} {f : Int → Except Error β} (h : checkedLong i >>= f = .ok b) :
    f i = .ok b := by
  unfold checkedLong at h
  split at h
  · exact h
  · cases h

end

/-- **The law of quotient and remainder.** Let an integer and a decimal, or two decimals, be divided, with
quotient `k` and remainder `m`, where the words of the coefficients are divided exactly. The remainder is
smaller than the divisor and has the sign of the dividend. The dividend is `k` times the divisor and the
remainder if and only if rounding keeps the integer part of the quotient, as it does if five times the
dividend's coefficient is below the limit. -/
theorem idiv_mod_decimal {c : OperatorCache} (hc : c.Coherent) (ha : a.promoteDecimal = .ok x)
    (hb : b.promoteDecimal = .ok y) (hdecimal : a.itemType = .decimal ∨ b.itemType = .decimal) (hy : y.value ≠ 0)
    (hexact : wordRemainder (x.alignedLeft y) (x.alignedRight y) = x.alignedLeft y % x.alignedRight y)
    {q r : Atomic} (hq : (c.arithmetic .idiv a b).1 = .ok q) (hr : (c.arithmetic .mod a b).1 = .ok r) :
    ∃ (k : Int) (m : Decimal), q = .integer .integer k ∧ r = .decimal m ∧
      a.rational? = some x.value ∧ b.rational? = some y.value ∧
      |m.value| < |y.value| ∧ (m.value = 0 ∨ SignType.sign m.value = SignType.sign x.value) ∧
      (x.value = k * y.value + m.value ↔ Decimal.KeepsWhole (x.alignedLeft y) (x.alignedRight y)) ∧
      (5 * x.alignedLeft y < 2 ^ 96 → x.value = k * y.value + m.value) := by
  have hyc : y.coefficient ≠ 0 := mt Decimal.value_eq_zero_iff.mpr hy
  rw [arithmetic_decimals hc (by decide) ha hb hdecimal] at hq hr
  rw [onDecimals_idiv hyc] at hq
  rw [onDecimals_mod hyc] at hr
  obtain ⟨d, hd, hk⟩ := of_orOverflow_bind hq
  replace hk := of_checkedLong_bind hk
  obtain rfl := Except.ok.inj hk
  obtain ⟨m, hm, hmr⟩ := of_orOverflow_bind hr
  obtain rfl := Except.ok.inj hmr
  have hlaw := Decimal.value_eq_mul_add_iff hyc hexact hm hd
  exact ⟨d.toInt, m, rfl, rfl, (rational?_of_promoteDecimal ha).1, (rational?_of_promoteDecimal hb).1,
    Decimal.abs_value_rem?_lt hyc hexact hm, Decimal.sign_value_rem? hyc hexact hm, hlaw,
    fun hlt => hlaw.mpr (Decimal.keepsWhole_of_lt (Decimal.alignedRight_pos hyc) hlt)⟩

/-- `-17.5 idiv 4` is `-4` and `-17.5 mod 4` is `-1.5`. -/
theorem idiv_mod_decimal_negative :
    let x : Decimal := ⟨-175, 1, by decide, by decide, false, nofun⟩
    let y : Decimal := ⟨4, 0, by decide, by decide, false, nofun⟩
    let r : Decimal := ⟨-15, 1, by decide, by decide, false, nofun⟩
    (OperatorCache.empty.arithmetic .idiv (.decimal x) (.ofInt 4)).1 = .ok (.integer .integer (-4)) ∧
    (OperatorCache.empty.arithmetic .mod (.decimal x) (.ofInt 4)).1 = .ok (.decimal r) ∧
      x.value = (-4 : Int) * y.value + r.value ∧ |r.value| < |y.value| := by
  intro x y r
  have hc := OperatorCache.Holds.empty.coherent
  have hy : y.value ≠ 0 := by norm_num [Decimal.value, y]
  have hd : x.div? y = some ⟨-4375, 3, by decide, by decide, false, nofun⟩ := by decide +kernel
  have hm : x.rem? y = some r := by decide +kernel
  have hq : (OperatorCache.empty.arithmetic .idiv (.decimal x) (.ofInt 4)).1 = .ok (.integer .integer (-4)) := by
    rw [arithmetic_decimals hc (by decide) rfl rfl (.inl rfl), onDecimals_idiv (y := y) (by decide), hd]
    rfl
  have hr : (OperatorCache.empty.arithmetic .mod (.decimal x) (.ofInt 4)).1 = .ok (.decimal r) := by
    rw [arithmetic_decimals hc (by decide) rfl rfl (.inl rfl), onDecimals_mod (y := y) (by decide), hm]
    rfl
  obtain ⟨k, m, hk, hm, -, -, hlt, -, -, hlaw⟩ :=
    idiv_mod_decimal (y := y) hc rfl rfl (.inl rfl) hy (by decide +kernel) hq hr
  cases hk
  cases hm
  exact ⟨hq, hr, hlaw (by decide +kernel), hlt⟩

/-- The quotient of `59.999999999999999999999999999` by `60` is rounded to one. So the integer quotient is one,
but the remainder is the dividend itself, and quotient and remainder do not make up the dividend. -/
theorem idiv_mod_decimal_carried :
    let x : Decimal := ⟨59999999999999999999999999999, 27, by decide, by decide, false, nofun⟩
    let y : Decimal := ⟨60, 0, by decide, by decide, false, nofun⟩
    (OperatorCache.empty.arithmetic .idiv (.decimal x) (.decimal y)).1 = .ok (.integer .integer 1) ∧
    (OperatorCache.empty.arithmetic .mod (.decimal x) (.decimal y)).1 = .ok (.decimal x) ∧
      x.value ≠ (1 : Int) * y.value + x.value := by
  intro x y
  have hc := OperatorCache.Holds.empty.coherent
  have hd : x.div? y = some ⟨10 ^ 21, 21, by decide, by decide, false, nofun⟩ := by decide +kernel
  have hm : x.rem? y = some x := by decide +kernel
  refine ⟨?_, ?_, by norm_num [Decimal.value, y]⟩
  · rw [arithmetic_decimals hc (by decide) rfl rfl (.inl rfl), onDecimals_idiv (by decide), hd]
    rfl
  · rw [arithmetic_decimals hc (by decide) rfl rfl (.inl rfl), onDecimals_mod (by decide), hm]
    rfl

end

end LazyXPath
