import LazyXPath.Decimal.Arithmetic
import LazyXPath.Proofs.Decimal.Quotient

/-!
# Exact sums, differences and products

Nothing is rounded if the exact result has a coefficient that fits (`Decimal.add?_exact`). `Decimal.IsWhole`
says of a decimal that it is a natural number without decimal places; sums and products of such decimals are
again of this kind.
-/

namespace LazyXPath.Decimal

/-- A coefficient that fits at its own scale is not rounded. -/
theorem fit?_exact {n : Int} {s : Nat} (hn : n.natAbs < limit) (hs : s ≤ maxScale) :
    ∃ w, fit? n (tenTo s) s = some w ∧ w.coefficient = n ∧ w.scale = s := by
  have hten : 0 < tenTo s := Nat.pow_pos (show 0 < 10 by decide)
  have hcoef : coefficientAt n (tenTo s) s = n := by
    rw [coefficientAt, roundHalfEven_mul_right hten, Int.sign_mul_natAbs]
  obtain ⟨w, hw, hwc, hws⟩ := mk?_eq hn hs
  refine ⟨w, ?_, hwc, hws⟩
  cases s with
  | zero => rw [fit?, hcoef, hw]
  | succ s => rw [fit?, hcoef, hw]

section

variable {a b : Decimal} {s : Nat}

theorem scaledTo_mul_pow (hs : a.scale ≤ s) : a.scaledTo s * 10 ^ a.scale = a.coefficient * 10 ^ s := by
  have hten : (tenTo (s - a.scale) : Int) = 10 ^ (s - a.scale) := Nat.cast_pow 10 _
  rw [scaledTo, hten, mul_assoc, ← pow_add, Nat.sub_add_cancel hs]

private theorem scaledTo_of_isZero (ha : a.isZero = true) : a.scaledTo s = 0 := by
  have hzero : a.coefficient = 0 := by simpa [isZero] using ha
  rw [scaledTo, hzero, Int.zero_mul]

/-- A sum that fits at the larger scale is exact. It has this scale if the first term has and is not zero. -/
theorem add?_exact (hs : max a.scale b.scale = s) (h : (a.scaledTo s + b.scaledTo s).natAbs < limit) :
    ∃ c, a.add? b = some c ∧ c.coefficient * 10 ^ s = (a.scaledTo s + b.scaledTo s) * 10 ^ c.scale ∧ c.scale ≤ s ∧
      (a.coefficient ≠ 0 → a.scale = s → c.scale = s) := by
  unfold add?
  split
  case isTrue hzero =>
    refine ⟨b, rfl, ?_, by omega, fun ha => absurd (by simpa [isZero] using hzero) ha⟩
    rw [scaledTo_of_isZero hzero, Int.zero_add, scaledTo_mul_pow (by omega)]
  case isFalse =>
    split
    case isTrue hzero =>
      refine ⟨a, rfl, ?_, by omega, fun _ ha => ha⟩
      rw [scaledTo_of_isZero hzero, Int.add_zero, scaledTo_mul_pow (by omega)]
    case isFalse =>
      have hle : s ≤ maxScale := hs ▸ max_le a.scale_le b.scale_le
      obtain ⟨w, hw, hwc, hws⟩ := fit?_exact h hle
      dsimp only
      rw [hs, hw]
      exact ⟨w, rfl, by rw [hwc, hws], hws.le, fun _ _ => hws⟩

end

/-- The decimal is a natural number without decimal places. -/
def IsWhole (d : Decimal) (n : Nat) : Prop := d.coefficient = n ∧ d.scale = 0

namespace IsWhole

variable {a b : Decimal} {m n : Nat}

theorem zero : IsWhole zero 0 := ⟨rfl, rfl⟩

theorem lt_limit (ha : IsWhole a m) : m < limit := by
  have := a.coefficient_lt
  rwa [ha.1, Int.natAbs_natCast] at this

theorem isZero_iff (ha : IsWhole a m) : a.isZero = true ↔ m = 0 := by
  simp [isZero, ha.1]

theorem scaledTo (ha : IsWhole a m) (s : Nat) : a.scaledTo s = ((m * 10 ^ s : Nat) : Int) := by
  rw [Decimal.scaledTo, ha.1, ha.2, Nat.sub_zero, ← Int.natCast_mul]
  rfl

theorem ofInt? (hn : n < limit) : ∃ d, Decimal.ofInt? n = some d ∧ IsWhole d n := by
  obtain ⟨w, hw, hwc, hws⟩ := mk?_eq (c := (n : Int)) (s := 0) (by rwa [Int.natAbs_natCast]) (Nat.zero_le _)
  exact ⟨w, hw, hwc, hws⟩

theorem add? (ha : IsWhole a m) (hb : IsWhole b n) (h : m + n < limit) :
    ∃ c, a.add? b = some c ∧ IsWhole c (m + n) := by
  have hmax : max a.scale b.scale = 0 := by rw [ha.2, hb.2, max_self]
  have hsum : a.scaledTo 0 + b.scaledTo 0 = ((m + n : Nat) : Int) := by
    rw [ha.scaledTo, hb.scaledTo, ← Int.natCast_add, pow_zero, Nat.mul_one, Nat.mul_one]
  obtain ⟨c, hc, hvalue, hscale, -⟩ := add?_exact hmax (by rwa [hsum, Int.natAbs_natCast])
  have hzero := Nat.le_zero.mp hscale
  refine ⟨c, hc, ?_, hzero⟩
  rwa [hsum, hzero, pow_zero, mul_one, mul_one] at hvalue

theorem mul? (ha : IsWhole a m) (hb : IsWhole b n) (h : m * n < limit) :
    ∃ c, a.mul? b = some c ∧ IsWhole c (m * n) := by
  have hprod : a.coefficient * b.coefficient = ((m * n : Nat) : Int) := by rw [ha.1, hb.1, Int.natCast_mul]
  unfold Decimal.mul?
  simp only [ha.2, hb.2, hprod, Nat.add_zero, Nat.min_zero]
  obtain hzero | hpos := Nat.eq_zero_or_pos (m * n)
  · rw [hzero]
    exact ⟨_, rfl, IsWhole.zero⟩
  obtain ⟨w, hw, hwc, hws⟩ :=
    fit?_exact (n := ((m * n : Nat) : Int)) (s := 0) (by rwa [Int.natAbs_natCast]) (Nat.zero_le _)
  -- the sign of a zero does not matter, since the product is positive
  have hsigned : signedLike ((m * n : Nat) : Int) w = w := by
    have hneg : ¬ ((m * n : Nat) : Int) < 0 := by omega
    rw [signedLike, decide_eq_false hneg, Bool.and_false]
    rfl
  have hne : ((m * n : Nat) : Int) ≠ 0 := by omega
  have hplaces : ¬ 47 < 0 := by decide
  simp only [hne, if_false, hplaces, hw, Option.map_some, hsigned]
  split <;> exact ⟨w, rfl, hwc, hws⟩

/-- Taking a natural number away from a decimal that is not below it. -/
theorem sub? {k : Nat} (ha : a.coefficient = k) (hb : IsWhole b n) (h : n * 10 ^ a.scale ≤ k) :
    ∃ c, a.sub? b = some c ∧ c.coefficient = ((k - n * 10 ^ a.scale : Nat) : Int) ∧
      (c.coefficient ≠ 0 → c.scale = a.scale) := by
  obtain ⟨b', hb', hscale, hscaled⟩ : ∃ b', (if b.isZero then b else -b) = b' ∧ b'.scale = 0 ∧
      b'.scaledTo a.scale = -((n * 10 ^ a.scale : Nat) : Int) := by
    by_cases hzero : b.isZero = true
    · refine ⟨b, if_pos hzero, hb.2, ?_⟩
      rw [hb.scaledTo, hb.isZero_iff.mp hzero, Nat.zero_mul]
      rfl
    · refine ⟨-b, if_neg hzero, hb.2, ?_⟩
      rw [← hb.scaledTo]
      exact Int.neg_mul _ _
  have hself : a.scaledTo a.scale = (k : Int) := by simp [Decimal.scaledTo, ha]
  have hk : k < limit := by
    have := a.coefficient_lt
    rwa [ha, Int.natAbs_natCast] at this
  have hsum : a.scaledTo a.scale + b'.scaledTo a.scale = ((k - n * 10 ^ a.scale : Nat) : Int) := by
    rw [hself, hscaled]
    omega
  have hmax : max a.scale b'.scale = a.scale := by rw [hscale, Nat.max_zero]
  obtain ⟨c, hc, hvalue, -, hcscale⟩ := add?_exact hmax (by rw [hsum, Int.natAbs_natCast]; omega)
  rw [hsum] at hvalue
  refine ⟨c, by rw [Decimal.sub?, hb', hc], ?_⟩
  have hpow : ∀ t : Nat, (10 : Int) ^ t ≠ 0 := fun t => pow_ne_zero t (by decide)
  obtain rfl | hpos := Nat.eq_zero_or_pos k
  · rw [Nat.zero_sub, Int.natCast_zero, Int.zero_mul] at hvalue
    have hzero := (Int.mul_eq_zero.mp hvalue).resolve_right (hpow _)
    rw [Nat.zero_sub]
    exact ⟨hzero, fun hne => absurd hzero hne⟩
  · have heq := hcscale (by omega) rfl
    rw [heq] at hvalue
    exact ⟨Int.eq_of_mul_eq_mul_right (hpow _) hvalue, fun _ => heq⟩

end IsWhole

end LazyXPath.Decimal
