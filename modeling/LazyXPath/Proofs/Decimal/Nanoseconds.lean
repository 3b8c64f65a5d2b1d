import LazyXPath.Calendar.Duration
import LazyXPath.Proofs.Decimal.Exact
import LazyXPath.Proofs.Decimal.Remainder

/-!
# Nanoseconds

A day-time duration is a decimal number of seconds, and it moves a point in time by a number of nanoseconds. A
number of nanoseconds is taken to seconds exactly (`value_secondsOfNanos`). On the way back the seconds are split into
a whole number and a fraction, and only the fraction is multiplied by a billion. That product may not fit at the scale
of the fraction, so that it is fitted to a smaller one; but nothing is lost if it is a whole number
(`Decimal.mul?_whole`), as it is for a whole number of nanoseconds (`nanosOfSeconds?_eq`).
-/

namespace LazyXPath

namespace Decimal

/-! ### Values -/

theorem value_of_mk? {c : Int} {s : Nat} {d : Decimal} (h : mk? c s = some d) : d.value = c / 10 ^ s := by
  unfold mk? at h
  split at h
  case isTrue =>
    obtain rfl := Option.some.inj h
    rfl
  case isFalse => cases h

theorem value_neg (d : Decimal) : (-d).value = -d.value := by
  change ((-d.coefficient : Int) : ℚ) / 10 ^ d.scale = -(d.coefficient / 10 ^ d.scale)
  rw [Int.cast_neg, neg_div]

private theorem coefficient_eq_of_value {d : Decimal} {m : Int} (h : d.value = m) :
    d.coefficient = m * 10 ^ d.scale := by
  rw [value, div_eq_iff (by positivity)] at h
  exact_mod_cast h

theorem toInt_of_value {d : Decimal} {m : Int} (h : d.value = m) : d.toInt = m := by
  have hpow : (tenTo d.scale : Int) = 10 ^ d.scale := Nat.cast_pow 10 _
  rw [toInt, coefficient_eq_of_value h, hpow, Int.mul_tdiv_cancel _ (by positivity)]

/-- The sign of a zero is not part of its value. -/
theorem value_signedLike (n : Int) (d : Decimal) : (signedLike n d).value = d.value := by
  unfold signedLike
  split
  case isTrue h =>
    have hzero : d.value = 0 := by
      simp only [Bool.and_eq_true] at h
      exact value_eq_zero_iff.mpr (by simpa [isZero] using h.1.1)
    rw [value_neg, hzero, neg_zero]
  case isFalse => rfl

/-! ### Whole products -/

private theorem fit?_of_mk? {n : Int} {d t : Nat} {w : Decimal} (h : mk? (coefficientAt n d t) t = some w) :
    fit? n d t = some w := by
  cases t with
  | zero => rw [fit?, h]
  | succ t => rw [fit?, h]

/-- A fraction that is a decimal is fitted without a loss, to whatever scale at which it is one. -/
theorem fit?_value {n k : Int} {d e t : Nat} (hd : 0 < d) (h : n * 10 ^ e = k * d) (hk : k.natAbs < limit)
    (he : e ≤ t) (ht : t ≤ maxScale) : ∃ w, fit? n d t = some w ∧ w.value = k / 10 ^ e := by
  have hsign : n.sign = k.sign := by
    have hboth := congrArg Int.sign h
    rwa [Int.sign_mul, Int.sign_mul, Int.sign_eq_one_of_pos (show (0 : Int) < 10 ^ e by positivity),
      Int.sign_eq_one_of_pos (Int.natCast_pos.mpr hd), Int.mul_one, Int.mul_one] at hboth
  have hsize : n.natAbs * 10 ^ e = k.natAbs * d := by
    have hboth := congrArg Int.natAbs h
    rwa [Int.natAbs_mul, Int.natAbs_mul, Int.natAbs_pow, Int.natAbs_natCast] at hboth
  have hcoef : ∀ j, coefficientAt n d (e + j) = k * 10 ^ j := by
    intro j
    have hscaled : n.natAbs * tenTo (e + j) = k.natAbs * 10 ^ j * d := by
      have hten : tenTo (e + j) = 10 ^ e * 10 ^ j := Nat.pow_add 10 e j
      rw [hten, ← Nat.mul_assoc, hsize, Nat.mul_right_comm]
    rw [coefficientAt, hscaled, roundHalfEven_mul_right hd, hsign, Int.natCast_mul, ← Int.mul_assoc, Int.sign_mul_natAbs,
      Int.natCast_pow]
    rfl
  have hvalue : ∀ {j w}, mk? (k * 10 ^ j) (e + j) = some w → w.value = k / 10 ^ e := by
    intro j w hw
    rw [value_of_mk? hw, Int.cast_mul, Int.cast_pow, pow_add]
    exact mul_div_mul_right _ _ (by positivity)
  obtain ⟨j, rfl⟩ := Nat.exists_eq_add_of_le he
  clear he
  induction j with
  | zero =>
    obtain ⟨w, hw, -⟩ := mk?_eq (c := k * 10 ^ 0) (s := e + 0) (by simpa using hk) ht
    exact ⟨w, fit?_of_mk? (by rw [hcoef, hw]), hvalue hw⟩
  | succ j ih =>
    cases hw : mk? (k * 10 ^ (j + 1)) (e + (j + 1)) with
    | some w => exact ⟨w, fit?_of_mk? (by rw [hcoef, hw]), hvalue hw⟩
    | none =>
      obtain ⟨w, hfit, hw'⟩ := ih (Nat.le_of_succ_le ht)
      have hskip : fit? n d (e + (j + 1)) = fit? n d (e + j) := by
        rw [← Nat.add_assoc, fit?, Nat.add_assoc, hcoef, hw]
      exact ⟨w, hskip.trans hfit, hw'⟩

/-- Single words have no whole product with so many places that it counts as nothing. -/
theorem places_le_of_isWord {a b : Decimal} {m : Int} {s : Nat} (ha : a.isWord = true) (hb : b.isWord = true)
    (hm : m ≠ 0) (h : a.coefficient * b.coefficient = m * 10 ^ s) : s ≤ 47 := by
  by_contra hlt
  have hsize : a.coefficient.natAbs * b.coefficient.natAbs = m.natAbs * 10 ^ s := by
    rw [← Int.natAbs_mul, h, Int.natAbs_mul, Int.natAbs_pow]
    rfl
  have hlow : 10 ^ 48 ≤ m.natAbs * 10 ^ s :=
    (Nat.pow_le_pow_right (by decide) (Nat.lt_of_not_le hlt)).trans (Nat.le_mul_of_pos_left _ (Int.natAbs_pos.mpr hm))
  have hhigh := Nat.mul_lt_mul'' (of_decide_eq_true ha) (of_decide_eq_true hb)
  rw [hsize] at hhigh
  exact absurd (hlow.trans_lt hhigh) (by decide)

/-- A product that is a whole number and not too large is exact. -/
theorem mul?_whole {a b : Decimal} {m : Int} (h : a.value * b.value = m) (hm : m.natAbs < limit) :
    ∃ w, a.mul? b = some w ∧ w.value = m := by
  have hproduct : a.coefficient * b.coefficient = m * 10 ^ (a.scale + b.scale) := by
    rw [value, value, div_mul_div_comm, ← pow_add, div_eq_iff (by positivity)] at h
    exact_mod_cast h
  have hten : (tenTo (a.scale + b.scale) : Int) = 10 ^ (a.scale + b.scale) := Nat.cast_pow 10 _
  obtain ⟨w, hw, hvalue⟩ := fit?_value (n := m * 10 ^ (a.scale + b.scale)) (k := m) (e := 0)
    (d := tenTo (a.scale + b.scale)) (t := min maxScale (a.scale + b.scale)) (Nat.pow_pos (show 0 < 10 by decide))
    (by rw [hten, pow_zero, Int.mul_one]) hm (Nat.zero_le _) (Nat.min_le_left _ _)
  rw [pow_zero, div_one] at hvalue
  unfold mul?
  dsimp only
  rw [hproduct, hw]
  split
  · rename_i hzero
    obtain rfl : m = 0 := (Int.mul_eq_zero.mp hzero).resolve_right (by positivity)
    exact ⟨zero, rfl, by simp [value, zero]⟩
  split
  · rename_i hne hwords
    rw [Bool.and_eq_true] at hwords
    have hm0 : m ≠ 0 := fun hzero => hne (by rw [hzero, Int.zero_mul])
    have hplaces := Nat.not_lt.mpr (places_le_of_isWord hwords.1 hwords.2 hm0 hproduct)
    rw [if_neg hplaces]
    exact ⟨w, rfl, hvalue⟩
  · exact ⟨_, rfl, (value_signedLike _ _).trans hvalue⟩

/-! ### Whole and fractional part -/

private theorem value_trunc (d : Decimal) : d.trunc.value = d.toInt := by
  change (d.toInt : ℚ) / 10 ^ 0 = d.toInt
  rw [pow_zero, div_one]

/-- The whole part is not larger than the decimal. -/
theorem natAbs_toInt_mul_le (d : Decimal) : d.toInt.natAbs * 10 ^ d.scale ≤ d.coefficient.natAbs := by
  rw [toInt, Int.natAbs_tdiv]
  exact Nat.div_mul_le_self _ _

private theorem value_sub_toInt (d : Decimal) :
    d.value - d.toInt = ((d.coefficient.tmod (10 ^ d.scale) : Int) : ℚ) / 10 ^ d.scale := by
  have hpow : (tenTo d.scale : Int) = 10 ^ d.scale := Nat.cast_pow 10 _
  have hrest : ((d.coefficient.tmod (10 ^ d.scale) : Int) : ℚ) = d.coefficient - 10 ^ d.scale * d.toInt := by
    rw [toInt, hpow, Int.tmod_def]
    push_cast
    rfl
  rw [hrest, sub_div, mul_div_cancel_left₀ _ (by positivity), value]

private theorem abs_value_sub_toInt_lt (d : Decimal) : |d.value - d.toInt| < 1 := by
  have hnat : (d.coefficient.tmod (10 ^ d.scale)).natAbs < 10 ^ d.scale := by
    rw [Int.natAbs_tmod, Int.natAbs_pow]
    exact Nat.mod_lt _ (by positivity)
  rw [value_sub_toInt, abs_div, abs_of_pos (show (0 : ℚ) < 10 ^ d.scale by positivity), div_lt_one (by positivity),
    ← Int.cast_abs, Int.abs_eq_natAbs]
  exact_mod_cast hnat

/-- The fraction is what is left of a decimal without its whole part. -/
theorem sub?_trunc (d : Decimal) : ∃ f, d.sub? d.trunc = some f ∧ f.value = d.value - d.toInt := by
  obtain ⟨b, hb, hscale, hcoef⟩ : ∃ b, (if d.trunc.isZero then d.trunc else -d.trunc) = b ∧ b.scale = 0 ∧
      b.coefficient = -d.toInt := by
    by_cases hzero : d.trunc.isZero = true
    · have htoInt : d.toInt = 0 := by simpa [isZero, trunc] using hzero
      exact ⟨_, if_pos hzero, rfl, by rw [htoInt]; exact htoInt⟩
    · exact ⟨_, if_neg hzero, rfl, rfl⟩
  have hsum : d.scaledTo d.scale + b.scaledTo d.scale = d.coefficient.tmod (10 ^ d.scale) := by
    have hpow : (tenTo d.scale : Int) = 10 ^ d.scale := Nat.cast_pow 10 _
    have hself : d.scaledTo d.scale = d.coefficient := by simp [scaledTo]
    rw [hself, scaledTo, hscale, hcoef, Nat.sub_zero, hpow, toInt, hpow, Int.tmod_def, Int.neg_mul, Int.mul_comm,
      ← Int.sub_eq_add_neg]
  have hfits : (d.scaledTo d.scale + b.scaledTo d.scale).natAbs < limit := by
    rw [hsum, Int.natAbs_tmod]
    exact (Nat.mod_le _ _).trans_lt d.coefficient_lt
  obtain ⟨f, hf, hcoefficient, -⟩ := add?_exact (by rw [hscale, Nat.max_zero]) hfits
  refine ⟨f, by rw [sub?, hb, hf], ?_⟩
  rw [hsum] at hcoefficient
  rw [value_sub_toInt, value, div_eq_div_iff (by positivity) (by positivity)]
  exact_mod_cast hcoefficient

end Decimal

/-! ### Seconds and nanoseconds -/

namespace Calendar

/-- Nanoseconds are taken to seconds exactly. -/
theorem value_secondsOfNanos {n : Int} (hn : n.natAbs < Decimal.limit) : (secondsOfNanos n).value * 10 ^ 9 = n := by
  have hwhole : (n.tdiv nanosPerSecond).natAbs < Decimal.limit := by
    rw [Int.natAbs_tdiv]
    exact (Nat.div_le_self _ _).trans_lt hn
  have hfraction : (n.tmod nanosPerSecond).natAbs < Decimal.limit := by
    rw [Int.natAbs_tmod]
    exact (Nat.mod_le _ _).trans_lt hn
  obtain ⟨w, hw, hwc, hws⟩ := Decimal.mk?_eq hwhole (Nat.zero_le _)
  obtain ⟨f, hf, hfc, hfs⟩ := Decimal.mk?_eq hfraction (show 9 ≤ Decimal.maxScale by decide)
  have hsum : w.scaledTo 9 + f.scaledTo 9 = n := by
    have hten : (tenTo 9 : Int) = nanosPerSecond := rfl
    rw [Decimal.scaledTo, Decimal.scaledTo, hwc, hws, hfc, hfs, Nat.sub_zero, Nat.sub_self, hten]
    exact (congrArg _ (Int.mul_one _)).trans (Int.tdiv_mul_add_tmod n nanosPerSecond)
  have hscale : max w.scale f.scale = 9 := by rw [hws, hfs, Nat.zero_max]
  obtain ⟨s, hs, hcoefficient, -⟩ := Decimal.add?_exact hscale (by rwa [hsum])
  have hseconds : secondsOfNanos n = s := by
    rw [secondsOfNanos, Decimal.ofInt?, hw, hf]
    change (w.add? f).getD .zero = s
    rw [hs]
    rfl
  rw [hsum] at hcoefficient
  rw [hseconds, Decimal.value, div_mul_eq_mul_div, div_eq_iff (by positivity)]
  exact_mod_cast hcoefficient

section

variable {s : Decimal} {n : Int}

/-- A fraction of a second is a billion nanoseconds at most, which can be multiplied exactly. -/
theorem exists_nanosOfFraction (h : s.value * 10 ^ 9 = n) : ∃ f b w, s.sub? s.trunc = some f ∧
    Decimal.ofInt? nanosPerSecond = some b ∧ f.mul? b = some w ∧ w.toInt = n - s.toInt * nanosPerSecond := by
  obtain ⟨f, hf, hvalue⟩ := s.sub?_trunc
  obtain ⟨b, hb⟩ : ∃ b, Decimal.ofInt? nanosPerSecond = some b := ⟨_, rfl⟩
  have hbillion : b.value = 10 ^ 9 := by
    rw [Decimal.value_ofInt? hb]
    norm_num
  have hproduct : f.value * b.value = ((n - s.toInt * 10 ^ 9 : Int) : ℚ) := by
    rw [hvalue, hbillion, sub_mul, h]
    push_cast
    rfl
  have hsmall : (n - s.toInt * 10 ^ 9).natAbs < 10 ^ 9 := by
    have hbound : |((n - s.toInt * 10 ^ 9 : Int) : ℚ)| < 10 ^ 9 := by
      rw [← hproduct, hvalue, hbillion, abs_mul, abs_of_pos (show (0 : ℚ) < 10 ^ 9 by positivity)]
      exact mul_lt_of_lt_one_left (by positivity) s.abs_value_sub_toInt_lt
    rw [← Int.cast_abs, Int.abs_eq_natAbs] at hbound
    exact_mod_cast hbound
  obtain ⟨w, hw, hwhole⟩ := Decimal.mul?_whole hproduct (hsmall.trans (by decide))
  exact ⟨f, b, w, hf, hb, hw, Decimal.toInt_of_value hwhole⟩

/-- A shift that is not too long has not too many seconds. -/
theorem natAbs_toInt_le_longestSeconds (h : s.value * 10 ^ 9 = n) (hn : n.natAbs ≤ longestShift) :
    s.toInt.natAbs ≤ longestSeconds := by
  have hcoefficient : s.coefficient * 10 ^ 9 = n * 10 ^ s.scale := by
    rw [Decimal.value, div_mul_eq_mul_div, div_eq_iff (by positivity)] at h
    exact_mod_cast h
  have hle : s.toInt.natAbs * 10 ^ 9 * 10 ^ s.scale ≤ n.natAbs * 10 ^ s.scale := by
    calc s.toInt.natAbs * 10 ^ 9 * 10 ^ s.scale = s.toInt.natAbs * 10 ^ s.scale * 10 ^ 9 := Nat.mul_right_comm _ _ _
      _ ≤ s.coefficient.natAbs * 10 ^ 9 := Nat.mul_le_mul_right _ s.natAbs_toInt_mul_le
      _ = (s.coefficient * 10 ^ 9).natAbs := by rw [Int.natAbs_mul]; rfl
      _ = n.natAbs * 10 ^ s.scale := by rw [hcoefficient, Int.natAbs_mul, Int.natAbs_pow]; rfl
  have hseconds := Nat.le_of_mul_le_mul_right hle (by positivity)
  simp only [longestShift, longestSeconds, twoTo] at hn ⊢
  omega

/-- Seconds that are a whole number of nanoseconds are taken to that number, if it is not too large. -/
theorem nanosOfSeconds?_eq (h : s.value * 10 ^ 9 = n) :
    nanosOfSeconds? s = if n.natAbs ≤ longestShift then some n else none := by
  obtain ⟨f, b, w, hf, hb, hw, hfraction⟩ := exists_nanosOfFraction h
  have htotal : s.toInt * nanosPerSecond + w.toInt = n := by
    rw [hfraction]
    exact add_sub_cancel _ _
  unfold nanosOfSeconds?
  dsimp only
  simp only [hf, hb, Option.bind_eq_bind, Option.bind_some, hw, Decimal.toInt_of_value s.value_trunc, htotal]
  by_cases hn : n.natAbs ≤ longestShift
  · rw [if_pos (natAbs_toInt_le_longestSeconds h hn)]
  · rw [if_neg hn, ite_self]

end

end Calendar

end LazyXPath
