import LazyXPath.Proofs.Decimal.Nanoseconds

/-!
# What fits

A result is rounded to as many places as fit. It is lost only if not even the integer that it is rounded to is below the
limit of coefficients (`Decimal.Fits`), and it is not rounded at all where it is a decimal. Both are shown of fitted
fractions, from there of sums (`Decimal.exists_add?_iff`, `Decimal.add?_value`) and of products of natural numbers, and
of digits (`Decimal.exists_ofDigits?_iff`, `Decimal.ofDigits?_value`), which are read one by one until no more of them
fit.
-/

namespace LazyXPath

namespace Decimal

/-! ### Fractions -/

/-- Rounded to an integer, half to even, the number is below the limit of coefficients, which is even. -/
def Fits (x : ℚ) : Prop := x + 1 / 2 < limit

private theorem fits_div_iff {n d : Nat} (hd : 0 < d) : Fits (n / d) ↔ 2 * n + d < 2 * (limit * d) := by
  have hd' : (0 : ℚ) < d := Nat.cast_pos.mpr hd
  have hsum : (n : ℚ) / d + 1 / 2 = (2 * n + d) / (2 * d) := by
    field_simp
  rw [Fits, hsum, div_lt_iff₀ (by positivity), ← mul_assoc, mul_comm (limit : ℚ) 2, mul_assoc]
  exact_mod_cast Iff.rfl

theorem fits_natCast {n : Nat} : Fits n ↔ n < limit := by
  have hone := fits_div_iff (n := n) (d := 1) Nat.one_pos
  rw [Nat.cast_one, div_one] at hone
  rw [hone]
  omega

theorem fits_zero : Fits 0 := by
  have hzero := fits_natCast.mpr (show 0 < limit by decide)
  rwa [Nat.cast_zero] at hzero

theorem fits_value (d : Decimal) : Fits d.value := by
  have hle : d.value ≤ d.coefficient.natAbs := by
    refine div_le_of_le_mul₀ (by positivity) (by positivity) ?_
    have habs : (d.coefficient : ℚ) ≤ ((d.coefficient.natAbs : Int) : ℚ) := Int.cast_le.mpr Int.le_natAbs
    rw [Int.cast_natCast] at habs
    refine habs.trans (le_mul_of_one_le_right (by positivity) ?_)
    exact one_le_pow₀ (by norm_num)
  have hfits := fits_natCast.mpr d.coefficient_lt
  exact (add_le_add_left hle _).trans_lt hfits

/-- A tie below an even limit goes to the limit. -/
theorem roundHalfEven_lt_iff {n d l : Nat} (hd : 0 < d) (hl : l % 2 = 0) :
    roundHalfEven n d < l ↔ 2 * n + d < 2 * (l * d) := by
  have hn := Nat.div_add_mod' n d
  have hr := Nat.mod_lt n hd
  rw [roundHalfEven_eq hn.symm hr]
  generalize n / d = q at hn ⊢
  generalize n % d = r at hn hr ⊢
  obtain hlt | rfl | hge : q + 2 ≤ l ∨ l = q + 1 ∨ l ≤ q := by omega
  · have hmul := Nat.mul_le_mul_right d hlt
    rw [Nat.add_mul] at hmul
    split <;> omega
  · -- just below the limit the quotient is odd, so that a tie is rounded up
    rw [Nat.add_mul, Nat.one_mul]
    have hodd : q % 2 = 1 := by omega
    simp only [hodd, Bool.or_eq_true, decide_eq_true_eq, Bool.and_eq_true, beq_iff_eq, and_true]
    split <;> omega
  · have hmul := Nat.mul_le_mul_right d hge
    split <;> omega

private theorem exists_fit?_iff {n d t : Nat} (hd : 0 < d) (ht : t ≤ maxScale) :
    (∃ w, fit? n d t = some w) ↔ Fits (n / d) := by
  have heven : limit % 2 = 0 := by decide
  rw [fits_div_iff hd, ← roundHalfEven_lt_iff hd heven]
  have hmk : ∀ t ≤ maxScale, (∃ w, mk? (coefficientAt n d t) t = some w) ↔ roundHalfEven (n * 10 ^ t) d < limit := by
    intro t ht
    rw [coefficientAt_natCast hd, mk?]
    split
    case isTrue h => exact iff_of_true ⟨_, rfl⟩ (by simpa using h.1)
    case isFalse h => exact iff_of_false (by rintro ⟨_, ⟨⟩⟩) fun hlt => h ⟨by simpa using hlt, ht⟩
  -- a coefficient at a larger scale is larger, so if none fits, it is the one without places that does not
  induction t with
  | zero => simpa [fit?] using hmk 0 ht
  | succ t ih =>
    rw [fit?]
    cases hw : mk? (coefficientAt n d (t + 1)) (t + 1) with
    | some w =>
      refine iff_of_true ⟨w, rfl⟩ (lt_of_le_of_lt (roundHalfEven_mono d ?_) ((hmk (t + 1) ht).mp ⟨w, hw⟩))
      exact Nat.le_mul_of_pos_right n (by positivity)
    | none => exact ih (Nat.le_of_succ_le ht)

/-! ### Sums and products -/

section

variable {a b : Decimal}

private theorem value_of_isZero (h : a.isZero = true) :
    a.value = 0 :=
  value_eq_zero_iff.mpr (by simpa [isZero] using h)

private theorem value_scaledTo {s : Nat} (hs : a.scale ≤ s) : a.value = (a.scaledTo s : ℚ) / 10 ^ s := by
  rw [value, div_eq_div_iff (by positivity) (by positivity)]
  exact_mod_cast (scaledTo_mul_pow hs).symm

/-- A sum is the fraction of the two coefficients at the larger scale. -/
theorem value_add_value (a b : Decimal) : a.value + b.value =
    ((a.scaledTo (max a.scale b.scale) + b.scaledTo (max a.scale b.scale) : Int) : ℚ) / 10 ^ max a.scale b.scale := by
  rw [Int.cast_add, add_div, ← value_scaledTo (le_max_left _ _), ← value_scaledTo (le_max_right _ _)]

private theorem cast_tenTo (s : Nat) : ((tenTo s : Nat) : ℚ) = 10 ^ s := Nat.cast_pow 10 s

/-- A sum is lost only if it does not fit. -/
theorem exists_add?_iff (ha : 0 ≤ a.coefficient) (hb : 0 ≤ b.coefficient) :
    (∃ c, a.add? b = some c) ↔ Fits (a.value + b.value) := by
  unfold add?
  split
  case isTrue hzero =>
    rw [value_of_isZero hzero, zero_add]
    exact iff_of_true ⟨b, rfl⟩ (fits_value b)
  case isFalse =>
    split
    case isTrue hzero =>
      rw [value_of_isZero hzero, add_zero]
      exact iff_of_true ⟨a, rfl⟩ (fits_value a)
    case isFalse =>
      have hsum : 0 ≤ a.scaledTo (max a.scale b.scale) + b.scaledTo (max a.scale b.scale) :=
        add_nonneg (mul_nonneg ha (Int.natCast_nonneg _)) (mul_nonneg hb (Int.natCast_nonneg _))
      rw [value_add_value, ← cast_tenTo]
      obtain ⟨n, hn⟩ := Int.eq_ofNat_of_zero_le hsum
      dsimp only
      rw [hn]
      exact exists_fit?_iff (Nat.pow_pos (show 0 < 10 by decide)) (max_le a.scale_le b.scale_le)

/-- A fraction that is a decimal is one at a scale that is not larger. -/
theorem exists_coefficient {p : Decimal} {n : Int} {s : Nat} (h : p.value = n / 10 ^ s) :
    ∃ k e, n * 10 ^ e = k * 10 ^ s ∧ k.natAbs < limit ∧ e ≤ s ∧ e ≤ maxScale ∧ p.value = k / 10 ^ e := by
  have heq : n * 10 ^ p.scale = p.coefficient * 10 ^ s := by
    rw [value, div_eq_div_iff (by positivity) (by positivity)] at h
    exact_mod_cast h.symm
  obtain hle | hlt := Nat.lt_or_ge s p.scale |>.symm
  · exact ⟨p.coefficient, p.scale, heq, p.coefficient_lt, hle, p.scale_le, rfl⟩
  · refine ⟨n, s, rfl, lt_of_le_of_lt ?_ p.coefficient_lt, le_rfl, hlt.le.trans p.scale_le, h⟩
    have hsize := congrArg Int.natAbs heq
    rw [Int.natAbs_mul, Int.natAbs_mul, Int.natAbs_pow, Int.natAbs_pow] at hsize
    refine Nat.le_of_mul_le_mul_right (hsize.trans_le ?_) (show 0 < 10 ^ p.scale by positivity)
    exact Nat.mul_le_mul_left _ (Nat.pow_le_pow_right (by decide) hlt.le)

/-- A sum that is a decimal is exact. -/
theorem add?_value (h : ∃ d : Decimal, d.value = a.value + b.value) :
    ∃ c, a.add? b = some c ∧ c.value = a.value + b.value := by
  obtain ⟨p, hp⟩ := h
  unfold add?
  split
  case isTrue ha => exact ⟨b, rfl, by rw [value_of_isZero ha, zero_add]⟩
  case isFalse =>
    split
    case isTrue hb => exact ⟨a, rfl, by rw [value_of_isZero hb, add_zero]⟩
    case isFalse =>
      have hten : ((tenTo (max a.scale b.scale) : Nat) : Int) = 10 ^ max a.scale b.scale := Nat.cast_pow 10 _
      obtain ⟨k, e, hk, hlt, he, -, hvalue⟩ := exists_coefficient (hp.trans (value_add_value a b))
      obtain ⟨w, hw, hwvalue⟩ := fit?_value (d := tenTo (max a.scale b.scale)) (Nat.pow_pos (show 0 < 10 by decide))
        (by rw [hten, hk]) hlt he (max_le a.scale_le b.scale_le)
      exact ⟨w, hw, by rw [hwvalue, ← hvalue, hp]⟩

namespace IsWhole

variable {m n : Nat} (ha : IsWhole a m) (hb : IsWhole b n)

include ha in
theorem value_eq : a.value = m := by
  rw [value, ha.1, ha.2, pow_zero, div_one, Int.cast_natCast]

include ha in
theorem coefficient_nonneg : 0 ≤ a.coefficient := by
  rw [ha.1]
  exact Int.natCast_nonneg m

include ha hb

/-- A sum of natural numbers that is not lost is below the limit. -/
theorem lt_of_add? {c : Decimal} (h : a.add? b = some c) : m + n < limit := by
  have hfits := (exists_add?_iff ha.coefficient_nonneg hb.coefficient_nonneg).mp ⟨c, h⟩
  rwa [ha.value_eq, hb.value_eq, ← Nat.cast_add, fits_natCast] at hfits

/-- A product of natural numbers that is not lost is below the limit. -/
theorem lt_of_mul? {c : Decimal} (h : a.mul? b = some c) : m * n < limit := by
  have hprod : a.coefficient * b.coefficient = ((m * n : Nat) : Int) := by rw [ha.1, hb.1, Int.natCast_mul]
  have hfit : (∃ w, fit? ((m * n : Nat) : Int) (tenTo 0) 0 = some w) → m * n < limit := by
    intro hw
    have hfits := (exists_fit?_iff (Nat.pow_pos (show 0 < 10 by decide)) (Nat.zero_le _)).mp hw
    rwa [Nat.pow_zero, Nat.cast_one, div_one, fits_natCast] at hfits
  unfold Decimal.mul? at h
  simp only [ha.2, hb.2, hprod, Nat.add_zero, Nat.min_zero, Nat.not_lt_zero, if_false] at h
  split_ifs at h with hzero
  · have : m * n = 0 := by exact_mod_cast hzero
    rw [this]
    decide
  · exact hfit ⟨c, h⟩
  · obtain ⟨w, hw, -⟩ := Option.map_eq_some_iff.mp h
    exact hfit ⟨w, hw⟩

end IsWhole

end

/-! ### Digits -/

section

variable {ws fs : List Char} {c s m t : Nat}

private theorem readWhole_eq_some {ds : List Char} (hc : c < limit) (h : readWhole c ds = some m) :
    m = Nat.ofDigitChars 10 ds c ∧ m < limit := by
  induction ds generalizing c with
  | nil =>
    cases h
    exact ⟨rfl, hc⟩
  | cons d ds ih =>
    rw [readWhole] at h
    split at h
    case isTrue hnext => exact ih hnext h
    case isFalse => cases h

private theorem roundUpAt_bounds {digit : Nat} (hc : c < limit) (hs : s ≤ maxScale)
    (h : roundUpAt c s digit = some (m, t)) :
    m < limit ∧ t ≤ maxScale := by
  unfold roundUpAt at h
  split at h
  · cases h
    exact ⟨hc, hs⟩
  split at h
  case isTrue hnext =>
    cases h
    exact ⟨hnext, hs⟩
  case isFalse =>
    split at h
    · cases h
    · cases h
      exact ⟨by rw [limit_eq] at hc ⊢; omega, Nat.le_of_succ_le hs⟩

private theorem readFraction_bounds (hc : c < limit) (hs : s ≤ maxScale) (h : readFraction c s fs = some (m, t)) :
    m < limit ∧ t ≤ maxScale := by
  induction fs generalizing c s with
  | nil =>
    cases h
    exact ⟨hc, hs⟩
  | cons d ds ih =>
    rw [readFraction] at h
    split at h
    case isTrue hnext => exact ih hnext.2 hnext.1 h
    case isFalse => exact roundUpAt_bounds hc hs h

/-- Behind a place that was read, nothing is lost any more. -/
theorem exists_readFraction_succ (c s : Nat) (ds : List Char) : ∃ p, readFraction c (s + 1) ds = some p := by
  induction ds generalizing c s with
  | nil => exact ⟨_, rfl⟩
  | cons d ds ih =>
    rw [readFraction]
    split
    · exact ih _ _
    · unfold roundUpAt
      split
      · exact ⟨_, rfl⟩
      split <;> exact ⟨_, rfl⟩

private theorem exists_roundUpAt_iff {digit : Nat} :
    (∃ p, roundUpAt c 0 digit = some p) ↔ digit < 5 ∨ c + 1 < limit := by
  unfold roundUpAt
  split
  case isTrue h => exact iff_of_true ⟨_, rfl⟩ (.inl h)
  case isFalse h =>
    split
    case isTrue h' => exact iff_of_true ⟨_, rfl⟩ (.inr h')
    case isFalse h' => exact iff_of_false (by rintro ⟨_, ⟨⟩⟩) (not_or.mpr ⟨h, h'⟩)

/-- The first place decides: it is lost if the number would be rounded to the limit there. -/
theorem exists_readFraction_iff (hc : c < limit) (hfs : ∀ d ∈ fs, d.isDigit) : (∃ p, readFraction c 0 fs = some p) ↔
    2 * (c * 10 ^ fs.length + digitsValue fs) + 10 ^ fs.length < 2 * (limit * 10 ^ fs.length) := by
  cases fs with
  | nil =>
    have hvalue : digitsValue [] = 0 := rfl
    refine iff_of_true ⟨_, rfl⟩ ?_
    rw [hvalue, List.length_nil, pow_zero, Nat.mul_one, Nat.mul_one]
    omega
  | cons d ds =>
    obtain ⟨hd, hds⟩ := List.forall_mem_cons.mp hfs
    have hrest := digitsValue_lt hds
    have hdigit := digitValue_lt hd
    rw [digitsValue_cons, List.length_cons, pow_succ, Nat.mul_comm (10 ^ ds.length) 10, Nat.mul_left_comm c,
      Nat.mul_left_comm limit, readFraction]
    have hscale : 0 < maxScale := by decide
    have hlimit : (c + 1) * 10 ^ ds.length ≤ limit * 10 ^ ds.length := Nat.mul_le_mul_right _ hc
    have hnine := Nat.mul_le_mul_right (10 ^ ds.length) (Nat.le_of_lt_succ hdigit)
    rw [Nat.add_mul] at hlimit
    split
    case isTrue hnext =>
      have hroom := Nat.mul_le_mul_right (10 ^ ds.length) (Nat.succ_le_of_lt hnext.2)
      rw [Nat.succ_mul, Nat.add_mul, Nat.mul_assoc] at hroom
      exact iff_of_true (exists_readFraction_succ _ _ _) (by omega)
    case isFalse =>
      rw [exists_roundUpAt_iff]
      obtain hlt | heq : c + 2 ≤ limit ∨ limit = c + 1 := by omega
      · have hroom := Nat.mul_le_mul_right (10 ^ ds.length) hlt
        rw [Nat.add_mul] at hroom
        exact iff_of_true (.inr hlt) (by omega)
      · -- at the limit, the digit is all that matters
        rw [heq, Nat.add_mul]
        obtain hsmall | hlarge := Nat.lt_or_ge (digitValue d) 5
        · have hfour := Nat.mul_le_mul_right (10 ^ ds.length) (Nat.le_of_lt_succ hsmall)
          exact iff_of_true (.inl hsmall) (by omega)
        · have hfive := Nat.mul_le_mul_right (10 ^ ds.length) hlarge
          exact iff_of_false (by omega) (by omega)

/-- Digits of a decimal are read to the last one that is not zero. -/
theorem readFraction_exact {k e : Nat} (hfs : ∀ d ∈ fs, d.isDigit) (hk : k < limit) (he : e ≤ maxScale)
    (h : (c * 10 ^ fs.length + digitsValue fs) * 10 ^ e = k * 10 ^ (s + fs.length)) :
    ∃ m t, readFraction c s fs = some (m, t) ∧ m * 10 ^ e = k * 10 ^ t := by
  induction fs generalizing c s with
  | nil => exact ⟨c, s, rfl, by simpa [digitsValue] using h⟩
  | cons d ds ih =>
    obtain ⟨hd, hds⟩ := List.forall_mem_cons.mp hfs
    rw [readFraction]
    split
    case isTrue =>
      refine ih hds ?_
      rw [digitsValue_cons, List.length_cons] at h
      calc ((10 * c + digitValue d) * 10 ^ ds.length + digitsValue ds) * 10 ^ e
          = (c * 10 ^ (ds.length + 1) + (digitValue d * 10 ^ ds.length + digitsValue ds)) * 10 ^ e := by ring
        _ = k * 10 ^ (s + 1 + ds.length) := by rw [h]; ring
    case isFalse hstop =>
      obtain hle | hlt := (Nat.lt_or_ge s e).symm
      · -- what is left has no places, and so there is nothing left
        obtain ⟨j, rfl⟩ := Nat.exists_eq_add_of_le hle
        have hwhole : c * 10 ^ (d :: ds).length + digitsValue (d :: ds) = k * 10 ^ j * 10 ^ (d :: ds).length := by
          refine Nat.eq_of_mul_eq_mul_right (show 0 < 10 ^ e by positivity) (h.trans ?_)
          ring
        have hzero : digitsValue (d :: ds) = 0 := by
          have hmod := congrArg (· % 10 ^ (d :: ds).length) hwhole
          simp only [Nat.mul_add_mod_self_right, Nat.mul_mod_left] at hmod
          rwa [Nat.mod_eq_of_lt (digitsValue_lt hfs)] at hmod
        have hdigit : digitValue d = 0 := by
          have hpos : 10 ^ ds.length ≠ 0 := Nat.ne_of_gt (by positivity)
          rw [digitsValue_cons, Nat.add_eq_zero_iff, Nat.mul_eq_zero] at hzero
          exact hzero.1.resolve_right hpos
        refine ⟨c, e + j, by rw [hdigit]; rfl, ?_⟩
        rw [hzero, Nat.add_zero] at hwhole
        rw [Nat.eq_of_mul_eq_mul_right (show 0 < 10 ^ (d :: ds).length by positivity) hwhole]
        ring
      · -- there is room for another place of a coefficient below the limit
        refine absurd ⟨hlt.trans_le he, lt_of_le_of_lt ?_ hk⟩ hstop
        obtain ⟨j, rfl⟩ := Nat.exists_eq_add_of_lt hlt
        refine Nat.le_of_mul_le_mul_right (c := 10 ^ (s + (ds.length + 1))) ?_ (by positivity)
        rw [digitsValue_cons, List.length_cons] at h
        rw [← h]
        calc (10 * c + digitValue d) * 10 ^ (s + (ds.length + 1))
            = (10 * c + digitValue d) * 10 ^ ds.length * 10 ^ (s + 1) := by ring
          _ ≤ (c * 10 ^ (ds.length + 1) + (digitValue d * 10 ^ ds.length + digitsValue ds)) * 10 ^ (s + 1) := by
            refine Nat.mul_le_mul_right _ (le_of_eq_of_le ?_ (Nat.add_le_add_left (Nat.le_add_right _ _) _))
            ring
          _ ≤ _ := Nat.mul_le_mul_left _ (Nat.pow_le_pow_right (by decide) (by omega))

/-- What has been read of the digits makes a decimal. -/
theorem ofDigits?_of_readFraction (hws : digitsValue ws < limit)
    (h : readFraction (digitsValue ws) 0 fs = some (m, t)) :
    ∃ d, ofDigits? false ws fs = some d ∧ d.coefficient = m ∧ d.scale = t := by
  obtain ⟨hm, ht⟩ := readFraction_bounds hws (Nat.zero_le _) h
  exact ofDigits?_eq (readWhole_eq hws) h rfl (by rwa [Int.natAbs_natCast]) ht

theorem readFraction_of_ofDigits? {d : Decimal} (h : ofDigits? false ws fs = some d) : digitsValue ws < limit ∧
    ∃ m t, readFraction (digitsValue ws) 0 fs = some (m, t) ∧ d.coefficient = m ∧ d.scale = t := by
  simp only [ofDigits?, Option.bind_eq_bind, Option.bind_eq_some_iff] at h
  obtain ⟨n, hwhole, ⟨m, t⟩, hfraction, hmk⟩ := h
  obtain ⟨rfl, hlt⟩ := readWhole_eq_some (by decide) hwhole
  refine ⟨hlt, m, t, hfraction, ?_⟩
  simp only [Bool.false_eq_true, if_false] at hmk
  unfold mk? at hmk
  split at hmk
  case isTrue =>
    cases hmk
    exact ⟨rfl, rfl⟩
  case isFalse => cases hmk

theorem ofDigits?_nonneg {d : Decimal} (h : ofDigits? false ws fs = some d) : 0 ≤ d.coefficient := by
  obtain ⟨-, m, t, -, hm, -⟩ := readFraction_of_ofDigits? h
  rw [hm]
  exact Int.natCast_nonneg m

variable (ws) in
/-- Digits are lost only if their number does not fit. -/
theorem exists_ofDigits?_iff (hfs : ∀ d ∈ fs, d.isDigit) : (∃ d, ofDigits? false ws fs = some d) ↔
    Fits (digitsValue (ws ++ fs) / (10 ^ fs.length : Nat)) := by
  rw [fits_div_iff (by positivity), digitsValue_append]
  obtain hws | hws := Nat.lt_or_ge (digitsValue ws) limit
  · rw [← exists_readFraction_iff hws hfs]
    constructor
    · rintro ⟨d, hd⟩
      obtain ⟨-, m, t, h, -⟩ := readFraction_of_ofDigits? hd
      exact ⟨_, h⟩
    · rintro ⟨⟨m, t⟩, h⟩
      obtain ⟨d, hd, -⟩ := ofDigits?_of_readFraction hws h
      exact ⟨d, hd⟩
  · have hmul := Nat.mul_le_mul_right (10 ^ fs.length) hws
    have hpos : 0 < 10 ^ fs.length := by positivity
    refine iff_of_false (fun ⟨d, hd⟩ => ?_) (by omega)
    exact absurd (readFraction_of_ofDigits? hd).1 (Nat.not_lt.mpr hws)

variable (ws) in
/-- Digits of a decimal are read without a loss. -/
theorem ofDigits?_value (hfs : ∀ d ∈ fs, d.isDigit)
    (h : ∃ p : Decimal, p.value = digitsValue (ws ++ fs) / 10 ^ fs.length) :
    ∃ d, ofDigits? false ws fs = some d ∧ d.value = digitsValue (ws ++ fs) / 10 ^ fs.length := by
  obtain ⟨p, hp⟩ := h
  rw [← Int.cast_natCast (digitsValue (ws ++ fs))] at hp
  obtain ⟨k, e, hk, hlt, -, he, hvalue⟩ := exists_coefficient hp
  obtain ⟨k, rfl⟩ : ∃ k' : Nat, k = k' := Int.eq_ofNat_of_zero_le (by
    have hpos : (0 : Int) < 10 ^ fs.length := by positivity
    refine nonneg_of_mul_nonneg_left ?_ hpos
    rw [← hk]
    positivity)
  rw [Int.natAbs_natCast] at hlt
  have hnat : (digitsValue ws * 10 ^ fs.length + digitsValue fs) * 10 ^ e = k * 10 ^ (0 + fs.length) := by
    rw [← digitsValue_append, Nat.zero_add]
    exact_mod_cast hk
  have hws : digitsValue ws < limit := by
    refine lt_of_le_of_lt (Nat.le_of_mul_le_mul_right (c := 10 ^ (0 + fs.length)) ?_ (by positivity)) hlt
    rw [← hnat, Nat.zero_add]
    exact (Nat.le_add_right _ _).trans (Nat.le_mul_of_pos_right _ (by positivity))
  obtain ⟨m, t, hread, hexact⟩ := readFraction_exact hfs hlt he hnat
  obtain ⟨d, hd, hdc, hds⟩ := ofDigits?_of_readFraction hws hread
  refine ⟨d, hd, ?_⟩
  rw [← Int.cast_natCast (digitsValue (ws ++ fs)), ← hp, hvalue, value, hdc, hds,
    div_eq_div_iff (by positivity) (by positivity)]
  exact_mod_cast hexact

end

end Decimal

end LazyXPath
