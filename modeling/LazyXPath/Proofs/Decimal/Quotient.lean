import LazyXPath.Decimal.Quotient
import LazyXPath.Proofs.RoundTrip.Number
import Mathlib.Tactic.Linarith
import Mathlib.Tactic.Ring
import Mathlib.Tactic.SplitIfs

/-!
# Quotients of decimals are the nearest ones

`Decimal.Nearest n d c s` says that `c / 10 ^ s` is the decimal nearest to the fraction `n / d`: the
fraction rounded half to even at the largest scale at which it fits, or an exact value. It determines the
value (`Decimal.Nearest.value_unique`), and both `Decimal.fit?` and the long division of `Decimal.div?`
arrive at it, the latter a few places at a time (`Decimal.extend_nearest`).

Rounding may carry a quotient just below an integer to that integer, and then its integer part is one too
large. `Decimal.KeepsWhole n d` says that this does not happen, which is certain if `5 * n` is below the
limit of coefficients (`Decimal.keepsWhole_of_lt`).
-/

namespace LazyXPath

/-! ### Rounding half to even -/

section

variable {n m d x c r : Nat}

theorem roundHalfEven_eq (hx : x = c * d + r) (hr : r < d) :
    roundHalfEven x d = if d < 2 * r || (d == 2 * r && c % 2 == 1) then c + 1 else c := by
  have hd : 0 < d := by omega
  have hq : x / d = c := by rw [hx, Nat.mul_comm, Nat.mul_add_div hd, Nat.div_eq_of_lt hr, Nat.add_zero]
  have hm : x % d = r := by rw [hx, Nat.mul_comm, Nat.mul_add_mod, Nat.mod_eq_of_lt hr]
  simp only [roundHalfEven, hq, hm, Bool.or_eq_true, Bool.and_eq_true, decide_eq_true_eq, beq_iff_eq]
  split_ifs <;> omega

/-- Rounding to a place from the place behind it, of which nothing but the digit and whether there is more
matters. -/
theorem roundHalfEven_tens (hx : 10 * x = c * d + r) (hr : r < d) :
    roundHalfEven x d =
      if 5 < c % 10 || (c % 10 == 5 && (r != 0 || c / 10 % 2 == 1)) then c / 10 + 1 else c / 10 := by
  have hsplit : c * d = 10 * (c / 10 * d) + c % 10 * d := by
    rw [← Nat.mul_assoc, ← Nat.add_mul, Nat.div_add_mod]
  have hdigit : c % 10 * d ≤ 9 * d := Nat.mul_le_mul_right d (by omega)
  obtain ⟨y, hy⟩ : ∃ y, x = c / 10 * d + y := ⟨x - c / 10 * d, by omega⟩
  have hten : 10 * y = c % 10 * d + r := by omega
  rw [roundHalfEven_eq hy (by omega)]
  -- the last digit decides on which side of the middle the rest is
  obtain hlow | hmid | hhigh : c % 10 ≤ 4 ∨ c % 10 = 5 ∨ 6 ≤ c % 10 := by omega
  · have : c % 10 * d ≤ 4 * d := Nat.mul_le_mul_right d hlow
    simp only [Bool.or_eq_true, Bool.and_eq_true, decide_eq_true_eq, beq_iff_eq, bne_iff_ne]
    split_ifs <;> omega
  · rw [hmid] at hten ⊢
    simp only [Bool.or_eq_true, Bool.and_eq_true, decide_eq_true_eq, beq_iff_eq, bne_iff_ne, true_and]
    split_ifs <;> omega
  · have : 6 * d ≤ c % 10 * d := Nat.mul_le_mul_right d hhigh
    simp only [Bool.or_eq_true, Bool.and_eq_true, decide_eq_true_eq, beq_iff_eq, bne_iff_ne]
    split_ifs <;> omega

private theorem div_le_roundHalfEven (n d : Nat) : n / d ≤ roundHalfEven n d := by
  unfold roundHalfEven
  dsimp only
  split_ifs <;> omega

theorem roundHalfEven_le (n d : Nat) : roundHalfEven n d ≤ n / d + 1 := by
  unfold roundHalfEven
  dsimp only
  split_ifs <;> omega

theorem roundHalfEven_mul_right (hd : 0 < d) (c : Nat) : roundHalfEven (c * d) d = c := by
  rw [roundHalfEven_eq (Nat.add_zero (c * d)).symm hd]
  simp [hd.ne']

theorem roundHalfEven_mono (d : Nat) (h : n ≤ m) : roundHalfEven n d ≤ roundHalfEven m d := by
  obtain hlt | heq := (Nat.div_le_div_right (c := d) h).lt_or_eq
  · exact (roundHalfEven_le n d).trans (Nat.succ_le_of_lt hlt |>.trans (div_le_roundHalfEven m d))
  · have hn := Nat.div_add_mod n d
    have hm := Nat.div_add_mod m d
    rw [heq] at hn
    have hmod : n % d ≤ m % d := by omega
    unfold roundHalfEven
    dsimp only
    rw [heq]
    split_ifs <;> omega

/-- The rounded quotient is too large by at most a half. -/
theorem two_mul_roundHalfEven_mul_le (n : Nat) (hd : 0 < d) : 2 * (roundHalfEven n d * d) ≤ 2 * n + d := by
  have hn := Nat.div_add_mod' n d
  rw [roundHalfEven_eq hn.symm (Nat.mod_lt n hd)]
  split
  case isTrue h =>
    simp only [Bool.or_eq_true, Bool.and_eq_true, decide_eq_true_eq, beq_iff_eq] at h
    rw [Nat.add_mul]
    omega
  case isFalse => omega

end

namespace Decimal

theorem limit_eq : limit = 79228162514264337593543950336 := by decide

/-! ### The nearest decimal -/

/-- The decimal nearest to `n / d`: what the fraction is rounded to at a scale where this is exact, or at the
largest scale where it fits. -/
def Nearest (n d c s : Nat) : Prop :=
  ∃ t ≤ maxScale, roundHalfEven (n * 10 ^ t) d < limit ∧ c * 10 ^ t = roundHalfEven (n * 10 ^ t) d * 10 ^ s ∧
    (d ∣ n * 10 ^ t ∨ t = maxScale ∨ limit ≤ roundHalfEven (n * 10 ^ (t + 1)) d)

namespace Nearest

variable {n d c s c' s' : Nat}

/-- It is a matter of the value only. -/
theorem congr (h : Nearest n d c s) (hc : c' * 10 ^ s = c * 10 ^ s') : Nearest n d c' s' := by
  obtain ⟨t, ht, hlt, hvalue, hlargest⟩ := h
  refine ⟨t, ht, hlt, ?_, hlargest⟩
  have hpos : 0 < 10 ^ s := by positivity
  refine Nat.eq_of_mul_eq_mul_right hpos ?_
  calc c' * 10 ^ t * 10 ^ s = c' * 10 ^ s * 10 ^ t := by ring
    _ = c * 10 ^ t * 10 ^ s' := by rw [hc]; ring
    _ = roundHalfEven (n * 10 ^ t) d * 10 ^ s' * 10 ^ s := by rw [hvalue]; ring

/-- There is one nearest value. -/
theorem value_unique (hd : 0 < d) (h : Nearest n d c s) (h' : Nearest n d c' s') : c' * 10 ^ s = c * 10 ^ s' := by
  obtain ⟨t, ht, hlt, hvalue, hlargest⟩ := h
  obtain ⟨t', ht', hlt', hvalue', hlargest'⟩ := h'
  wlog hle : t ≤ t' generalizing c s c' s' t t'
  · exact (this t' ht' hlt' hvalue' hlargest' t ht hlt hvalue hlargest (by omega)).symm
  have hscaled : roundHalfEven (n * 10 ^ t') d * 10 ^ t = roundHalfEven (n * 10 ^ t) d * 10 ^ t' := by
    obtain ⟨k, rfl⟩ := Nat.exists_eq_add_of_le hle
    obtain rfl | hk := Nat.eq_zero_or_pos k
    · rfl
    obtain ⟨u, hu⟩ | hmax | hlimit := hlargest
    -- an exact value stays exact at a larger scale
    · have hu' : n * 10 ^ (t + k) = u * 10 ^ k * d := by rw [pow_add, ← Nat.mul_assoc, hu]; ring
      rw [hu', hu, Nat.mul_comm d u, roundHalfEven_mul_right hd, roundHalfEven_mul_right hd]
      ring
    · omega
    · have hmono := roundHalfEven_mono d
        (Nat.mul_le_mul_left n (Nat.pow_le_pow_right (n := 10) (by decide) (show t + 1 ≤ t + k by omega)))
      omega
  have hpos : 0 < 10 ^ t * 10 ^ t' := by positivity
  refine Nat.eq_of_mul_eq_mul_right hpos ?_
  calc c' * 10 ^ s * (10 ^ t * 10 ^ t') = c' * 10 ^ t' * 10 ^ t * 10 ^ s := by ring
    _ = roundHalfEven (n * 10 ^ t') d * 10 ^ t * (10 ^ s' * 10 ^ s) := by rw [hvalue']; ring
    _ = roundHalfEven (n * 10 ^ t) d * 10 ^ s * 10 ^ t' * 10 ^ s' := by rw [hscaled]; ring
    _ = c * 10 ^ s' * (10 ^ t * 10 ^ t') := by rw [← hvalue]; ring

end Nearest

/-- The coefficient of a fraction that is not negative. -/
theorem coefficientAt_natCast {d : Nat} (hd : 0 < d) (n t : Nat) :
    coefficientAt n d t = roundHalfEven (n * 10 ^ t) d := by
  obtain rfl | hn := Nat.eq_zero_or_pos n
  · have hzero : roundHalfEven 0 d = 0 := by simpa using roundHalfEven_mul_right hd 0
    simp [coefficientAt, hzero]
  · simp [coefficientAt, Int.sign_eq_one_of_pos (Int.natCast_pos.mpr hn)]

/-- `fit?` finds the nearest decimal if it tries from a scale above which nothing fits. -/
theorem fit?_nearest {n d : Nat} (hd : 0 < d) {S : Nat} (hS : S ≤ maxScale)
    (habove : S = maxScale ∨ limit ≤ roundHalfEven (n * 10 ^ (S + 1)) d) :
    match fit? n d S with
    | some q => 0 ≤ q.coefficient ∧ Nearest n d q.coefficient.natAbs q.scale
    | none => limit ≤ roundHalfEven n d := by
  have hcoef := coefficientAt_natCast hd n
  have hfound : ∀ t ≤ S, (t = maxScale ∨ limit ≤ roundHalfEven (n * 10 ^ (t + 1)) d) → ∀ q,
      mk? (coefficientAt n d t) t = some q → 0 ≤ q.coefficient ∧ Nearest n d q.coefficient.natAbs q.scale := by
    intro t ht hlargest q hq
    rw [hcoef] at hq
    unfold mk? at hq
    split at hq
    case isTrue hfits =>
      cases hq
      exact ⟨Int.natCast_nonneg _, t, ht.trans hS, by simpa using hfits.1, by simp, .inr hlargest⟩
    case isFalse => cases hq
  have hlost : ∀ t ≤ S, mk? (coefficientAt n d t) t = none → limit ≤ roundHalfEven (n * 10 ^ t) d := by
    intro t ht hq
    rw [hcoef] at hq
    unfold mk? at hq
    split at hq
    case isTrue => cases hq
    case isFalse hfits =>
      by_contra hlt
      exact hfits ⟨by simpa using Nat.lt_of_not_le hlt, ht.trans hS⟩
  induction S with
  | zero =>
    rw [fit?]
    cases hq : mk? (coefficientAt n d 0) 0 with
    | some q => exact hfound 0 le_rfl habove q hq
    | none => simpa using hlost 0 le_rfl hq
  | succ S ih =>
    rw [fit?]
    cases hq : mk? (coefficientAt n d (S + 1)) (S + 1) with
    | some q => exact hfound (S + 1) le_rfl habove q hq
    | none =>
      exact ih (by omega) (.inr (hlost (S + 1) le_rfl hq)) (fun t ht => hfound t (by omega))
        fun t ht => hlost t (by omega)

/-! ### Long division -/

section

variable {n d w c s : Nat} {t : Int} {v : Division}

/-- Taking off zeros keeps the value, and enlarges neither the coefficient nor the scale. -/
theorem shorten_value {m k : Nat} (hm : tenTo k ∣ m) (p : Nat × Nat) :
    (shorten m k p).1 * 10 ^ p.2 = p.1 * 10 ^ (shorten m k p).2 ∧ (shorten m k p).1 ≤ p.1 ∧
      (shorten m k p).2 ≤ p.2 := by
  unfold shorten
  split
  case isTrue h =>
    obtain ⟨u, hu⟩ := hm.trans (Nat.dvd_of_mod_eq_zero h.2)
    have hten : tenTo k = 10 ^ k := rfl
    rw [hten] at hu ⊢
    refine ⟨?_, Nat.div_le_self _ _, Nat.sub_le _ _⟩
    rw [hu, Nat.mul_div_cancel_left u (by positivity), ← Nat.sub_add_cancel h.1, pow_add]
    simp only [Nat.add_sub_cancel]
    ring
  case isFalse => exact ⟨rfl, le_rfl, le_rfl⟩

private theorem shortenAll_value (p : Nat × Nat) :
    (shortenAll p).1 * 10 ^ p.2 = p.1 * 10 ^ (shortenAll p).2 ∧ (shortenAll p).1 ≤ p.1 ∧
      (shortenAll p).2 ≤ p.2 := by
  -- the three facts are passed on from one step to the next
  have trans : ∀ {p q r : Nat × Nat},
      (q.1 * 10 ^ p.2 = p.1 * 10 ^ q.2 ∧ q.1 ≤ p.1 ∧ q.2 ≤ p.2) →
      (r.1 * 10 ^ q.2 = q.1 * 10 ^ r.2 ∧ r.1 ≤ q.1 ∧ r.2 ≤ q.2) →
      r.1 * 10 ^ p.2 = p.1 * 10 ^ r.2 ∧ r.1 ≤ p.1 ∧ r.2 ≤ p.2 := by
    rintro p q r ⟨hpq, hc, hs⟩ ⟨hqr, hc', hs'⟩
    refine ⟨?_, hc'.trans hc, hs'.trans hs⟩
    refine Nat.eq_of_mul_eq_mul_right (show 0 < 10 ^ q.2 by positivity) ?_
    calc r.1 * 10 ^ p.2 * 10 ^ q.2 = r.1 * 10 ^ q.2 * 10 ^ p.2 := by ring
      _ = q.1 * 10 ^ p.2 * 10 ^ r.2 := by rw [hqr]; ring
      _ = p.1 * 10 ^ r.2 * 10 ^ q.2 := by rw [hpq]; ring
  have height : tenTo 8 ∣ twoTo 24 * tenTo 8 := Nat.dvd_mul_left _ _
  unfold shortenAll
  exact trans (trans (trans (trans (trans (shorten_value height p) (shorten_value height _))
    (shorten_value height _)) (shorten_value dvd_rfl _)) (shorten_value dvd_rfl _))
    (shorten_value (by decide) _)

/-- What a division returns: the nearest decimal, or nothing if not even the integer part fits. -/
def Finds (n d : Nat) : Option (Nat × Nat) → Prop
  | some p => p.1 < limit ∧ p.2 ≤ maxScale ∧ Nearest n d p.1 p.2
  | none => limit ≤ roundHalfEven n d

private theorem Finds.shortenAll {n d : Nat} {r : Option (Nat × Nat)} (h : Finds n d r) :
    Finds n d (r.map shortenAll) := by
  cases r with
  | none => exact h
  | some p =>
    obtain ⟨hvalue, hc, hs⟩ := shortenAll_value p
    exact ⟨hc.trans_lt h.1, hs.trans h.2.1, h.2.2.congr hvalue⟩

/-- If a coefficient reaches the limit before the scale reaches zero, the integer part does not fit. -/
theorem limit_le_of_scale {e r j : Nat} (he : 0 < e) (hv : n * 10 ^ t.toNat = (c * e + r) * 10 ^ (-t).toNat)
    (hj : t + j ≤ 0) (hc : limit ≤ c * 10 ^ j) : limit ≤ roundHalfEven n e := by
  refine le_trans ?_ (div_le_roundHalfEven n e)
  rw [Nat.le_div_iff_mul_le he]
  have ht : t.toNat = 0 := by omega
  rw [ht, pow_zero, Nat.mul_one] at hv
  calc limit * e ≤ c * 10 ^ j * e := Nat.mul_le_mul_right e hc
    _ = c * e * 10 ^ j := by ring
    _ ≤ (c * e + r) * 10 ^ (-t).toNat :=
      Nat.mul_le_mul (Nat.le_add_right _ _) (Nat.pow_le_pow_right (by decide) (by omega))
    _ = n := hv.symm

/-- Extending a quotient by places keeps what it stands for. -/
theorem extended_value {r k : Nat} (hv : n * 10 ^ t.toNat = (c * (d * w) + r * w) * 10 ^ (-t).toNat) :
    n * 10 ^ (t + k).toNat =
      ((c * 10 ^ k + r * 10 ^ k / d) * (d * w) + r * 10 ^ k % d * w) * 10 ^ (-(t + k)).toNat := by
  have hstep : (c * 10 ^ k + r * 10 ^ k / d) * (d * w) + r * 10 ^ k % d * w = (c * (d * w) + r * w) * 10 ^ k := by
    calc (c * 10 ^ k + r * 10 ^ k / d) * (d * w) + r * 10 ^ k % d * w
        = (c * d * 10 ^ k + (d * (r * 10 ^ k / d) + r * 10 ^ k % d)) * w := by ring
      _ = (c * (d * w) + r * w) * 10 ^ k := by rw [Nat.div_add_mod]; ring
  rw [hstep]
  refine Nat.eq_of_mul_eq_mul_right (show 0 < 10 ^ (t.toNat + (-t).toNat) by positivity) ?_
  have hexp : (t + k).toNat + (-t).toNat = k + (-(t + k)).toNat + t.toNat := by omega
  calc n * 10 ^ (t + k).toNat * 10 ^ (t.toNat + (-t).toNat)
      = n * 10 ^ t.toNat * 10 ^ ((t + k).toNat + (-t).toNat) := by ring
    _ = (c * (d * w) + r * w) * 10 ^ (-t).toNat * 10 ^ (k + (-(t + k)).toNat + t.toNat) := by rw [hv, hexp]
    _ = (c * (d * w) + r * w) * 10 ^ k * 10 ^ (-(t + k)).toNat * 10 ^ (t.toNat + (-t).toNat) := by ring

/-- A coefficient has room for the places that are counted, and for no more of them. -/
theorem room_spec (c : Nat) (t : Int) (m : Nat) :
    room c t m ≤ m ∧ (0 < room c t m → t + room c t m ≤ maxScale ∧ c * 10 ^ room c t m < limit) ∧
      (room c t m < m → maxScale < t + (room c t m + 1) ∨ limit ≤ c * 10 ^ (room c t m + 1)) := by
  induction m with
  | zero => exact ⟨le_rfl, fun h => absurd h (by simp [room]), fun h => absurd h (by simp)⟩
  | succ m ih =>
    unfold room
    split
    case isTrue h => exact ⟨le_rfl, fun _ => h, fun hlt => absurd hlt (lt_irrefl _)⟩
    case isFalse h =>
      refine ⟨ih.1.trans (Nat.le_succ m), ih.2.1, fun _ => ?_⟩
      obtain hlt | heq := ih.1.lt_or_eq
      · exact ih.2.2 hlt
      · rw [heq]
        rw [not_and_or, not_le, not_lt] at h
        exact_mod_cast h

/-- A coefficient that outgrew the limit, by less than nine places, is rounded at the place before. -/
theorem giveUpPlace_finds {e r : Nat} {more : Bool} (hr : r < e) (hmore : more = (r != 0)) (ht : t ≤ maxScale)
    (hv : n * 10 ^ t.toNat = (c * e + r) * 10 ^ (-t).toNat) (hc : limit ≤ c) (hlt : c < limit + 10 ^ 9) :
    Finds n e (giveUpPlace c t more) := by
  have he : 0 < e := by omega
  rw [giveUpPlace, if_neg (by omega)]
  split
  case isTrue hle => exact limit_le_of_scale (j := 0) he hv (by omega) (by simpa using hc)
  case isFalse hpos =>
    obtain ⟨u, rfl⟩ : ∃ u : Nat, t = u + 1 := ⟨(t - 1).toNat, by omega⟩
    have hneg : (-((u : Int) + 1)).toNat = 0 := by omega
    have hnat : ((u : Int) + 1).toNat = u + 1 := by omega
    have hpred : ((u : Int) + 1 - 1).toNat = u := by omega
    rw [hneg, hnat, pow_zero, Nat.mul_one] at hv
    have hround := roundHalfEven_tens (x := n * 10 ^ u) (by rw [← hv]; ring) hr
    rw [hpred, hmore]
    dsimp only
    rw [← hround]
    have hsmall : roundHalfEven (n * 10 ^ u) e < limit := by
      rw [limit_eq] at *
      rw [hround]
      split_ifs <;> omega
    refine ⟨hsmall, by omega, u, by omega, hsmall, rfl, .inr (.inr ?_)⟩
    refine hc.trans (le_trans ?_ (div_le_roundHalfEven _ _))
    rw [hv, Nat.le_div_iff_mul_le he]
    exact Nat.le_add_right _ _

/-- What a division keeps: coefficient and rest stand for `n / (d * w)`, and both are in range. -/
structure Division.Tracks (n d w : Nat) (v : Division) : Prop where
  rest_lt : v.rest < d
  coefficient_lt : v.coefficient < limit
  scale_le : v.scale ≤ maxScale
  value : n * 10 ^ v.scale.toNat =
    (v.coefficient * (d * w) + v.rest * w) * 10 ^ (-v.scale).toNat

/-- Rounding the last place, when there is no room for another one. -/
theorem Division.Tracks.round_finds (h : v.Tracks n d w) (hw : 0 < w) (hscale : 0 ≤ v.scale) (hrest : v.rest ≠ 0)
    (hroom : maxScale < v.scale + 1 ∨ limit ≤ v.coefficient * 10) : Finds n (d * w) (v.round d) := by
  obtain ⟨t, ht⟩ := Int.eq_ofNat_of_zero_le hscale
  have hvalue := h.value
  have hle := h.scale_le
  have hlimit := h.coefficient_lt
  rw [ht] at hvalue hle hroom
  have hnat : (-(t : Int)).toNat = 0 := by omega
  rw [Int.toNat_natCast, hnat, pow_zero, Nat.mul_one] at hvalue
  have hrest_lt : v.rest * w < d * w := Nat.mul_lt_mul_of_pos_right h.rest_lt hw
  have hround := roundHalfEven_eq hvalue hrest_lt
  have hup : (decide (d * w < 2 * (v.rest * w)) || (d * w == 2 * (v.rest * w) && v.coefficient % 2 == 1)) =
      (decide (d < 2 * v.rest) || (d == 2 * v.rest && v.coefficient % 2 == 1)) := by
    rw [← Nat.mul_assoc, Bool.eq_iff_iff]
    simp [Nat.mul_lt_mul_right hw, hw.ne']
  rw [hup] at hround
  have hdw : 0 < d * w := by omega
  rw [Division.round, ht, ← hround]
  by_cases hfits : roundHalfEven (n * 10 ^ t) (d * w) < limit
  · rw [giveUpPlace, if_pos hfits]
    refine ⟨hfits, by simpa using hle, t, by omega, hfits, rfl, .inr ?_⟩
    refine hroom.imp (fun hmax => by omega) fun hfull => ?_
    refine hfull.trans (le_trans ?_ (div_le_roundHalfEven _ _))
    rw [pow_succ, ← Nat.mul_assoc, hvalue, Nat.le_div_iff_mul_le hdw]
    linarith [Nat.zero_le (v.rest * w)]
  · -- only the largest coefficient can have been rounded to the limit
    have hlast : v.coefficient = limit - 1 ∧ roundHalfEven (n * 10 ^ t) (d * w) = limit := by
      rw [hround] at hfits ⊢
      split_ifs at hfits ⊢ <;> omega
    rw [hlast.2]
    cases t with
    | zero =>
      have hzero := hlast.2
      rw [pow_zero, Nat.mul_one] at hzero
      exact hzero.ge
    | succ u =>
      have htens := roundHalfEven_tens (x := n * 10 ^ u) (by rw [← hvalue]; ring) hrest_lt
      have hsticky : (v.rest * w != 0) = true := by simp [hrest, hw.ne']
      rw [hlast.1, hsticky] at htens
      have hgiven : giveUpPlace limit ((u + 1 : Nat) : Int) true =
          some (roundHalfEven (n * 10 ^ u) (d * w), u) := by
        rw [giveUpPlace, if_neg (lt_irrefl _), if_neg (by omega), htens]
        simp
      rw [hgiven]
      have hsmall : roundHalfEven (n * 10 ^ u) (d * w) < limit := by
        rw [htens]
        decide
      exact ⟨hsmall, by omega, u, by omega, hsmall, rfl, .inr (.inr hlast.2.ge)⟩

/-- By how many places a division is extended next. -/
def Division.places (v : Division) : Nat :=
  if v.rest = 0 then min 9 (-v.scale).toNat else room v.coefficient v.scale 9

/-- The number of places is within bounds; it is small only for want of room, or to reach the scale zero. -/
theorem Division.places_spec (hgo : ¬ (v.rest = 0 ∧ 0 ≤ v.scale)) (hle : v.scale ≤ maxScale) :
    v.places ≤ 9 ∧ v.scale + v.places ≤ maxScale ∧
      (0 < v.places → limit ≤ v.coefficient * 10 ^ v.places → v.scale + v.places ≤ 0) ∧
      (v.places < 9 → v.scale + v.places < 0 → limit ≤ v.coefficient * 10 ^ (v.places + 1)) ∧
      (v.places = 0 → v.rest ≠ 0 ∧ (maxScale < v.scale + 1 ∨ limit ≤ v.coefficient * 10)) := by
  by_cases hrest : v.rest = 0
  · have hneg : v.scale < 0 := by
      by_contra hneg
      exact hgo ⟨hrest, by omega⟩
    have hplaces : v.places = min 9 (-v.scale).toNat := if_pos hrest
    refine ⟨by omega, by omega, fun _ _ => by omega, fun _ _ => by omega, fun _ => by omega⟩
  · have hplaces : v.places = room v.coefficient v.scale 9 := if_neg hrest
    obtain ⟨hnine, hfits, hfull⟩ := room_spec v.coefficient v.scale 9
    rw [← hplaces] at hnine hfits hfull
    refine ⟨hnine, ?_, fun hpos hlimit => ?_, fun hlt hneg => ?_, fun hzero => ⟨hrest, ?_⟩⟩
    · obtain hzero | hpos := Nat.eq_zero_or_pos v.places
      · omega
      · exact (hfits hpos).1
    · exact absurd (hfits hpos).2 (Nat.not_lt.mpr hlimit)
    · exact (hfull hlt).resolve_left (by omega)
    · simpa [hzero] using hfull (by omega)

/-- A division that is over has found an exact value. -/
theorem Division.Tracks.exact_finds (h : v.Tracks n d w) (hdw : 0 < d * w) (hrest : v.rest = 0)
    (hscale : 0 ≤ v.scale) : Finds n (d * w) (some (v.coefficient, v.scale.toNat)) := by
  obtain ⟨t, ht⟩ := Int.eq_ofNat_of_zero_le hscale
  have hvalue := h.value
  have hle := h.scale_le
  rw [ht] at hvalue hle
  have hnat : (-(t : Int)).toNat = 0 := by omega
  rw [Int.toNat_natCast, hnat, pow_zero, Nat.mul_one, hrest, Nat.zero_mul, Nat.add_zero] at hvalue
  have hround : roundHalfEven (n * 10 ^ t) (d * w) = v.coefficient := by
    rw [hvalue, roundHalfEven_mul_right hdw]
  rw [ht]
  refine ⟨h.coefficient_lt, by simpa using hle, t, by omega, hround ▸ h.coefficient_lt, ?_, .inl ?_⟩
  · rw [hround]
    rfl
  · exact ⟨v.coefficient, by rw [hvalue, Nat.mul_comm]⟩

private theorem extend_of_unfinished {fuel : Nat} {inexact : Bool} (hgo : ¬ (v.rest = 0 ∧ 0 ≤ v.scale)) :
    extend d (fuel + 1) inexact v =
      if v.places < 9 ∧ v.scale + v.places < 0 then none
      else if v.places = 0 then (v.round d).map shortenAll
      else
        let c := v.coefficient * 10 ^ v.places
        let r := v.rest * 10 ^ v.places
        if limit ≤ c then none
        else if c + r / d < limit then
          extend d fuel (inexact || v.rest != 0) ⟨c + r / d, v.scale + v.places, r % d⟩
        else (giveUpPlace (c + r / d) (v.scale + v.places) (r % d != 0)).map shortenAll :=
  if_neg hgo

/-- **Long division finds the nearest decimal**, with enough rounds for the places that are left. -/
theorem extend_finds (hw : 0 < w) {fuel : Nat} {inexact : Bool} (h : v.Tracks n d w)
    (hfuel : maxScale - v.scale < fuel) : Finds n (d * w) (extend d fuel inexact v) := by
  induction fuel generalizing inexact v with
  | zero =>
    have := h.scale_le
    omega
  | succ fuel ih =>
    have hd : 0 < d := Nat.zero_lt_of_lt h.rest_lt
    have hdw : 0 < d * w := Nat.mul_pos hd hw
    by_cases hover : v.rest = 0 ∧ 0 ≤ v.scale
    · have hfinds := h.exact_finds hdw hover.1 hover.2
      rw [extend, if_pos hover]
      cases inexact with
      | true => exact hfinds.shortenAll
      | false => exact hfinds
    · obtain ⟨hnine, hmax, hfull, hshort, hnone⟩ := Division.places_spec hover h.scale_le
      have hvalue := extended_value (k := v.places) h.value
      rw [extend_of_unfinished hover]
      dsimp only
      split_ifs with hneg hzero hlimit hfits
      · exact limit_le_of_scale hdw h.value (by push_cast; omega) (hshort hneg.1 hneg.2)
      · obtain ⟨hrest, hroom⟩ := hnone hzero
        exact (h.round_finds hw (by omega) hrest hroom).shortenAll
      · exact limit_le_of_scale hdw h.value (hfull (by omega) hlimit) hlimit
      · exact ih ⟨Nat.mod_lt _ hd, hfits, hmax, hvalue⟩ (by dsimp only; omega)
      · have hsticky : (v.rest * 10 ^ v.places % d != 0) = (v.rest * 10 ^ v.places % d * w != 0) := by
          rw [Bool.eq_iff_iff]
          simp [hw.ne']
        have hquot : v.rest * 10 ^ v.places / d < 10 ^ 9 := by
          rw [Nat.div_lt_iff_lt_mul hd, Nat.mul_comm (10 ^ 9)]
          exact Nat.mul_lt_mul_of_lt_of_le h.rest_lt (Nat.pow_le_pow_right (by decide) hnine) (by decide)
        exact (giveUpPlace_finds (Nat.mul_lt_mul_of_pos_right (Nat.mod_lt _ hd) hw) hsticky hmax hvalue
          (Nat.le_of_not_lt hfits) (Nat.add_lt_add (Nat.lt_of_not_le hlimit) hquot)).shortenAll

end

/-! ### Quotients -/

section

variable (a b : Decimal)

/-- The dividend at the larger one of the two scales, without its sign. -/
def alignedLeft : Nat := (a.scaledTo (max a.scale b.scale)).natAbs

/-- The divisor at the larger one of the two scales, without its sign. -/
def alignedRight : Nat := (b.scaledTo (max a.scale b.scale)).natAbs

theorem alignedLeft_eq : a.alignedLeft b = a.coefficient.natAbs * 10 ^ (b.scale - a.scale) := by
  rw [alignedLeft, scaledTo, Int.natAbs_mul, Int.natAbs_natCast]
  congr 2
  omega

theorem alignedRight_eq : a.alignedRight b = b.coefficient.natAbs * 10 ^ (a.scale - b.scale) := by
  rw [alignedRight, scaledTo, Int.natAbs_mul, Int.natAbs_natCast]
  congr 2
  omega

variable {a b}

theorem alignedRight_pos (hb : b.coefficient ≠ 0) : 0 < a.alignedRight b := by
  rw [alignedRight_eq]
  have := Int.natAbs_pos.mpr hb
  positivity

/-- The integer quotient of the coefficients is where a division starts. -/
theorem tracks_start (a : Decimal) (hb : b.coefficient ≠ 0) :
    Division.Tracks (a.alignedLeft b) b.coefficient.natAbs (10 ^ (a.scale - b.scale))
      ⟨a.coefficient.natAbs / b.coefficient.natAbs, (a.scale : Int) - b.scale,
        a.coefficient.natAbs % b.coefficient.natAbs⟩ where
  rest_lt := Nat.mod_lt _ (Int.natAbs_pos.mpr hb)
  coefficient_lt := (Nat.div_le_self _ _).trans_lt a.coefficient_lt
  scale_le := by
    have : a.scale ≤ maxScale := a.scale_le
    dsimp only
    omega
  value := by
    have hpos : ((a.scale : Int) - b.scale).toNat = a.scale - b.scale := by omega
    have hneg : (-((a.scale : Int) - b.scale)).toNat = b.scale - a.scale := by omega
    rw [alignedLeft_eq, hpos, hneg, ← Nat.mul_assoc, ← Nat.add_mul, Nat.div_add_mod']
    ring

/-- A quotient has the sign that it should have and is the nearest decimal; it is missing only if its integer
part does not fit. -/
theorem div?_spec (hb : b.coefficient ≠ 0) :
    match a.div? b with
    | some q => q.coefficient = a.coefficient.sign * b.coefficient.sign * q.coefficient.natAbs ∧
        Nearest (a.alignedLeft b) (a.alignedRight b) q.coefficient.natAbs q.scale
    | none => limit ≤ roundHalfEven (a.alignedLeft b) (a.alignedRight b) := by
  have hright := alignedRight_pos (a := a) hb
  have hbzero : b.isZero = false := by simpa [isZero] using hb
  by_cases ha : a.coefficient = 0
  · have hazero : a.isZero = true := by simpa [isZero] using ha
    have hleft : a.alignedLeft b = 0 := by rw [alignedLeft_eq, ha, Int.natAbs_zero, Nat.zero_mul]
    have hround : roundHalfEven 0 (a.alignedRight b) = 0 := by simpa using roundHalfEven_mul_right hright 0
    simp only [div?, hbzero, hazero, if_true, Bool.false_eq_true, if_false, hleft]
    refine ⟨by simp [zero], 0, by omega, ?_⟩
    simp [hround, zero]
  · have hazero : a.isZero = false := by simpa [isZero] using ha
    have hfuel : (maxScale : Int) - ((a.scale : Int) - b.scale) < (58 : Nat) := by
      have hscale := b.scale_le
      have hmax : maxScale = 28 := rfl
      omega
    have hfinds : Finds _ _ (extend _ 58 false _) := extend_finds (by positivity) (tracks_start a hb) hfuel
    rw [← alignedRight_eq] at hfinds
    simp only [div?, hbzero, hazero, Bool.false_eq_true, if_false, Option.bind_eq_bind]
    cases hext : extend b.coefficient.natAbs 58 false ⟨a.coefficient.natAbs / b.coefficient.natAbs,
        (a.scale : Int) - b.scale, a.coefficient.natAbs % b.coefficient.natAbs⟩ with
    | none =>
      rw [hext] at hfinds
      exact hfinds
    | some p =>
      rw [hext] at hfinds
      obtain ⟨hlimit, hscale, hnearest⟩ := hfinds
      have hsign : (a.coefficient.sign * b.coefficient.sign * (p.1 : Int)).natAbs = p.1 := by
        rw [Int.natAbs_mul, Int.natAbs_mul, Int.natAbs_sign_of_ne_zero ha, Int.natAbs_sign_of_ne_zero hb]
        simp
      obtain ⟨q, hq, hqc, hqs⟩ := mk?_eq (by rwa [hsign]) hscale
      simp only [Option.bind_some, hq, hqc, hqs, hsign]
      exact ⟨trivial, hnearest⟩

/-! ### Integer parts -/

/-- Whether the decimal nearest to `n / d` has the integer part of `n / d`, and not the next one because it
was rounded up. -/
def KeepsWhole (n d : Nat) : Prop :=
  ∀ q, fit? n d maxScale = some q → q.toInt = (n / d : Nat)

instance (n d : Nat) : Decidable (KeepsWhole n d) :=
  match h : fit? n d maxScale with
  | none => isTrue fun q hq => absurd (h.symm.trans hq) (by simp)
  | some p =>
    if hp : p.toInt = (n / d : Nat) then isTrue fun q hq => Option.some.inj (h.symm.trans hq) ▸ hp
    else isFalse fun hk => hp (hk p h)

/-- Equal values have equal integer parts. -/
theorem div_eq_div_of_value {c s c' s' : Nat} (h : c' * 10 ^ s = c * 10 ^ s') : c' / 10 ^ s' = c / 10 ^ s := by
  have hs : 0 < 10 ^ s := by positivity
  have hs' : 0 < 10 ^ s' := by positivity
  rw [← Nat.mul_div_mul_right c' (10 ^ s') hs, h, Nat.mul_comm (10 ^ s') (10 ^ s),
    Nat.mul_div_mul_right c (10 ^ s) hs']

private theorem toInt_eq (q : Decimal) : q.toInt = q.coefficient.sign *
    (q.coefficient.natAbs / 10 ^ q.scale : Nat) := by
  have hpow : (tenTo q.scale : Int) = ((10 ^ q.scale : Nat) : Int) := rfl
  rw [toInt, hpow]
  obtain ⟨k, hk | hk⟩ := q.coefficient.eq_nat_or_neg
  · obtain rfl | hpos := Nat.eq_zero_or_pos k
    · simp [hk]
    · rw [hk, Int.natAbs_natCast, Int.sign_natCast_of_ne_zero hpos.ne', Int.one_mul, Int.ofNat_tdiv]
  · obtain rfl | hpos := Nat.eq_zero_or_pos k
    · simp [hk]
    · rw [hk, Int.natAbs_neg, Int.natAbs_natCast, Int.sign_neg, Int.sign_natCast_of_ne_zero hpos.ne',
        Int.neg_tdiv, Int.ofNat_tdiv, Int.neg_mul, Int.one_mul]

private theorem toInt_of_nonneg {q : Decimal} (h : 0 ≤ q.coefficient) :
    q.toInt = (q.coefficient.natAbs / 10 ^ q.scale : Nat) := by
  obtain hpos | hzero := h.lt_or_eq
  · rw [toInt_eq, Int.sign_eq_one_of_pos hpos, Int.one_mul]
  · simp [toInt_eq, ← hzero]

section

variable {n d c s : Nat}

/-- The nearest decimal fits as soon as the integer part does. -/
theorem Nearest.exists_fit? (hd : 0 < d) (h : Nearest n d c s) : ∃ p, fit? n d maxScale = some p ∧
    p.toInt = (c / 10 ^ s : Nat) := by
  have hfit := fit?_nearest (n := n) hd le_rfl (.inl rfl)
  cases hp : fit? n d maxScale with
  | none =>
    rw [hp] at hfit
    obtain ⟨t, -, hlt, -⟩ := h
    have hmono := roundHalfEven_mono d (Nat.le_mul_of_pos_right n (show 0 < 10 ^ t by positivity))
    exact absurd hlt (Nat.not_lt.mpr (hfit.trans hmono))
  | some p =>
    rw [hp] at hfit
    refine ⟨p, rfl, ?_⟩
    rw [toInt_of_nonneg hfit.1, div_eq_div_of_value (h.value_unique hd hfit.2)]

private theorem Nearest.keepsWhole_iff (hd : 0 < d) (h : Nearest n d c s) :
    KeepsWhole n d ↔ c / 10 ^ s = n / d := by
  obtain ⟨p, hp, hwhole⟩ := h.exists_fit? hd
  constructor
  · intro hk
    exact_mod_cast hwhole.symm.trans (hk p hp)
  · rintro hcs q hq
    obtain rfl := Option.some.inj (hp.symm.trans hq)
    rw [hwhole, hcs]

/-- Rounding at a place reaches the next integer only if the divisor is large against the place. -/
theorem two_mul_pow_le_of_carry {t : Nat} (hd : 0 < d) (h : (n / d + 1) * 10 ^ t ≤ roundHalfEven (n * 10 ^ t) d) :
    2 * 10 ^ t * ((n / d + 1) * d) ≤ 2 * 10 ^ t * n + d ∧ 2 * 10 ^ t ≤ d := by
  have hnext : n + 1 ≤ (n / d + 1) * d := by
    rw [Nat.mul_comm]
    exact Nat.lt_mul_div_succ n hd
  have hcarry : 2 * 10 ^ t * ((n / d + 1) * d) ≤ 2 * 10 ^ t * n + d := by
    calc 2 * 10 ^ t * ((n / d + 1) * d) = 2 * ((n / d + 1) * 10 ^ t * d) := by ring
      _ ≤ 2 * (roundHalfEven (n * 10 ^ t) d * d) := Nat.mul_le_mul_left 2 (Nat.mul_le_mul_right d h)
      _ ≤ 2 * (n * 10 ^ t) + d := two_mul_roundHalfEven_mul_le _ hd
      _ = 2 * 10 ^ t * n + d := by ring
  have hgap : 2 * 10 ^ t * (n + 1) ≤ 2 * 10 ^ t * ((n / d + 1) * d) := Nat.mul_le_mul_left _ hnext
  rw [Nat.mul_add, Nat.mul_one] at hgap
  exact ⟨hcarry, by omega⟩

/-- The integer part is kept, or it is one too large and the dividend has close to 96 bits. -/
theorem Nearest.whole_cases (hd : 0 < d) (h : Nearest n d c s) : c / 10 ^ s = n / d ∨
    c / 10 ^ s = n / d + 1 ∧ limit ≤ 5 * n := by
  obtain ⟨t, ht, -, hvalue, hlargest⟩ := h
  have hten : 0 < 10 ^ t := by positivity
  rw [(div_eq_div_of_value hvalue.symm).symm]
  have hfloor : n * 10 ^ t < (n / d + 1) * 10 ^ t * d := by
    rw [Nat.mul_right_comm]
    refine Nat.mul_lt_mul_of_pos_right ?_ hten
    rw [Nat.mul_comm]
    exact Nat.lt_mul_div_succ n hd
  have hlower : n / d ≤ roundHalfEven (n * 10 ^ t) d / 10 ^ t := by
    rw [Nat.le_div_iff_mul_le hten]
    refine le_trans ?_ (div_le_roundHalfEven _ _)
    rw [Nat.le_div_iff_mul_le hd, Nat.mul_right_comm]
    exact Nat.mul_le_mul_right _ (Nat.div_mul_le_self n d)
  have hupper : roundHalfEven (n * 10 ^ t) d ≤ (n / d + 1) * 10 ^ t :=
    (roundHalfEven_le _ _).trans (Nat.succ_le_of_lt ((Nat.div_lt_iff_lt_mul hd).mpr hfloor))
  obtain hlt | hge := Nat.lt_or_ge (roundHalfEven (n * 10 ^ t) d) ((n / d + 1) * 10 ^ t)
  · have := (Nat.div_lt_iff_lt_mul hten).mpr hlt
    omega
  · refine .inr ⟨by rw [hupper.antisymm hge, Nat.mul_div_cancel _ hten], ?_⟩
    obtain ⟨hcarry, hlarge⟩ := two_mul_pow_le_of_carry hd hge
    have hlimit := limit_eq
    obtain ⟨u, hu⟩ | rfl | hfull := hlargest
    · rw [hu, Nat.mul_comm d u, roundHalfEven_mul_right hd] at hge
      rw [hu, Nat.mul_comm d u] at hfloor
      exact absurd (Nat.mul_le_mul_right d hge) (Nat.not_le.mpr hfloor)
    · have hnext : d ≤ (n / d + 1) * d := Nat.le_mul_of_pos_left d (Nat.succ_pos _)
      have hbound := (Nat.mul_le_mul_left (2 * 10 ^ maxScale) hnext).trans hcarry
      simp only [maxScale, Nat.reducePow] at hbound hlarge
      omega
    · have hround := two_mul_roundHalfEven_mul_le (n * 10 ^ (t + 1)) hd
      have hmul := Nat.mul_le_mul_left 2 (Nat.mul_le_mul_right d hfull)
      -- at the next place the rounded quotient is at least the limit
      have hscaled : (2 * limit - 1) * (2 * 10 ^ t) ≤ 20 * n * 10 ^ t := by
        calc (2 * limit - 1) * (2 * 10 ^ t) ≤ (2 * limit - 1) * d := Nat.mul_le_mul_left _ hlarge
          _ ≤ 2 * (n * 10 ^ (t + 1)) := by
            rw [Nat.sub_mul, Nat.one_mul, Nat.mul_assoc]
            omega
          _ = 20 * n * 10 ^ t := by ring
      rw [← Nat.mul_assoc] at hscaled
      have := Nat.le_of_mul_le_mul_right hscaled hten
      omega

theorem keepsWhole_of_lt (hd : 0 < d) (h : 5 * n < limit) : KeepsWhole n d := by
  intro q hq
  have hfit := fit?_nearest (n := n) hd le_rfl (.inl rfl)
  rw [hq] at hfit
  obtain hwhole | ⟨-, hlarge⟩ := hfit.2.whole_cases hd
  · rw [toInt_of_nonneg hfit.1, hwhole]
  · exact absurd h (Nat.not_lt.mpr hlarge)

example : ¬KeepsWhole 59999999999999999999999999999 (60 * 10 ^ 27) := by decide

end

/-- The integer part of a quotient, which is right exactly if rounding keeps it. -/
theorem toInt_div? {q : Decimal} (hb : b.coefficient ≠ 0) (hq : a.div? b = some q) :
    ∃ k : Nat, q.toInt = a.coefficient.sign * b.coefficient.sign * k ∧
      (KeepsWhole (a.alignedLeft b) (a.alignedRight b) ↔ k = a.alignedLeft b / a.alignedRight b) := by
  have hspec := div?_spec (a := a) hb
  rw [hq] at hspec
  obtain ⟨hsign, hnearest⟩ := hspec
  refine ⟨q.coefficient.natAbs / 10 ^ q.scale, ?_, hnearest.keepsWhole_iff (alignedRight_pos hb)⟩
  rw [toInt_eq]
  obtain hzero | hpos := Nat.eq_zero_or_pos q.coefficient.natAbs
  · rw [hzero, Nat.zero_div]
    simp
  · -- the two signs agree, since the coefficient is not zero
    congr 1
    have hself : q.coefficient.sign * q.coefficient.natAbs = q.coefficient := Int.sign_mul_natAbs _
    exact Int.eq_of_mul_eq_mul_right (Int.natCast_ne_zero.mpr hpos.ne') (hself.trans hsign)

end

end Decimal

end LazyXPath
