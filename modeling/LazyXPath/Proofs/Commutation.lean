import LazyXPath.Proofs.Comparison

/-!
# Commuting operands

The rules of arithmetic are written for one order of the operands at a time: a duration stands to the left of a
number or to the right of it, and a point in time on either side of a duration. The rule for the swapped operands of
a sum or a product is the swapped rule (`ArithmeticRule.swapped`), and it gives the same value, or a failure with the
same code (`arithmetic_comm`).

Both operands may fail, so that the failure depends on which one is looked at first. It is enough that they fail with
the same code (`SameOutcome.bind_comm`).
-/

namespace LazyXPath

/-! ### Outcomes -/

/-- Two attempts whose results are related, or that fail with the same code. -/
def SameOutcome {α β : Type} (R : α → β → Prop) : Except Error α → Except Error β → Prop
  | .ok a, .ok b => R a b
  | .error e, .error e' => e.code = e'.code
  | _, _ => False

namespace SameOutcome

variable {α β γ δ : Type} {R : α → β → Prop} {S : γ → δ → Prop} {x : Except Error α} {y : Except Error β}

private theorem bind {f : α → Except Error γ} {g : β → Except Error δ} (h : SameOutcome R x y)
    (hf : ∀ a b, x = .ok a → R a b → SameOutcome S (f a) (g b)) : SameOutcome S (x >>= f) (y >>= g) := by
  cases x with
  | ok a =>
    cases y with
    | ok b => exact hf a b rfl h
    | error => exact h.elim
  | error =>
    cases y with
    | ok => exact h.elim
    | error => exact h

/-- Two attempts that fail with one code can be made in either order. -/
theorem bind_comm (c : ErrorCode) {P : α → Prop} {Q : β → Prop} {f : α → β → Except Error γ}
    {g : β → α → Except Error δ} (hx : Meets (·.code = c.name) P x) (hy : Meets (·.code = c.name) Q y)
    (hf : ∀ a b, P a → Q b → SameOutcome S (f a b) (g b a)) :
    SameOutcome S (x >>= fun a => y >>= f a) (y >>= fun b => x >>= g b) := by
  cases x with
  | ok a =>
    cases y with
    | ok b => exact hf a b hx hy
    | error => exact rfl
  | error =>
    cases y with
    | ok => exact rfl
    | error => exact hx.trans hy.symm

private theorem mono {R' : α → β → Prop} (h : SameOutcome R x y) (hR : ∀ a b, R a b → R' a b) :
    SameOutcome R' x y := by
  cases x with
  | ok a =>
    cases y with
    | ok b => exact hR a b h
    | error => exact h
  | error =>
    cases y with
    | ok => exact h
    | error => exact h

private theorem refl {R : α → α → Prop} (h : ∀ a, x = .ok a → R a a) : SameOutcome R x x := by
  cases x with
  | ok a => exact h a rfl
  | error => exact rfl

end SameOutcome

/-! ### Swapped rules -/

namespace ArithmeticRule

/-- The rule for the swapped operands. -/
def swapped : ArithmeticRule → ArithmeticRule
  | scale kind false => multiple kind
  | multiple kind => scale kind false
  | shift false => shiftBy
  | shiftBy => shift false
  | rule => rule

variable {op : ArithmeticOp} {l r : ItemType}

private theorem ofTypes?_swapped (hop : op = .add ∨ op = .mul) : ofTypes? op r l =
    (ofTypes? op l r).map swapped := by
  unfold ofTypes?
  dsimp only
  cases hl : DurationKind.ofType? l with
  | some k =>
    cases hr : DurationKind.ofType? r with
    | some k' =>
      by_cases hk : k = k'
      · subst hk
        obtain rfl | rfl := hop <;> simp [ofDurations?, swapped]
      · simp [hk, Ne.symm hk]
    | none =>
      obtain rfl | rfl := hop
      · cases TemporalKind.ofType? r with
        | none => simp
        | some t => cases hshift : canShift t k <;> simp [hshift, swapped]
      · cases NumericKind.ofType? r <;> simp [swapped]
  | none =>
    cases hr : DurationKind.ofType? r with
    | some k =>
      obtain rfl | rfl := hop
      · cases TemporalKind.ofType? l with
        | none => simp
        | some t => cases hshift : canShift t k <;> simp [hshift, swapped]
      · cases NumericKind.ofType? l <;> simp [swapped]
    | none =>
      obtain rfl | rfl := hop <;> cases TemporalKind.ofType? l <;> cases TemporalKind.ofType? r <;> simp

private theorem join_comm (k l : NumericKind) : k.join l = l.join k := by
  cases k <;> cases l <;> rfl

private theorem ofKinds_comm (hop : op = .add ∨ op = .mul) (k l : NumericKind) : ofKinds op l k =
    (ofKinds op k l).swapped := by
  unfold ofKinds
  rw [join_comm]
  obtain rfl | rfl := hop <;> rfl

/-- Swapped operands are resolved to the swapped rule. -/
theorem resolve_swapped (hop : op = .add ∨ op = .mul) (l r : ItemType) :
    SameOutcome (fun rule rule' => rule' = rule.swapped) (resolve op l r) (resolve op r l) := by
  unfold resolve
  dsimp only
  cases NumericKind.ofType? (operandType l) <;> cases NumericKind.ofType? (operandType r)
  case some.some k k' => exact ofKinds_comm hop k k'
  all_goals
    rw [ofTypes?_swapped hop (l := operandType l) (r := operandType r)]
    cases ofTypes? op (operandType l) (operandType r) <;> rfl

end ArithmeticRule

/-! ### Decimals -/

namespace Decimal

/-- A sum does not depend on the order, but for the scale of a zero. -/
theorem add?_comm (p q : Decimal) : p.add? q = q.add? p ∨
    ∃ s t, p.add? q = some s ∧ q.add? p = some t ∧ s.sameValue t = true := by
  unfold add?
  by_cases hp : p.isZero = true <;> by_cases hq : q.isZero = true
  · refine .inr ⟨q, p, if_pos hp, if_pos hq, sameValue_iff_value.mpr ?_⟩
    have hzero : ∀ {d : Decimal}, d.isZero = true → d.value = 0 := fun h =>
      value_eq_zero_iff.mpr (by simpa [isZero] using h)
    rw [hzero hp, hzero hq]
  · exact .inl (by rw [if_pos hp, if_neg hq, if_pos hp])
  · exact .inl (by rw [if_neg hp, if_pos hq, if_pos hq])
  · refine .inl ?_
    rw [if_neg hp, if_neg hq, if_neg hq, if_neg hp]
    dsimp only
    rw [max_comm, add_comm]

private theorem mul?_comm (p q : Decimal) : p.mul? q = q.mul? p := by
  unfold mul?
  rw [mul_comm p.coefficient, add_comm p.scale, Bool.and_comm]

/-- However a missing sum is complained about, that does not depend on the order. -/
theorem add?_sameOutcome (p q : Decimal) {f : Option Decimal → Except Error Decimal}
    (hf : ∀ s, f (some s) = .ok s) :
    SameOutcome (·.sameValue · = true) (f (p.add? q)) (f (q.add? p)) := by
  obtain heq | ⟨s, t, hs, ht, hst⟩ := add?_comm p q
  · rw [heq]
    exact .refl fun _ _ => sameValue_iff_value.mpr rfl
  · rw [hs, ht, hf, hf]
    exact hst

end Decimal

/-! ### Sums and products -/

private theorem identical_of_duration {v : Atomic} {k : DurationKind} (h : v.itemType = k.itemType) :
    v.identical v = true :=
  Atomic.identical_self (by rw [h]; cases k <;> decide) (by rw [h]; cases k <;> decide)

private theorem identical_of_shift {v d r : Atomic} {t : TemporalKind} {k : DurationKind}
    (hv : TemporalKind.ofType? v.itemType = some t) (hd : DurationKind.ofType? d.itemType = some k)
    (hshift : ArithmeticRule.canShift t k = true) {backward : Bool} (h : v.shift d backward = .ok r) :
    r.identical r = true := by
  have hmeets : Meets (OperatorFailure []) _ _ := shift_meets hv hd hshift backward
  have htype := (hmeets.of_ok h).trans (itemType_of_temporalKind hv)
  exact Atomic.identical_self (by rw [htype]; cases t <;> decide) (by rw [htype]; cases t <;> decide)

/-- The operands are numbers, or count as such, and one of them is a floating-point number. -/
def FloatingPair (l r : ItemType) : Prop :=
  ∃ j k, operandKind? l = some j ∧ operandKind? r = some k ∧ (j.join k = .float ∨ j.join k = .double)

section

variable {op : ArithmeticOp} {a b : Atomic} {j k : NumericKind}

private theorem ArithmeticOp.onIntegers_comm (hop : op = .add ∨ op = .mul) (x y : Int) :
    SameOutcome (·.identical · = true) (op.onIntegers x y) (op.onIntegers y x) := by
  have heq : op.onIntegers x y = op.onIntegers y x := by
    obtain rfl | rfl := hop
    · rw [onIntegers, onIntegers, add_comm]
    · rw [onIntegers, onIntegers, mul_comm]
  rw [← heq]
  refine .refl fun v hv => ?_
  have htype := (@onIntegers_meets [] op x y).of_ok hv
  have hinteger : op.numericResult .integer = .integer := by obtain rfl | rfl := hop <;> rfl
  rw [hinteger] at htype
  exact Atomic.identical_self (by rw [htype]; decide) (by rw [htype]; decide)

private theorem ArithmeticOp.onDecimals_comm (hop : op = .add ∨ op = .mul) (x y : Decimal) :
    SameOutcome (·.identical · = true) (op.onDecimals x y) (op.onDecimals y x) := by
  obtain rfl | rfl := hop
  · exact (Decimal.add?_sameOutcome x y fun _ => rfl).bind fun s t _ hst => hst
  · rw [onDecimals, onDecimals, Decimal.mul?_comm]
    exact (SameOutcome.refl fun _ _ => rfl).bind (R := (· = ·)) fun s t _ hst =>
      hst ▸ Decimal.sameValue_iff_value.mpr rfl

/-- Numbers are promoted in one order or the other, and combined. -/
theorem promote_comm (hop : op = .add ∨ op = .mul) (ha : a.numericKind? = some j) (hb : b.numericKind? = some k) :
    SameOutcome (fun v w => ¬ (j.join k = .float ∨ j.join k = .double) → v.identical w = true)
      (Operands.promote (j.join k) a b >>= op.onOperands) (Operands.promote (j.join k) b a >>= op.onOperands) := by
  obtain ⟨hj, hk⟩ : j.rank ≤ (j.join k).rank ∧ k.rank ≤ (j.join k).rank := by
    cases j <;> cases k <;> decide
  generalize j.join k = kind at hj hk
  unfold Operands.promote
  cases kind with
  | integer =>
    simp only [bind_assoc, pure_bind]
    exact .bind_comm .FOAR0002 (promoteInteger_meets rfl ha hj) (promoteInteger_meets rfl hb hk)
      fun x y _ _ => (op.onIntegers_comm hop x y).mono fun _ _ h _ => h
  | decimal =>
    simp only [bind_assoc, pure_bind]
    exact .bind_comm .FOAR0002 (promoteDecimal_meets rfl ha hj) (promoteDecimal_meets rfl hb hk)
      fun x y _ _ => (op.onDecimals_comm hop x y).mono fun _ _ h _ => h
  | float =>
    simp only [bind_assoc, pure_bind]
    refine .bind_comm .FOAR0002 (promoteFloat_meets ha hj) (promoteFloat_meets hb hk) fun x y _ _ => ?_
    obtain rfl | rfl := hop <;> exact fun h => absurd (.inl trivial) h
  | double =>
    simp only [bind_assoc, pure_bind]
    refine .bind_comm .FOAR0002 (promoteDouble_meets ha) (promoteDouble_meets hb) fun x y _ _ => ?_
    obtain rfl | rfl := hop <;> exact fun h => absurd (.inr trivial) h

/-- Durations of one kind are added in either order. -/
theorem durationSum_comm {kind : DurationKind} (ha : DurationKind.ofType? a.itemType = some kind)
    (hb : DurationKind.ofType? b.itemType = some kind) :
    SameOutcome (·.identical · = true) (ArithmeticRule.durationSum kind false a b)
      (ArithmeticRule.durationSum kind false b a) := by
  obtain ⟨rfl, m, rfl⟩ | ⟨rfl, s, rfl⟩ := Atomic.duration_cases ha
  · obtain ⟨-, n, rfl⟩ | ⟨h, -⟩ := Atomic.duration_cases hb
    · change SameOutcome _ (Atomic.checkedMonths (m + n) >>= _) (Atomic.checkedMonths (n + m) >>= _)
      rw [add_comm n]
      exact (SameOutcome.refl fun _ _ => rfl).bind (R := (· = ·)) fun x y _ hxy =>
        hxy ▸ Atomic.identical_self nofun nofun
    · cases h
  · obtain ⟨h, -⟩ | ⟨-, t, rfl⟩ := Atomic.duration_cases hb
    · cases h
    · exact (Decimal.add?_sameOutcome s t fun _ => rfl).bind fun x y _ hxy => hxy

/-- A rule for a sum or a product, and the swapped one for the swapped operands. -/
theorem ArithmeticRule.apply_swapped {rule : ArithmeticRule} (hop : op = .add ∨ op = .mul)
    (h : Resolution op a.itemType b.itemType rule) :
    SameOutcome (fun v w => ¬ FloatingPair a.itemType b.itemType → v.identical w = true) (rule.apply a b)
      (rule.swapped.apply b a) := by
  cases h with
  | @numbers j k hj hk =>
    have hrule : ofKinds op j k = .numeric op (j.join k) := by obtain rfl | rfl := hop <;> rfl
    rw [hrule]
    refine .bind_comm .FORG0001 (typed_meets (fun _ _ => rfl) hj) (typed_meets (fun _ _ => rfl) hk)
      fun x y hx hy => ?_
    refine (promote_comm hop hx hy).mono fun v w hvw hpair => hvw fun hfloating => hpair ⟨j, k, hj, hk, hfloating⟩
  | durations ha hb h =>
    obtain rfl | rfl := hop
    · cases h
      exact (durationSum_comm ha hb).mono fun _ _ h _ => h
    · cases h
  | @scaling kind _ divide ha hb h =>
    cases divide with
    | false => exact .refl fun v hv _ => identical_of_duration ((scale_meets ha (.head []) hb false).of_ok hv)
    | true => obtain rfl | rfl := hop <;> cases h
  | multiplication ha hb h =>
    exact .refl fun v hv _ => identical_of_duration ((scale_meets hb (.head []) ha false).of_ok hv)
  | distance ha hb h => obtain rfl | rfl := hop <;> cases h
  | shifting backward ha hb hshift h =>
    cases backward with
    | false => exact .refl fun v hv _ => identical_of_shift ha hb hshift hv
    | true => obtain rfl | rfl := hop <;> cases h
  | shiftingBy ha hb hshift h =>
    exact .refl fun v hv _ => identical_of_shift hb ha hshift hv

end

/-- **Addition and multiplication commute**, for values of any types: both orders of the operands succeed, or both
fail with the same code. The results are identical, where decimals are taken by their values, unless the operands are
numbers of which one counts as a floating-point number. -/
theorem arithmetic_comm {c : OperatorCache} (hc : c.Coherent) {op : ArithmeticOp} (hop : op = .add ∨ op = .mul)
    (a b : Atomic) :
    SameOutcome (fun v w => ¬ FloatingPair a.itemType b.itemType → v.identical w = true)
      (c.arithmetic op a b).1 (c.arithmetic op b a).1 := by
  rw [hc.arithmetic_eq, hc.arithmetic_eq]
  refine (ArithmeticRule.resolve_swapped hop a.itemType b.itemType).bind fun rule rule' hrule hswapped => ?_
  rw [hswapped]
  exact ArithmeticRule.apply_swapped hop (ArithmeticRule.resolution_of_resolve hrule)

/-- A month after the last of January, and the last of January with a month added to the left of it. -/
theorem arithmetic_comm_calendar :
    let january : Atomic := .date ⟨2024, 1, 31, by decide, by decide, by decide⟩ none
    let february : Atomic := .date ⟨2024, 2, 29, by decide, by decide, by decide⟩ none
    (OperatorCache.empty.arithmetic .add january (.yearMonthDuration 1)).1 = .ok february ∧
      ∃ v, (OperatorCache.empty.arithmetic .add (.yearMonthDuration 1) january).1 = .ok v ∧
        february.identical v = true := by
  intro january february
  have hforward : (OperatorCache.empty.arithmetic .add january (.yearMonthDuration 1)).1 = .ok february := rfl
  have hcomm := arithmetic_comm OperatorCache.Holds.empty.coherent (.inl rfl) january (.yearMonthDuration 1)
  rw [hforward] at hcomm
  refine ⟨hforward, ?_⟩
  cases hbackward : (OperatorCache.empty.arithmetic .add (.yearMonthDuration 1) january).1 with
  | ok v =>
    rw [hbackward] at hcomm
    exact ⟨v, rfl, hcomm (by rintro ⟨j, k, hj, -⟩; cases hj)⟩
  | error e =>
    rw [hbackward] at hcomm
    exact hcomm.elim

end LazyXPath
