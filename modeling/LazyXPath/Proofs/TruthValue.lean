import LazyXPath.Proofs.Comparison
import LazyXPath.Proofs.Search

/-!
# Truth values

The truth value of a sequence is that of a first item that is alone, or true if the first item is a node. In a predicate,
a number stands for a position instead. `truth_semantics` says what a search for a truth value gives for every run of
its input, how far it pulls its input, and what the logical operators and conditionals make of the outcome.

An operand or branch that is not chosen takes no part. For runs, this means that nothing needs to be known about it
(`conjunction_evaluates`, `disjunction_evaluates`, `conditional_evaluates`); step by step, that it may be replaced without
any change to what is reported or to the world (`TruthAlong.conjunction`, `TruthAlong.disjunction`,
`TruthAlong.conditional`).
-/

namespace LazyXPath

/-! ### Truth values of atomic values -/

section

variable {v : Atomic} {position : Option Nat}

/-- The number that a value stands for as a position. A floating-point number stands for its decimal, if it has one. -/
def Atomic.positionNumber? (v : Atomic) : Option ℚ := v.rational?.or (v.decimal?.map Decimal.value)

private theorem Decimal.value_lt (d : Decimal) : d.value < limit := by
  have hcoefficient : d.coefficient < (limit : Int) := Int.le_natAbs.trans_lt (Int.ofNat_lt.mpr d.coefficient_lt)
  have hpow : (1 : ℚ) ≤ 10 ^ d.scale := one_le_pow₀ (by norm_num)
  rw [value, div_lt_iff₀ (by positivity)]
  calc (d.coefficient : ℚ) < ((limit : Int) : ℚ) := Int.cast_lt.mpr hcoefficient
    _ = (limit : ℚ) := Int.cast_natCast limit
    _ ≤ limit * 10 ^ d.scale := le_mul_of_one_le_right (by positivity) hpow

/-- A decimal is the same as that of a position if it has its value. -/
theorem sameValue_position (d? : Option Decimal) (p : Nat) :
    (match d?, Decimal.ofInt? p with
      | some a, some b => a.sameValue b
      | _, _ => false) = decide (d?.map Decimal.value = some (p : ℚ)) := by
  cases d? with
  | none => rfl
  | some d =>
    cases hp : Decimal.ofInt? p with
    | some b =>
      have hvalue : b.value = (p : ℚ) := Decimal.value_ofInt? hp
      rw [Bool.eq_iff_iff, Decimal.sameValue_iff_value, hvalue]
      simp
    | none =>
      -- a position without a decimal is greater than every decimal
      have hlarge : Decimal.limit ≤ p := by
        by_contra hsmall
        obtain ⟨b, hb, -⟩ := Decimal.mk?_eq (c := (p : Int)) (s := 0) (by omega) (Nat.zero_le _)
        rw [Decimal.ofInt?, hb] at hp
        cases hp
      have hne : d.value ≠ (p : ℚ) := ((Decimal.value_lt d).trans_le (by exact_mod_cast hlarge)).ne
      simp [hne]

/-- A number is true at a position if it is the number of the position. -/
theorem predicateTruth_of_isNumeric (h : v.itemType.isNumeric = true) (p : Nat) :
    v.predicateTruth (some p) = .ok (decide (v.positionNumber? = some (p : ℚ))) := by
  cases v with
  | integer t i =>
    have hcast : (i == (p : Int)) = decide (some (i : ℚ) = some (p : ℚ)) := by
      rw [Bool.eq_iff_iff, beq_iff_eq, decide_eq_true_iff, Option.some.injEq]
      exact_mod_cast Iff.rfl
    exact congrArg Except.ok hcast
  | decimal d => exact congrArg Except.ok (sameValue_position (some d) p)
  | double x => exact congrArg Except.ok (sameValue_position (Decimal.ofDouble? x) p)
  | float x => exact congrArg Except.ok (sameValue_position (Decimal.ofFloat? x) p)
  | text t => cases t <;> cases h
  | _ => cases h

/-- A position matters to numbers only. -/
theorem predicateTruth_of_not_isNumeric (h : v.itemType.isNumeric = false) :
    v.predicateTruth position = v.truth := by
  cases position with
  | none => rfl
  | some p =>
    cases v with
    | integer t => cases t <;> cases h
    | decimal | double | float => cases h
    | _ => rfl

/-- A text is true unless it is empty. -/
private theorem truth_of_text? {s : String} (h : v.text? = some s) : v.truth = .ok (decide (s ≠ "")) := by
  cases v with
  | text t s' =>
    cases h
    have hempty : (!s.isEmpty) = decide (s ≠ "") := by
      rw [Bool.eq_iff_iff]
      simp
    exact congrArg Except.ok hempty
  | _ => cases h

/-- A number is true unless it is zero. -/
private theorem truth_of_rational? {x : ℚ} (h : v.rational? = some x) : v.truth = .ok (decide (x ≠ 0)) := by
  cases v with
  | integer t i =>
    cases h
    have hzero : (i != 0) = decide ((i : ℚ) ≠ 0) := by
      rw [Bool.eq_iff_iff]
      simp
    exact congrArg Except.ok hzero
  | decimal d =>
    cases h
    have hzero : (!d.isZero) = decide (d.value ≠ 0) := by
      rw [Bool.eq_iff_iff]
      simp [Decimal.isZero, Decimal.value_eq_zero_iff]
    exact congrArg Except.ok hzero
  | _ => cases h

/-- If a value has no truth value, then that is the error. -/
theorem code_of_predicateTruth {e : Error} (h : v.predicateTruth position = .error e) :
    e.code = ErrorCode.FORG0006.name := by
  have htruth : v.truth = .error e := by
    cases hv : v.itemType.isNumeric with
    | false => rw [← h, predicateTruth_of_not_isNumeric hv]
    | true =>
      cases position with
      | none => exact h
      | some p => cases (predicateTruth_of_isNumeric hv p).symm.trans h
  cases v <;> cases htruth <;> rfl

/-- Values of all other types have no truth value. -/
theorem failsWith_truth (hboolean : v.itemType ≠ .boolean) (hnumeric : v.itemType.isNumeric = false)
    (htext : v.text? = none) : FailsWith .FORG0006 v.truth := by
  cases v with
  | boolean => exact absurd rfl hboolean
  | text => cases htext
  | integer t => cases t <;> cases hnumeric
  | decimal | double | float => cases hnumeric
  | _ => exact ⟨_, rfl, rfl⟩

end

/-! ### Verdicts -/

/-- A search without a verdict breaks off as its input does, or fails because of an item. -/
theorem Run.tail_of_verdict {f : Forest} {position : Option Nat} {r : Run Item} {t : Tail}
    (h : r.verdict f position = .error t) :
    (t = r.tail ∧ t ≠ .done) ∨ ∃ e, t = .failed e ∧ e.code = ErrorCode.FORG0006.name := by
  have hrest {b : Bool} {xs : List Item} {t' : Tail} (h : verdictOnRest b ⟨xs, t'⟩ = .error t) :
      (t = t' ∧ t ≠ .done) ∨ ∃ e, t = .failed e ∧ e.code = ErrorCode.FORG0006.name := by
    cases xs with
    | nil => cases t' <;> cases h <;> exact .inl ⟨rfl, nofun⟩
    | cons x xs =>
      cases h
      exact .inr ⟨_, rfl, rfl⟩
  obtain ⟨xs, t'⟩ := r
  cases xs with
  | nil => cases t' <;> cases h <;> exact .inl ⟨rfl, nofun⟩
  | cons x xs =>
    cases x with
    | node n => cases h
    | atomic v =>
      simp only [verdict] at h
      cases hv : v.predicateTruth position with
      | ok b =>
        rw [hv] at h
        exact hrest h
      | error e =>
        rw [hv] at h
        cases h
        exact .inr ⟨e, rfl, code_of_predicateTruth hv⟩
    | map | array | function =>
      cases h
      exact .inr ⟨_, rfl, rfl⟩

/-! ### Conditions and logic -/

section

variable {env : Environment} {F : Regime (World × Nat)} {ω : F.Situation} {scope : Scope} {c left right yes no : Expr}
  {r r' : Run Item}

variable (env) in
/-- From a situation on, the evaluation of an expression gives a run. -/
def Regime.Evaluates (F : Regime (World × Nat)) (ω : F.Situation) (scope : Scope) (e : Expr) (r : Run Item) : Prop :=
  F.Calls env ω (atDepth env fun E => do return .ok (← evaluate env E scope e)) r

variable (env) in
/-- From a situation on, a function makes a sequence of an item that produces a run. -/
def Regime.Makes (F : Regime (World × Nat)) (ω : F.Situation) (f : Expander) (x : Item) (r : Run Item) : Prop :=
  ∀ ω₁, F.evolves ω ω₁ → F.Valid ω₁ → ∃ t ω₂,
    atDepth env (fun E => Expander.apply env E f x) (F.world ω₁) = ((.ok t, f), F.world ω₂) ∧
      F.effect ω₁ ω₂ ∧ F.Valid ω₂ ∧ Produces F (streamPull env) ω₂ t r

/-- A function that makes the stream of an action. -/
theorem Regime.Calls.makes {f : Expander} {x : Item} {g : Engine → Action Stream}
    (hf : ∀ E, Expander.apply env E f x = do return (.ok (← g E), f))
    (h : F.Calls env ω (atDepth env fun E => do return .ok (← g E)) r) : F.Makes env ω f x r := by
  intro ω₁ h₁ hv
  obtain ⟨result, ω₂, hg, he, hv₂, hp⟩ := h ω₁ h₁ hv
  obtain ⟨hresult, hworld⟩ := Prod.mk.inj hg
  rw [← hresult] at hp
  refine ⟨_, ω₂, ?_, he, hv₂, hp⟩
  simp only [hf]
  exact Prod.ext rfl hworld

/-- What is made of the truth value of an expression. -/
theorem Regime.Evaluates.ofTruth {f : Expander} {k : Bool → Run Item} (h : F.Evaluates env ω scope c r)
    (hf : ∀ b, r.verdict env.forest none = .ok b → F.Makes env ω f (.ofBool b) (k b)) :
    F.Calls env ω (atDepth env fun E => do return .ok ((← evaluate env E scope c).booleanValue.flatMap f))
      (.given (r.verdict env.forest none) k) :=
  h.through fun _ _ h₁ hs => truth_flatMap_produces
    (fun b hb ω₂ h₂ hv => hf b hb ω₂ (F.evolves_trans h₁ h₂) hv) (truth_produces none hs)

/-- Nothing has to be known about the branch that is not chosen. -/
theorem conditional_evaluates {k : Bool → Run Item} (hc : F.Evaluates env ω scope c r)
    (hyes : r.verdict env.forest none = .ok true → F.Evaluates env ω scope yes (k true))
    (hno : r.verdict env.forest none = .ok false → F.Evaluates env ω scope no (k false)) :
    F.Evaluates env ω scope (.conditional c yes no) (.given (r.verdict env.forest none) k) := by
  simp only [Regime.Evaluates, evaluate, bind_assoc, pure_bind]
  refine hc.ofTruth fun b hb => ?_
  cases b with
  | true => exact Regime.Calls.makes (fun E => by simp only [Expander.apply, isTrue_ofBool, if_true]) (hyes hb)
  | false => exact Regime.Calls.makes (fun E => by simp only [Expander.apply, isTrue_ofBool]; rfl) (hno hb)

/-- A truth value that decides, or else that of another expression. -/
theorem decide_evaluates (deciding : Bool) (hleft : F.Evaluates env ω scope left r)
    (hright : r.verdict env.forest none = .ok !deciding → F.Evaluates env ω scope right r') :
    F.Calls env ω
      (atDepth env fun E => do
        return .ok ((← evaluate env E scope left).booleanValue.flatMap (.decide deciding right scope)))
      (.given (r.verdict env.forest none) fun b =>
        if b = deciding then .complete [.ofBool b] else .ofVerdict (r'.verdict env.forest none)) := by
  refine hleft.ofTruth fun b hb => ?_
  by_cases hd : b = deciding
  · have hone : F.Calls env ω (atDepth env fun _ => do return .ok (← pure (.one (.ofBool b))))
        (.complete [.ofBool b]) := fun ω₁ _ hv =>
      ⟨_, ω₁, rfl, F.effect_of_drift (F.drift_of_valid hv), hv, produces_complete_iff.mpr (one_delivers ω₁ _)⟩
    rw [if_pos hd]
    exact hone.makes fun E => by simp only [Expander.apply, isTrue_ofBool, if_pos hd, pure_bind]
  · have hb' : b = !deciding := by cases b <;> cases deciding <;> simp_all
    have htruth := (hright (hb' ▸ hb)).through fun _ _ _ hs => truth_produces none hs
    rw [if_neg hd]
    refine Regime.Calls.makes (g := fun E => do return (← evaluate env E scope right).booleanValue) (fun E => ?_) ?_
    · simp only [Expander.apply, isTrue_ofBool, if_neg hd, bind_assoc, pure_bind]
    · simp only [bind_assoc, pure_bind]
      exact htruth

/-- Nothing has to be known about the right operand if the left one is false. -/
theorem conjunction_evaluates (hleft : F.Evaluates env ω scope left r)
    (hright : r.verdict env.forest none = .ok true → F.Evaluates env ω scope right r') :
    F.Evaluates env ω scope (.conjunction left right) (.given (r.verdict env.forest none) fun b =>
      if b then .ofVerdict (r'.verdict env.forest none) else .complete [.ofBool false]) := by
  have hk : (fun b => if b then .ofVerdict (r'.verdict env.forest none) else .complete [.ofBool false]) =
      fun b => if b = false then Run.complete [.ofBool b] else .ofVerdict (r'.verdict env.forest none) := by
    funext b
    cases b <;> rfl
  have hdecide := decide_evaluates false hleft hright
  rw [hk]
  simp only [Regime.Evaluates, evaluate, bind_assoc, pure_bind]
  exact hdecide

/-- Nothing has to be known about the right operand if the left one is true. -/
theorem disjunction_evaluates (hleft : F.Evaluates env ω scope left r)
    (hright : r.verdict env.forest none = .ok false → F.Evaluates env ω scope right r') :
    F.Evaluates env ω scope (.disjunction left right) (.given (r.verdict env.forest none) fun b =>
      if b then .complete [.ofBool true] else .ofVerdict (r'.verdict env.forest none)) := by
  have hk : (fun b => if b then .complete [.ofBool true] else .ofVerdict (r'.verdict env.forest none)) =
      fun b => if b = true then Run.complete [.ofBool b] else .ofVerdict (r'.verdict env.forest none) := by
    funext b
    cases b <;> rfl
  have hdecide := decide_evaluates true hleft hright
  rw [hk]
  simp only [Regime.Evaluates, evaluate, bind_assoc, pure_bind]
  exact hdecide

end

/-! ### What is not evaluated -/

section

variable {env : Environment} {E : Engine} {scope : Scope} {moves : List (World → World)} {w : World} {c e e' : Expr}
  {b : Bool}

variable (env E) in
/-- Along a schedule, the truth value of an expression is the given one if it is found at all. -/
def TruthAlong (scope : Scope) (moves : List (World → World)) (w : World) (c : Expr) (b : Bool) : Prop :=
  ∀ x, .item x ∈ (play (streamStep env E) moves (evaluate env E scope c w).1.booleanValue
    (evaluate env E scope c w).2).1 → x.isTrue = b

variable (env E) in
/-- Two expressions do the same to the world when they are evaluated, and their streams cannot be told apart along a
schedule. -/
def SameEvaluation (scope : Scope) (moves : List (World → World)) (w : World) (e e' : Expr) : Prop :=
  (evaluate env E scope e w).2 = (evaluate env E scope e' w).2 ∧
    SamePlay env E moves (evaluate env E scope e w).1 (evaluate env E scope e' w).1 (evaluate env E scope e w).2

/-- Two expressions that are made of the truth value of the same expression. -/
theorem TruthAlong.sameEvaluation (f f' : Expander) (h : TruthAlong env E scope moves w c b)
    (hf : ∀ x, x.isTrue = b → SameAt env E f f' x)
    (he : evaluate env E scope e = do return (← evaluate env E scope c).booleanValue.flatMap f)
    (he' : evaluate env E scope e' = do return (← evaluate env E scope c).booleanValue.flatMap f') :
    SameEvaluation env E scope moves w e e' := by
  simp only [TruthAlong] at h
  rcases hc : evaluate env E scope c w with ⟨s, w'⟩
  rw [hc] at h
  have hplay := truth_flatMap_samePlay f f' none none s moves w' fun x hx => hf x (h x hx)
  simp only [SameEvaluation, he, he', bind, StateT.bind, hc]
  exact ⟨rfl, hplay⟩

variable {left right right' yes yes' no no' : Expr} {x : Item}

private theorem sameAt_decide (h : x.isTrue = b) :
    SameAt env E (.decide b right scope) (.decide b right' scope) x := by
  intro w
  simp only [Expander.apply, if_pos h]
  exact ⟨rfl, rfl⟩

private theorem sameAt_branch (h : x.isTrue = b) (hchosen : (if b then yes else no) = if b then yes' else no') :
    SameAt env E (.branch yes no scope) (.branch yes' no' scope) x := by
  intro w
  simp only [Expander.apply, h, hchosen]
  exact ⟨rfl, rfl⟩

/-- If the left operand is false, the right one may be replaced by any expression. -/
theorem TruthAlong.conjunction (h : TruthAlong env E scope moves w left false) (right right' : Expr) :
    SameEvaluation env E scope moves w (.conjunction left right) (.conjunction left right') :=
  h.sameEvaluation (.decide false right scope) (.decide false right' scope) (fun _ hx => sameAt_decide hx)
    (by simp only [evaluate]) (by simp only [evaluate])

/-- If the left operand is true, the right one may be replaced by any expression. -/
theorem TruthAlong.disjunction (h : TruthAlong env E scope moves w left true) (right right' : Expr) :
    SameEvaluation env E scope moves w (.disjunction left right) (.disjunction left right') :=
  h.sameEvaluation (.decide true right scope) (.decide true right' scope) (fun _ hx => sameAt_decide hx)
    (by simp only [evaluate]) (by simp only [evaluate])

/-- The branch that is not chosen may be replaced by any expression. -/
theorem TruthAlong.conditional (h : TruthAlong env E scope moves w c b)
    (hchosen : (if b then yes else no) = if b then yes' else no') :
    SameEvaluation env E scope moves w (.conditional c yes no) (.conditional c yes' no') :=
  h.sameEvaluation (.branch yes no scope) (.branch yes' no' scope)
    (fun _ hx => sameAt_branch hx hchosen) (by simp only [evaluate]) (by simp only [evaluate])

end

/-! ### The semantics -/

/-- **Truth values.** A search for a truth value gives one truth value and then the end, or breaks off, and it looks no
further than it needs to. In a predicate, a number is true at the position that it stands for. What is made of a truth
value begins when it has been found, and the part that is not chosen is not evaluated. -/
theorem truth_semantics (env : Environment) (F : Regime (World × Nat)) (ω : F.Situation) :
    -- what a single atomic value comes to
    (∀ v : Atomic,
      (∀ b, v = .boolean b → v.truth = .ok b) ∧
      (∀ s, v.text? = some s → v.truth = .ok (decide (s ≠ ""))) ∧
      (∀ x, v.rational? = some x → v.truth = .ok (decide (x ≠ 0))) ∧
      (∀ x, v = .double x → v.truth = .ok !(x.isNaN || x == 0)) ∧
      (∀ x, v = .float x → v.truth = .ok !(x.isNaN || x == 0)) ∧
      (v.itemType ≠ .boolean → v.itemType.isNumeric = false → v.text? = none → FailsWith .FORG0006 v.truth) ∧
      v.predicateTruth none = v.truth ∧
      ∀ p, v.predicateTruth (some p) =
        if v.itemType.isNumeric then .ok (decide (v.positionNumber? = some (p : ℚ))) else v.truth) ∧
    -- what a search delivers
    (∀ s r, Produces F (streamPull env) ω s r →
      Produces F (streamPull env) ω s.booleanValue (.ofVerdict (r.verdict env.forest none)) ∧
      ∀ p, Produces F (streamPull env) ω (s.predicateTruth p) (.ofVerdict (r.verdict env.forest (some p)))) ∧
    (∀ (r : Run Item) position t, r.verdict env.forest position = .error t →
      (t = r.tail ∧ t ≠ .done) ∨ ∃ e, t = .failed e ∧ e.code = ErrorCode.FORG0006.name) ∧
    -- what a search pulls
    (∀ E s moves w, PullsWhile env E (IsProvisional none none) s.booleanValue s moves w ∧
      ∀ p, PullsWhile env E (IsProvisional (some p) none) (s.predicateTruth p) s moves w) ∧
    -- what is made of a truth value
    (∀ scope c r, F.Evaluates env ω scope c r →
      (∀ e r', (r.verdict env.forest none = .ok true → F.Evaluates env ω scope e r') →
        F.Evaluates env ω scope (.conjunction c e) (.given (r.verdict env.forest none) fun b =>
          if b then .ofVerdict (r'.verdict env.forest none) else .complete [.ofBool false])) ∧
      (∀ e r', (r.verdict env.forest none = .ok false → F.Evaluates env ω scope e r') →
        F.Evaluates env ω scope (.disjunction c e) (.given (r.verdict env.forest none) fun b =>
          if b then .complete [.ofBool true] else .ofVerdict (r'.verdict env.forest none))) ∧
      ∀ yes no r₁ r₂, (r.verdict env.forest none = .ok true → F.Evaluates env ω scope yes r₁) →
        (r.verdict env.forest none = .ok false → F.Evaluates env ω scope no r₂) →
        F.Evaluates env ω scope (.conditional c yes no) (.given (r.verdict env.forest none) fun b =>
          if b then r₁ else r₂)) ∧
    -- what is not evaluated
    ∀ E scope moves w c,
      (TruthAlong env E scope moves w c false → ∀ e e',
        SameEvaluation env E scope moves w (.conjunction c e) (.conjunction c e') ∧
        ∀ no, SameEvaluation env E scope moves w (.conditional c e no) (.conditional c e' no)) ∧
      (TruthAlong env E scope moves w c true → ∀ e e',
        SameEvaluation env E scope moves w (.disjunction c e) (.disjunction c e') ∧
        ∀ yes, SameEvaluation env E scope moves w (.conditional c yes e) (.conditional c yes e')) := by
  refine ⟨fun v => ⟨?_, fun s => truth_of_text?, fun x => truth_of_rational?, ?_, ?_, failsWith_truth, rfl, fun p => ?_⟩,
    fun s r hs => ⟨truth_produces none hs, fun p => truth_produces (some p) hs⟩,
    fun r position t => Run.tail_of_verdict,
    fun E s moves w => ⟨truth_pullsWhile none none s moves w, fun p => truth_pullsWhile (some p) none s moves w⟩,
    fun scope c r hc => ⟨fun e r' he => conjunction_evaluates hc he, fun e r' he => disjunction_evaluates hc he,
      fun yes no r₁ r₂ hyes hno => conditional_evaluates hc hyes hno⟩,
    fun E scope moves w c => ⟨fun h e e' => ⟨h.conjunction e e', fun no => h.conditional rfl⟩,
      fun h e e' => ⟨h.disjunction e e', fun yes => h.conditional rfl⟩⟩⟩
  · rintro b rfl
    rfl
  · rintro x rfl
    rfl
  · rintro x rfl
    rfl
  · cases hv : v.itemType.isNumeric with
    | true => exact predicateTruth_of_isNumeric hv p
    | false => exact predicateTruth_of_not_isNumeric hv

/-- A condition that arrives late and is true. The other operand and the other branch would fail. -/
theorem truth_semantics_deferred :
    let F := regime ⟨{}, {}⟩ [("d", .ok [.ofInt 2])] 0
    let ω : F.Situation := ⟨fun _ => none, {}, 1⟩
    let c : Expr := .deferred "d"
    let unbound : Expr := .varRef (.plain "x")
    F.Evaluates ⟨{}, {}⟩ ω (.root default) c (.complete [.ofInt 2]) ∧
    Produces F (streamPull ⟨{}, {}⟩) ω (Stream.predicateTruth 1 (.run (.deferred "d" none))) (.complete [.ofBool false]) ∧
    F.Evaluates ⟨{}, {}⟩ ω (.root default) (.disjunction c unbound) (.complete [.ofBool true]) ∧
    F.Evaluates ⟨{}, {}⟩ ω (.root default) (.conditional c c unbound) (.complete [.ofInt 2]) ∧
    ∀ E w, SameEvaluation ⟨{}, {}⟩ E (.root default) [id, id, id] w
      (.conditional (.literal (.boolean true)) c unbound) (.conditional (.literal (.boolean true)) c c) := by
  intro F ω c unbound
  have hstream : Produces F (streamPull ⟨{}, {}⟩) ω (.run (.deferred "d" none)) (.complete [.ofInt 2]) :=
    produces_complete_iff.mpr (deferred_delivers rfl)
  have hc : F.Evaluates ⟨{}, {}⟩ ω (.root default) c (.complete [.ofInt 2]) := fun ω₁ _ hv =>
    ⟨.ok (.run (.deferred "d" none)), ω₁, rfl, F.effect_of_drift (F.drift_of_valid hv), hv,
      produces_complete_iff.mpr (deferred_delivers rfl)⟩
  have htrue : Run.verdict {} none (.complete [.ofInt 2]) = .ok true := rfl
  have hat : Run.verdict {} (some 1) (.complete [.ofInt 2]) = .ok false := rfl
  obtain ⟨-, hsearch, -, -, hlogic, hsame⟩ := truth_semantics ⟨{}, {}⟩ F ω
  obtain ⟨-, hor, hif⟩ := hlogic (.root default) c _ hc
  have hor := hor unbound (.complete []) fun h => by cases htrue.symm.trans h
  have hif := hif c unbound _ (.complete []) (fun _ => hc) fun h => by cases htrue.symm.trans h
  have hposition := (hsearch _ _ hstream).2 1
  rw [hat] at hposition
  rw [htrue] at hor hif
  refine ⟨hc, hposition, hor, hif, fun E w => ?_⟩
  refine ((hsame E (.root default) [id, id, id] w (.literal (.boolean true))).2 ?_ unbound c).2 c
  have hplay : (play (streamStep ⟨{}, {}⟩ E) [id, id, id]
      (Stream.booleanValue (.one (.atomic (.boolean true)))) w).1 = [.skip, .item (.ofBool true), .done] := rfl
  intro x hx
  simp only [evaluate] at hx
  have hx : .item x ∈ [Outcome.skip, .item (.ofBool true), .done] := hplay ▸ hx
  obtain rfl : x = .ofBool true := by simpa using hx
  rfl

end LazyXPath
