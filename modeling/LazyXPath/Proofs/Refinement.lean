import LazyXPath.Proofs.Delivery.Operation
import LazyXPath.Proofs.FreshStreams

/-!
# Lazy evaluation refines eager evaluation

If an expression has a value by eager evaluation, then its stream delivers this value. The stream may be
suspended on the way, it shares buffers with other streams, and its parts are evaluated only when they
are reached; none of this shows in what is delivered.

A scope **presents** a context if the focus is the same and every variable can be read to the list that it
is bound to (`Presents`). What is said about an expression is said for all scopes and contexts
(`Refined`): one lemma for each kind of expression, and `refined` for all of them by recursion.

Streams of expressions read buffers of some rank. A binding needs a rank above those of the buffers that
its value reads, and so the rank of an expression grows with the number of its bindings
(`Expr.bindings`).
-/

namespace LazyXPath

/-! ### Presentation of contexts -/

/-- A scope shows a context to streams of a rank. -/
structure Presents (env : Environment) (values : List (DeferredId × Except Error (List Item))) (k : Nat)
    (ω : Situation) (scope : Scope) (ctx : Context) : Prop where
  focus : ctx.focus = scope.focus?.map fun f => (f.item, f.position)
  reads : ∀ x xs, ctx.value? x = some xs → ∃ r, scope.value? x = some r ∧
    (regime env values k).Opens (streamPull env) ω (atDepth env fun E => E.replay r) id xs

section

variable {env : Environment} {values : List (DeferredId × Except Error (List Item))} {k l : Nat}
  {ω ω' : Situation} {scope : Scope} {ctx : Context}

namespace Presents

/-- A scope goes on to present its context while buffers are added. -/
private theorem later (h : Presents env values k ω scope ctx) (hω : Evolves ω ω') :
    Presents env values k ω' scope ctx := by
  refine ⟨h.focus, fun x xs hx => ?_⟩
  obtain ⟨r, hr, ho⟩ := h.reads x xs hx
  exact ⟨r, hr, Regime.Opens.later (F := regime env values k) ho hω⟩

/-- And among buffers of more ranks. -/
private theorem lift (h : Presents env values k ω scope ctx) (hkl : k ≤ l) :
    Presents env values l ω scope ctx := by
  refine ⟨h.focus, fun x xs hx => ?_⟩
  obtain ⟨r, hr, ho⟩ := h.reads x xs hx
  exact ⟨r, hr, opens_of_le hkl ho⟩

/-- A focus on an item. -/
theorem withFocus (h : Presents env values k ω scope ctx) (x : Item) (position : Nat) (size : Option Nat)
    (sequence : Option Replay) :
    Presents env values k ω (scope.withFocus ⟨x, position, size, sequence⟩) (ctx.focusOn x position) :=
  ⟨rfl, h.reads⟩

/-- A binding to a buffer. -/
theorem binding (h : Presents env values k ω scope ctx) {j : Nat} {b : BufferId} {xs : List Item}
    (hjk : j < k) (hb : ω.pledges b = some ⟨j, .complete xs⟩) (x : Name) :
    Presents env values k ω (.binding scope x (.buffered b)) (ctx.bind x xs) := by
  refine ⟨h.focus, fun y ys hy => ?_⟩
  by_cases hxy : x = y
  · obtain rfl : xs = ys := by simpa [Context.bind, hxy] using hy
    exact ⟨.buffered b, by simp [Scope.value?, hxy], buffered_opens hjk hb⟩
  · obtain ⟨r, hr, ho⟩ := h.reads y ys (by simpa [Context.bind, hxy] using hy)
    exact ⟨r, by simp [Scope.value?, hxy, hr], ho⟩

end Presents

end

/-! ### Ranks of expressions -/

mutual

/-- The number of bindings in an expression. -/
def Expr.bindings (e : Expr) : Nat :=
  match e with
  | .sequence parts => Expr.bindingsAll parts
  | .sign _ operand => Expr.bindings operand
  | .range a b | .arithmetic _ a b | .comparison _ a b | .conjunction a b | .disjunction a b
  | .simpleMap a b | .filter a b | .path a b => Expr.bindings a + Expr.bindings b
  | .conditional c a b => Expr.bindings c + Expr.bindings a + Expr.bindings b
  | .letIn _ a b | .forIn _ a b => Expr.bindings a + 1 + Expr.bindings b
  | _ => 0

/-- The number of bindings in several expressions. -/
def Expr.bindingsAll : List Expr → Nat
  | [] => 0
  | e :: es => Expr.bindings e + Expr.bindingsAll es

end

section

variable (env : Environment) (values : List (DeferredId × Except Error (List Item)))

/-- The stream of an expression delivers the value of the expression, wherever it has one. -/
def Refined (e : Expr) : Prop :=
  ∀ ⦃k : Nat⦄ ⦃ω : Situation⦄ ⦃scope : Scope⦄ ⦃ctx : Context⦄ ⦃xs : List Item⦄,
    Presents env values k ω scope ctx → eager env.forest values ctx e = some xs →
      (regime env values (k + Expr.bindings e)).Opens (streamPull env) ω
        (atDepth env fun E => evaluate env E scope e) id xs

end

/-! ### Actions of engines -/

section

variable {env : Environment} {F : Regime (World × Nat)} {ω : F.Situation} {δ : Type} {xs ys : List Item}
  {f : Engine → Action Stream}

/-- What is evaluated first is a stream for what comes after it. -/
private theorem opens_bind {g : Engine → Stream → Action δ} {out : Stream → δ}
    (hf : F.Opens (streamPull env) ω (atDepth env f) id xs)
    (hg : ∀ ω₁ s, F.evolves ω ω₁ → Delivers F (streamPull env) ω₁ s xs →
      F.Opens (streamPull env) ω₁ (atDepth env fun E => g E s) out ys) :
    F.Opens (streamPull env) ω (atDepth env fun E => f E >>= g E) out ys :=
  hf.bind hg

/-- A stream that is made of an evaluated one. -/
theorem opens_map (out : Stream → δ) (e : Stream → Stream)
    (hf : F.Opens (streamPull env) ω (atDepth env f) id xs)
    (he : ∀ ω₁ s, F.evolves ω ω₁ → Delivers F (streamPull env) ω₁ s xs →
      Delivers F (streamPull env) ω₁ (e s) ys) :
    F.Opens (streamPull env) ω (atDepth env fun E => f E >>= fun s => pure (out (e s))) out ys :=
  opens_bind hf fun ω₁ s h₁ hs => .of_pure (fun _ => rfl) (he ω₁ s h₁ hs)

/-- What is made of the stream of an action that is known to have a property. -/
theorem opens_map_of {P : Stream → Prop} {e : Stream → Stream}
    (hf : F.Opens (streamPull env) ω (atDepth env f) id xs)
    (hP : ∀ ω₁, F.evolves ω ω₁ → F.Valid ω₁ → P (atDepth env f (F.world ω₁)).1)
    (he : ∀ ω₁ s, F.evolves ω ω₁ → F.Valid ω₁ → P s → Delivers F (streamPull env) ω₁ s xs →
      Delivers F (streamPull env) ω₁ (e s) ys) :
    F.Opens (streamPull env) ω (atDepth env fun E => do return e (← f E)) id ys := by
  intro ω₁ h₁ hv
  have hs := hP ω₁ h₁ hv
  obtain ⟨s, ω₂, hopen, heffect, hv₂, hd⟩ := hf ω₁ h₁ hv
  obtain ⟨hstream, hworld⟩ := Prod.mk.inj hopen
  rw [hopen] at hs
  refine ⟨e s, ω₂, Prod.ext (congrArg e hstream) hworld, heffect, hv₂, he ω₂ s ?_ hv₂ hs hd⟩
  exact F.evolves_trans h₁ (F.evolves_of_effect heffect)

/-- What is made of the stream of an expression, the bounds of which can be computed. -/
theorem evaluated_opens {scope : Scope} {a : Expr} {e : Stream → Stream}
    (hf : F.Opens (streamPull env) ω (atDepth env fun E => evaluate env E scope a) id xs)
    (he : ∀ ω₁ s size, F.evolves ω ω₁ → s.exactSize? = .ok size → Delivers F (streamPull env) ω₁ s xs →
      Delivers F (streamPull env) ω₁ (e s) ys) :
    F.Opens (streamPull env) ω (atDepth env fun E => do return e (← evaluate env E scope a)) id ys := by
  refine opens_map_of (P := Stream.Fresh) hf (fun ω₁ _ _ => ?_) fun ω₁ s h₁ _ hs hd => ?_
  · exact evaluate_fresh (Engine.ofDepth_makesFresh env _) scope a _
  · obtain ⟨size, hsize⟩ := hs.exactSize?_eq_ok
    exact he ω₁ s size h₁ hsize hd

/-- The answer of a function from items to streams, whose next state is `g`. -/
theorem opens_answer (g : Expander) (e : Stream → Stream)
    (hf : F.Opens (streamPull env) ω (atDepth env f) id xs)
    (he : ∀ ω₁ s, F.evolves ω ω₁ → Delivers F (streamPull env) ω₁ s xs →
      Delivers F (streamPull env) ω₁ (e s) ys) :
    F.Opens (streamPull env) ω
      (atDepth env fun E => f E >>= fun s => pure ((.ok (e s) : Except Error Stream), g))
      (fun t => (.ok t, g)) ys :=
  opens_map (fun t => ((.ok t : Except Error Stream), g)) e hf he

end

/-! ### Leaves -/

section

variable {env : Environment} {values : List (DeferredId × Except Error (List Item))} {k l : Nat}
  {ω : Situation} {scope : Scope} {ctx : Context} {xs : List Item}

/-- A refined expression as a part of another one. -/
private theorem Refined.opens {e : Expr} (he : Refined env values e) (h : Presents env values k ω scope ctx)
    (hx : eager env.forest values ctx e = some xs) (hl : k + Expr.bindings e ≤ l) :
    (regime env values l).Opens (streamPull env) ω (atDepth env fun E => evaluate env E scope e) id xs :=
  opens_of_le hl (he h hx)

private theorem refined_literal (v : Atomic) : Refined env values (.literal v) := by
  intro k ω scope ctx xs h hx
  rw [eager] at hx
  cases hx
  exact .of_pure (fun _ => rfl) (one_delivers (F := regime env values _) ω (.atomic v))

private theorem refined_items (ys : List Item) : Refined env values (.items ys) := by
  intro k ω scope ctx xs h hx
  rw [eager] at hx
  cases hx
  exact .of_pure (fun _ => rfl) (ofList_delivers (F := regime env values _) ω ys)

private theorem refined_contextItem : Refined env values .contextItem := by
  intro k ω scope ctx xs h hx
  rw [eager, h.focus] at hx
  cases hf : scope.focus? with
  | none => simp [hf] at hx
  | some f =>
    obtain rfl : [f.item] = xs := by simpa [hf] using hx
    have hc : scope.contextItem = .ok f.item := by simp only [Scope.contextItem, hf]
    refine .of_pure (fun w => ?_) (one_delivers (F := regime env values _) ω f.item)
    simp only [atDepth, evaluate, hc]
    rfl

/-- A variable is read through the buffer that it is bound to, or evaluated once more. -/
private theorem refined_varRef (x : Name) : Refined env values (.varRef x) := by
  intro k ω scope ctx xs h hx
  rw [eager] at hx
  obtain ⟨r, hr, ho⟩ := h.reads x xs hx
  have he : (atDepth env fun E => evaluate env E scope (.varRef x)) = atDepth env fun E => E.replay r := by
    funext w
    simp only [atDepth, evaluate, hr]
  rw [he]
  exact opens_of_le (Nat.le_add_right k _) ho

/-- A deferred value that is a list by eager evaluation arrives as that list. -/
private theorem values_lookup {d : DeferredId} (h : (values.lookup d).bind Except.toOption = some xs) :
    values.lookup d = some (.ok xs) := by
  cases hd : values.lookup d with
  | none => simp [hd] at h
  | some v =>
    cases v with
    | error e => simp [hd, Except.toOption] at h
    | ok ys => simpa [hd, Except.toOption] using h

/-- A deferred sequence delivers what arrives. -/
private theorem refined_deferred (d : DeferredId) : Refined env values (.deferred d) := by
  intro k ω scope ctx xs h hx
  rw [eager] at hx
  exact .of_pure (fun _ => rfl) (deferred_delivers (values_lookup hx))

/-- Where eager evaluation has no value, nothing is claimed. -/
private theorem refined_of_none {e : Expr} (he : ∀ ctx, eager env.forest values ctx e = none) :
    Refined env values e := by
  intro k ω scope ctx xs h hx
  rw [he ctx] at hx
  cases hx

/-- The evaluation of a host is recorded before anything else. -/
theorem refined_host_deferred (label : String) (d : DeferredId) :
    Refined env values (.host label (.deferred d)) := by
  intro k ω scope ctx xs h hx
  rw [eager] at hx
  intro ω₁ h₁ hv
  have hsane := (standard env values _).sane hv.2
  refine ⟨.run (.deferred d none),
    { ω₁ with world := { ω₁.world with events := .host label :: ω₁.world.events } }, rfl, ?_, ⟨hv.1, ?_⟩,
    deferred_delivers (values_lookup hx)⟩
  · exact ⟨.ofWorld hsane rfl rfl hsane.operators, rfl⟩
  · exact (standard env values _).stable hv.2 (.ofWorld hsane rfl rfl hsane.operators)

private theorem refined_host (label : String) (source : Source) : Refined env values (.host label source) := by
  cases source with
  | deferred d => exact refined_host_deferred label d
  | _ => exact refined_of_none fun _ => rfl

/-- The nodes on an axis from the context node. -/
theorem axisStream_delivers (hg : env.forest.Grounded) (axis : Axis) (test : NodeTest) {n : NodeId}
    (hn : scope.contextItem = .ok (.node n)) {F : Regime (World × Nat)} (ω : F.Situation) : ∃ s,
      axisStream env.forest axis test scope = .ok s ∧
        Delivers F (streamPull env) ω s (axis.step env.forest test n) := by
  simp only [axisStream, hn, bind, Except.bind, pure, Except.pure]
  refine ⟨_, rfl, ?_⟩
  cases axis with
  | child | attr | itself | parent => exact candidates_delivers ω _ _ _
  | descendant =>
    simp only [Axis.step, Axis.nodes, hg.descendants_eq]
    exact descendants_delivers hg ω _ _ _
  | descendantOrSelf =>
    have hv : n :: env.forest.descendants n = env.forest.visited [n] := by
      simp only [Forest.visited, List.flatMap_cons, List.flatMap_nil, List.append_nil]
    simp only [Axis.step, Axis.nodes, hv]
    exact descendants_delivers hg ω _ _ _

private theorem refined_axisStep (hg : env.forest.Grounded) (axis : Axis) (test : NodeTest) :
    Refined env values (.axisStep axis test) := by
  intro k ω scope ctx xs h hx
  cases hf : scope.focus? with
  | none => simp [eager, h.focus, hf] at hx
  | some f =>
    cases hn : f.item with
    | node n =>
      obtain rfl : axis.step env.forest test n = xs := by simpa [eager, h.focus, hf, hn] using hx
      have hc : scope.contextItem = .ok (.node n) := by simp only [Scope.contextItem, hf, hn]
      obtain ⟨s, hs, hd⟩ : ∃ s, axisStream env.forest axis test scope = .ok s ∧
          Delivers (regime env values _) (streamPull env) ω s (axis.step env.forest test n) :=
        axisStream_delivers (F := regime env values _) hg axis test hc ω
      refine .of_pure (fun w => ?_) hd
      simp only [atDepth, evaluate, hs]
      rfl
    | atomic | map | array | function => simp [eager, h.focus, hf, hn] at hx

end

/-! ### Operators -/

section

variable {env : Environment} {values : List (DeferredId × Except Error (List Item))} {F : Regime (World × Nat)}
  {ω : F.Situation} {s : Stream} {xs : List Item}

/-- An operand of an operator. -/
theorem operand_delivers {v : Option Atomic} (hv : operand? env.forest xs = some v)
    (h : Delivers F (streamPull env) ω s xs) :
    Delivers F (streamPull env) ω s.atomize (v.map ItemOf.atomic).toList := by
  cases ha : Item.atomizeAll env.forest xs with
  | error e => simp [operand?, ha, Except.toOption] at hv
  | ok vs =>
    have hv : single? vs = some v := by simpa [operand?, ha, Except.toOption] using hv
    have hmap : (v.map ItemOf.atomic : Option Item).toList = vs.map ItemOf.atomic := by
      rw [single?_eq_some hv]
      cases v <;> rfl
    rw [hmap]
    exact atomize_delivers ha h

end

section

variable {env : Environment} {values : List (DeferredId × Except Error (List Item))} {k l : Nat}
  {ω : Situation} {scope : Scope} {ctx : Context} {xs ls rs : List Item} {left right : Expr}

/-- A function of two operands, each of which is made of the value of an expression. -/
theorem Refined.combine (hl : Refined env values left) (hr : Refined env values right)
    (h : Presents env values k ω scope ctx) (hls : eager env.forest values ctx left = some ls)
    (hrs : eager env.forest values ctx right = some rs) {f : Combiner} {p : Stream → Stream}
    {a b : Option Item}
    (ha : ∀ ω s, Delivers (regime env values l) (streamPull env) ω s ls →
      Delivers (regime env values l) (streamPull env) ω (p s) a.toList)
    (hb : ∀ ω s, Delivers (regime env values l) (streamPull env) ω s rs →
      Delivers (regime env values l) (streamPull env) ω (p s) b.toList)
    (hf : ∀ ω, (regime env values l).Opens (streamPull env) ω
      (atDepth env fun E => f.apply env E [a, b]) .ok xs)
    (hk : k + (Expr.bindings left + Expr.bindings right) ≤ l) :
    (regime env values l).Opens (streamPull env) ω (atDepth env fun E => do
      let s ← evaluate env E scope left
      let t ← evaluate env E scope right
      return .zip f [p s, p t]) id xs := by
  refine opens_bind (hl.opens h hls (by omega)) fun ω₁ s h₁ hs => ?_
  refine opens_map id _ (hr.opens (l := l) (h.later h₁) hrs (by omega)) fun ω₂ t h₂ ht => ?_
  exact zip_delivers (.cons (ha _ _ (hs.later h₂)) (.cons (hb _ _ ht) .nil)) (hf ω₂)

/-- A combination of two operands has a value only if both expressions and both operands have one. -/
theorem exists_operands {α : Type} {operand : List Item → Option (Option α)}
    {f : α → α → Option (List Item)} {l r : Option (List Item)}
    (h : (do
      let ls ← l
      let rs ← r
      ofBoth f (← operand ls) (← operand rs)) = some xs) :
    ∃ ls rs a b, l = some ls ∧ r = some rs ∧ operand ls = some a ∧ operand rs = some b ∧
      ofBoth f a b = some xs := by
  obtain ⟨ls, hls, h⟩ := Option.bind_eq_some_iff.mp h
  obtain ⟨rs, hrs, h⟩ := Option.bind_eq_some_iff.mp h
  obtain ⟨a, ha, h⟩ := Option.bind_eq_some_iff.mp h
  obtain ⟨b, hb, h⟩ := Option.bind_eq_some_iff.mp h
  exact ⟨ls, rs, a, b, hls, hrs, ha, hb, h⟩

private theorem refined_arithmetic (op : ArithmeticOp) (hl : Refined env values left)
    (hr : Refined env values right) : Refined env values (.arithmetic op left right) := by
  intro k ω scope ctx xs h hx
  rw [eager] at hx
  obtain ⟨ls, rs, a, b, hls, hrs, ha, hb, hx⟩ := exists_operands hx
  exact hl.combine hr h hls hrs (fun _ _ => operand_delivers ha) (fun _ _ => operand_delivers hb)
    (fun _ => arithmetic_opens hx) (Nat.le_refl _)

private theorem refined_comparison (op : ComparisonOp) (hl : Refined env values left)
    (hr : Refined env values right) : Refined env values (.comparison op left right) := by
  intro k ω scope ctx xs h hx
  rw [eager] at hx
  obtain ⟨ls, rs, a, b, hls, hrs, ha, hb, hx⟩ := exists_operands hx
  exact hl.combine hr h hls hrs (fun _ _ => operand_delivers ha) (fun _ _ => operand_delivers hb)
    (fun _ => comparison_opens hx) (Nat.le_refl _)

private theorem refined_range (hl : Refined env values left) (hr : Refined env values right) :
    Refined env values (.range left right) := by
  intro k ω scope ctx xs h hx
  rw [eager] at hx
  obtain ⟨ls, rs, a, b, hls, hrs, ha, hb, hx⟩ := exists_operands hx
  exact hl.combine hr h hls hrs (fun _ _ => rangeBound_delivers ha) (fun _ _ => rangeBound_delivers hb)
    (fun _ => range_opens hx) (Nat.le_refl _)

private theorem refined_sign (op : UnaryOp) {operand : Expr} (ho : Refined env values operand) :
    Refined env values (.sign op operand) := by
  intro k ω scope ctx xs h hx
  rw [eager] at hx
  obtain ⟨ys, hys, hx⟩ := Option.bind_eq_some_iff.mp hx
  obtain ⟨a, ha, hx⟩ := Option.bind_eq_some_iff.mp hx
  have hx : a.elim (some []) (sign? op) = some xs := by cases a <;> exact hx
  refine opens_map id (fun s => Stream.zip (.sign op) [s.atomize]) (ho h hys) fun ω₁ s h₁ hs => ?_
  exact zip_delivers (.cons (operand_delivers ha hs) .nil) (sign_opens hx)

end

/-! ### Conditions -/

section

variable {env : Environment} {values : List (DeferredId × Except Error (List Item))} {k l : Nat}
  {ω : Situation} {scope : Scope} {ctx : Context} {xs ys ls rs : List Item} {left right : Expr}

theorem isTrue_ofBool (b : Bool) : (ItemOf.ofBool b : Item).isTrue = b := by
  cases b <;> rfl

/-- A function of the truth value of an expression. -/
theorem Refined.ofTruth {e : Expr} (he : Refined env values e) (h : Presents env values k ω scope ctx)
    (hxs : eager env.forest values ctx e = some xs) {b : Bool} (hb : Item.truth? none xs = some b)
    {f : Expander} (hf : ∀ ω', Evolves ω ω' → (regime env values l).Opens (streamPull env) ω'
      (atDepth env fun E => Expander.apply env E f (.ofBool b)) (fun t => (.ok t, f)) ys)
    (hl : k + Expr.bindings e ≤ l) :
    (regime env values l).Opens (streamPull env) ω (atDepth env fun E => do
      let s ← evaluate env E scope e
      return s.booleanValue.flatMap f) id ys := by
  refine opens_map id _ (he.opens (l := l) h hxs hl) fun ω₁ s h₁ hs => ?_
  have hd := flatMap_delivers (.cons (hf ω₁ h₁) (.nil f)) (truth_delivers hb hs)
  rw [List.flatten_singleton] at hd
  exact hd

/-- Only the branch that is chosen is evaluated. -/
private theorem refined_conditional {condition yes no : Expr} (hc : Refined env values condition)
    (hy : Refined env values yes) (hn : Refined env values no) :
    Refined env values (.conditional condition yes no) := by
  intro k ω scope ctx xs h hx
  rw [eager] at hx
  obtain ⟨cs, hcs, hx⟩ := Option.bind_eq_some_iff.mp hx
  obtain ⟨b, hb, hx⟩ := Option.bind_eq_some_iff.mp hx
  have hbind : Expr.bindings (.conditional condition yes no) =
    Expr.bindings condition + Expr.bindings yes + Expr.bindings no := rfl
  refine hc.ofTruth h hcs hb (f := .branch yes no scope) (fun ω' h' => ?_) (by omega)
  cases b with
  | true =>
    refine opens_answer _ id (hy.opens (h.later h') hx ?_) fun _ _ _ hs => hs
    omega
  | false =>
    refine opens_answer _ id (hn.opens (h.later h') hx ?_) fun _ _ _ hs => hs
    omega

/-- A truth value that decides, or else that of another expression. -/
theorem Refined.decide (hl : Refined env values left) (hr : Refined env values right)
    (h : Presents env values k ω scope ctx) (hls : eager env.forest values ctx left = some ls)
    (hrs : eager env.forest values ctx right = some rs) {a b : Bool} (ha : Item.truth? none ls = some a)
    (hb : Item.truth? none rs = some b) (deciding : Bool)
    (hk : k + (Expr.bindings left + Expr.bindings right) ≤ l) :
    (regime env values l).Opens (streamPull env) ω (atDepth env fun E => do
      let s ← evaluate env E scope left
      return s.booleanValue.flatMap (.decide deciding right scope)) id
      [.ofBool (if a = deciding then a else b)] := by
  refine hl.ofTruth h hls ha (fun ω' h' => ?_) (by omega)
  by_cases hd : a = deciding
  · rw [if_pos hd]
    refine .of_pure (fun w => ?_) (one_delivers (F := regime env values l) ω' (.ofBool a))
    simp only [atDepth, Expander.apply, isTrue_ofBool, if_pos hd]
    rfl
  · rw [if_neg hd]
    have he : (atDepth env fun E => Expander.apply env E (.decide deciding right scope) (.ofBool a)) =
        atDepth env fun E => do
          let s ← evaluate env E scope right
          return (.ok s.booleanValue, Expander.decide deciding right scope) := by
      funext w
      simp only [atDepth, Expander.apply, isTrue_ofBool, if_neg hd]
    rw [he]
    refine opens_answer _ Stream.booleanValue (hr.opens (h.later h') hrs ?_) fun _ _ _ hs =>
      truth_delivers hb hs
    omega

/-- A connective has a value only if both its operands have a truth value. -/
theorem exists_truths {f : Bool → Bool → Bool} {l r : Option (List Item)}
    (h : (do
      let a ← Item.truth? none (← l)
      let b ← Item.truth? none (← r)
      return [.ofBool (f a b)]) = some xs) :
    ∃ ls rs a b, l = some ls ∧ r = some rs ∧ Item.truth? none ls = some a ∧ Item.truth? none rs = some b ∧
      [.ofBool (f a b)] = xs := by
  obtain ⟨ls, hls, h⟩ := Option.bind_eq_some_iff.mp h
  obtain ⟨a, ha, h⟩ := Option.bind_eq_some_iff.mp h
  obtain ⟨rs, hrs, h⟩ := Option.bind_eq_some_iff.mp h
  obtain ⟨b, hb, h⟩ := Option.bind_eq_some_iff.mp h
  exact ⟨ls, rs, a, b, hls, hrs, ha, hb, Option.some.inj h⟩

/-- The right operand is evaluated only if the left one is true. -/
private theorem refined_conjunction (hl : Refined env values left) (hr : Refined env values right) :
    Refined env values (.conjunction left right) := by
  intro k ω scope ctx xs h hx
  rw [eager] at hx
  obtain ⟨ls, rs, a, b, hls, hrs, ha, hb, rfl⟩ := exists_truths hx
  have hab : (a && b) = if a = false then a else b := by cases a <;> rfl
  rw [hab]
  exact hl.decide hr h hls hrs ha hb false (Nat.le_refl _)

/-- The right operand is evaluated only if the left one is false. -/
private theorem refined_disjunction (hl : Refined env values left) (hr : Refined env values right) :
    Refined env values (.disjunction left right) := by
  intro k ω scope ctx xs h hx
  rw [eager] at hx
  obtain ⟨ls, rs, a, b, hls, hrs, ha, hb, rfl⟩ := exists_truths hx
  have hab : (a || b) = if a = true then a else b := by cases a <;> rfl
  rw [hab]
  exact hl.decide hr h hls hrs ha hb true (Nat.le_refl _)

end

/-! ### Bindings -/

section

variable {env : Environment} {values : List (DeferredId × Except Error (List Item))} {j k : Nat}
  {ω : Situation} {δ : Type} {out : Stream → δ} {xs ys : List Item}

/-- An action after another one that is of a smaller rank. -/
theorem opens_bind_of_le {f : Engine → Action Stream} {g : Engine → Stream → Action δ} (hjk : j ≤ k)
    (hf : (regime env values j).Opens (streamPull env) ω (atDepth env f) id xs)
    (hg : ∀ ω₁ s, Evolves ω ω₁ → Delivers (regime env values j) (streamPull env) ω₁ s xs →
      (regime env values k).Opens (streamPull env) ω₁ (atDepth env fun E => g E s) out ys) :
    (regime env values k).Opens (streamPull env) ω (atDepth env fun E => f E >>= g E) out ys := by
  intro ω₁ h₁ hv
  obtain ⟨s, ω₂, hs, he, hv₂, hd⟩ := hf ω₁ h₁ (valid_of_le hjk hv)
  have hv₂' : (regime env values k).Valid ω₂ :=
    valid_of_kept hv (he.1.mono fun _ _ hr => hr.1) he.2 hv₂
  obtain ⟨t, ω₃, ht, he', hv₃, hd'⟩ := hg ω₂ s (h₁.trans he.1.evolves) hd ω₂ (.refl ω₂) hv₂'
  refine ⟨t, ω₃, ?_, (regime env values k).effect_trans (effect_of_le hjk he) he', hv₃, hd'⟩
  have hs : atDepth env f (ω₁.world, ω₁.depth) = (s, ω₂.world, ω₂.depth) := hs
  have hbind : (atDepth env fun E => f E >>= g E) =
      atDepth env f >>= fun s => atDepth env fun E => g E s := rfl
  rw [hbind]
  simp only [bind, StateT.bind, hs]
  exact ht

/-- An action with a new buffer, which is pledged what its source delivers. -/
theorem opens_newBuffer {s : Stream} {g : Engine → BufferId → Action δ} (hjk : j < k)
    (hd : Delivers (regime env values j) (streamPull env) ω s xs)
    (hg : ∀ ω₁ b, Evolves ω ω₁ → ω₁.pledges b = some ⟨j, .complete xs⟩ →
      (regime env values k).Opens (streamPull env) ω₁ (atDepth env fun E => g E b) out ys) :
    (regime env values k).Opens (streamPull env) ω (atDepth env fun E => World.newBuffer s >>= g E) out
      ys := by
  intro ω₁ h₁ hv
  have hd₁ := produces_complete_iff.2 (Delivers.later (F := regime env values j) hd h₁)
  have he := newBuffer_effect hv hjk s (.complete xs)
  have hb := newBuffer_pledges_self ω₁ s ⟨j, .complete xs⟩
  obtain ⟨t, ω₃, ht, he', hv₃, hd'⟩ := hg _ _ (h₁.trans he.1.evolves) hb _ (.refl _) (newBuffer_valid hv hd₁)
  exact ⟨t, ω₃, ht, (regime env values k).effect_trans he he', hv₃, hd'⟩

variable {scope : Scope} {ctx : Context} {value source body : Expr}

/-- The value of a binding is put into a buffer of a new rank and not read before the body asks for it. -/
private theorem refined_letIn (x : Name) (hv : Refined env values value) (hb : Refined env values body) :
    Refined env values (.letIn x value body) := by
  intro k ω scope ctx xs h hx
  rw [eager] at hx
  obtain ⟨ys, hys, hx⟩ := Option.bind_eq_some_iff.mp hx
  have hbind : Expr.bindings (.letIn x value body) = Expr.bindings value + 1 + Expr.bindings body := rfl
  -- the buffer is of the rank of the value, and the body is evaluated one rank above
  refine opens_bind_of_le (by omega) (hv h hys) fun ω₁ s h₁ hs => ?_
  refine opens_newBuffer (by omega) hs fun ω₂ b h₂ hp => ?_
  have h' : Presents env values (k + Expr.bindings value + 1) ω₂ scope ctx :=
    (h.later (h₁.trans h₂)).lift (by omega)
  exact hb.opens (h'.binding (Nat.lt_succ_self _) hp x) hx (by omega)

end

/-! ### Loops -/

section

variable {env : Environment} {values : List (DeferredId × Except Error (List Item))} {k l : Nat}
  {ω : Situation} {scope : Scope} {ctx : Context} {xs ys : List Item} {base body : Expr}

/-- The streams that are made of the items one after the other, where the next state depends on the
position only. -/
theorem loop_delivers {F : Regime (World × Nat)} {ω : F.Situation} {s : Stream} {g : Nat → Expander}
    {f : Item × Nat → Option (List Item)}
    (h : ∀ x i ys, f (x, i + 1) = some ys → F.Opens (streamPull env) ω
      (atDepth env fun E => Expander.apply env E (g i) x) (fun t => (.ok t, g (i + 1))) ys) {n : Nat}
    (hy : forEach (xs.zipIdx (n + 1)) f = some ys) (hs : Delivers F (streamPull env) ω s xs) :
    Delivers F (streamPull env) ω (s.flatMap (g n)) ys := by
  obtain ⟨yss, hm, rfl⟩ := Option.map_eq_some_iff.mp hy
  refine flatMap_delivers ?_ hs
  clear hy hs
  induction xs generalizing n yss with
  | nil =>
    cases hm
    exact .nil (g n)
  | cons x xs ih =>
    rw [List.zipIdx_cons, List.mapM_cons] at hm
    obtain ⟨ys, hx, hm⟩ := Option.bind_eq_some_iff.mp hm
    obtain ⟨yss', hxs, hm⟩ := Option.bind_eq_some_iff.mp hm
    cases hm
    exact .cons (h x n ys hx) (ih yss' hxs)

/-- A loop that does not look at positions. -/
private theorem forEach_zipIdx (f : Item → Option (List Item)) (xs : List Item) (n : Nat) :
    forEach xs f = forEach (xs.zipIdx n) fun p => f p.1 := by
  have hmap : (xs.zipIdx n).map Prod.fst = xs := by simp
  have hm : xs.mapM f = (xs.zipIdx n).mapM (f ∘ Prod.fst) := by rw [← List.mapM_map, hmap]
  rw [forEach, forEach, hm]
  rfl

/-- Each item of the base is bound for one evaluation of the body. -/
private theorem refined_forIn (x : Name) (hs : Refined env values base) (hb : Refined env values body) :
    Refined env values (.forIn x base body) := by
  intro k ω scope ctx xs h hx
  rw [eager] at hx
  obtain ⟨ys, hys, hx⟩ := Option.bind_eq_some_iff.mp hx
  have hbind : Expr.bindings (.forIn x base body) = Expr.bindings base + 1 + Expr.bindings body := rfl
  refine opens_map id _ (hs.opens h hys (by omega)) fun ω₁ s h₁ hd => ?_
  rw [forEach_zipIdx _ _ 1] at hx
  refine loop_delivers (g := fun _ => .bindEach x body scope) ?_ hx hd
  intro y i ys hy
  -- the buffer of one item is of the lowest rank
  refine opens_newBuffer (j := 0) (by omega) (one_delivers (F := regime env values 0) ω₁ y) ?_
  intro ω₂ b h₂ hp
  have h' : Presents env values (k + 1) ω₂ scope ctx := (h.later (h₁.trans h₂)).lift (by omega)
  refine opens_answer _ id (hb.opens (h'.binding (Nat.succ_pos k) hp x) hy ?_) fun _ _ _ hs => hs
  omega

/-- An expression with the focus on each item, and what the focus knows about the size. -/
theorem forEachFocus_delivers {F : Regime (World × Nat)} {ω : F.Situation} {role : FocusRole} {s : Stream}
    {size : Option Nat} {f : Item × Nat → Option (List Item)}
    (hf : ∀ x i ys, f (x, i) = some ys → F.Opens (streamPull env) ω
      (atDepth env fun E => focusOn env E role body (scope.withFocus ⟨x, i, size,
        if size.isNone then some (.evaluated base scope) else none⟩) x i) .ok ys)
    (hy : forEach (xs.zipIdx 1) f = some ys) (hsize : s.exactSize? = .ok size)
    (hs : Delivers F (streamPull env) ω s xs) :
    Delivers F (streamPull env) ω (forEachFocus role base body scope s) ys := by
  unfold forEachFocus
  rw [hsize]
  refine loop_delivers (g := fun i => .focusEach role body scope size
    (if size.isNone then some (.evaluated base scope) else none) i) ?_ hy hs
  intro x i ys hx
  exact (hf x (i + 1) ys hx).wrap fun r => (r, Expander.focusEach role body scope size
    (if size.isNone then some (.evaluated base scope) else none) (i + 1))

/-- An expression with the focus on each item that does not depend on the size. -/
theorem focus_delivers {F : Regime (World × Nat)} {ω : F.Situation} {role : FocusRole} {s : Stream}
    {size : Option Nat} {f : Item × Nat → Option (List Item)}
    (hf : ∀ x i size sequence ys, f (x, i) = some ys → F.Opens (streamPull env) ω
      (atDepth env fun E => focusOn env E role body (scope.withFocus ⟨x, i, size, sequence⟩) x i) .ok ys)
    (hy : forEach (xs.zipIdx 1) f = some ys) (hsize : s.exactSize? = .ok size)
    (hs : Delivers F (streamPull env) ω s xs) :
    Delivers F (streamPull env) ω (forEachFocus role base body scope s) ys :=
  forEachFocus_delivers (fun x i => hf x i _ _) hy hsize hs

/-- The body is evaluated with the focus on each item. -/
private theorem refined_simpleMap (hs : Refined env values base) (hb : Refined env values body) :
    Refined env values (.simpleMap base body) := by
  intro k ω scope ctx xs h hx
  rw [eager] at hx
  obtain ⟨ys, hys, hx⟩ := Option.bind_eq_some_iff.mp hx
  have hbind : Expr.bindings (.simpleMap base body) = Expr.bindings base + Expr.bindings body := rfl
  refine evaluated_opens (hs.opens h hys (by omega)) fun ω₁ s size h₁ hsize hd => ?_
  refine focus_delivers (fun x i size sequence ys hy => ?_) hx hsize hd
  have h' := (h.later h₁).withFocus x i size sequence
  refine opens_map Except.ok id (hb.opens h' hy ?_) fun _ _ _ hs => hs
  omega

/-- The results of a path are sorted and without repetitions at the end. -/
private theorem refined_path (hs : Refined env values base) (hb : Refined env values body) :
    Refined env values (.path base body) := by
  intro k ω scope ctx xs h hx
  rw [eager] at hx
  obtain ⟨ys, hys, hx⟩ := Option.bind_eq_some_iff.mp hx
  obtain ⟨zs, hzs, hx⟩ := Option.bind_eq_some_iff.mp hx
  have ho : Item.inDocumentOrder env.forest zs = .ok xs := by
    cases hd : Item.inDocumentOrder env.forest zs with
    | error e => simp [hd, Except.toOption] at hx
    | ok ws => simpa [hd, Except.toOption] using hx
  have hbind : Expr.bindings (.path base body) = Expr.bindings base + Expr.bindings body := rfl
  refine evaluated_opens (e := fun s => (forEachFocus .path base body scope s).collect .documentOrder)
    (hs.opens h hys (by omega)) fun ω₁ s size h₁ hsize hd => documentOrder_delivers ho ?_
  refine focus_delivers (fun x i size sequence ys hy => ?_) hzs hsize hd
  have h' := (h.later h₁).withFocus x i size sequence
  have hy : (if x.isNode then eager env.forest values (ctx.focusOn x i) body else none) = some ys := hy
  by_cases hn : x.isNode = true
  · rw [if_pos hn] at hy
    have he : (atDepth env fun E => focusOn env E .path body
        (scope.withFocus ⟨x, i, size, sequence⟩) x i) = atDepth env fun E => do
          let s ← evaluate env E (scope.withFocus ⟨x, i, size, sequence⟩) body
          return .ok s := by
      funext w
      simp only [atDepth, focusOn, if_pos hn]
    rw [he]
    refine opens_map Except.ok id (hb.opens h' hy ?_) fun _ _ _ hs => hs
    omega
  · rw [if_neg hn] at hy
    cases hy

/-! ### Predicates -/

/-- An item is kept or not, depending on a truth value. -/
theorem keep_delivers {F : Regime (World × Nat)} {ω : F.Situation} {s : Stream} {position : Nat} {b : Bool}
    (hb : Item.truth? (some position) xs = some b) (hs : Delivers F (streamPull env) ω s xs) (x : Item) :
    Delivers F (streamPull env) ω ((s.predicateTruth position).flatMap (.keep x))
      (if b then [x] else []) := by
  have ho : F.Opens (streamPull env) ω (atDepth env fun E => Expander.apply env E (.keep x) (.ofBool b))
      (fun t => (.ok t, .keep x)) (if b then [x] else []) := by
    cases b with
    | true => exact .of_pure (fun _ => rfl) (one_delivers ω x)
    | false => exact .of_pure (fun _ => rfl) (empty_delivers ω)
  have hd := flatMap_delivers (.cons ho (.nil _)) (truth_delivers hb hs)
  rw [List.flatten_singleton] at hd
  exact hd

/-- A position that has been passed does not come again. -/
theorem passing_isNext_nil {position n : Nat} (h : position ≤ n) (xs : List Item) :
    passing (isNext position) n xs = [] := by
  induction xs generalizing n with
  | nil => rfl
  | cons x xs ih =>
    have hn : n + 1 ≠ position := by omega
    simp [passing, isNext, hn, ih (Nat.le_succ_of_le h)]

/-- Nothing after a position is needed for the item at the position. -/
theorem passing_isNext_take (position n : Nat) (xs : List Item) :
    passing (isNext position) n (xs.take (position - n)) = passing (isNext position) n xs := by
  induction xs generalizing n with
  | nil => simp
  | cons x xs ih =>
    by_cases h : position ≤ n
    · rw [passing_isNext_nil h, passing_isNext_nil h]
    · obtain ⟨m, hm⟩ : ∃ m, position - n = m + 1 := ⟨position - n - 1, by omega⟩
      have hm' : m = position - (n + 1) := by omega
      have hnext : (isNext position n x).2 = n + 1 := rfl
      rw [hm, List.take_succ_cons, passing, passing, hnext, hm', ih]

theorem forEach_cons {α : Type} {x : α} {xs : List α} {f : α → Option (List Item)} {ys zs : List Item}
    (hx : f x = some ys) (hxs : forEach xs f = some zs) : forEach (x :: xs) f = some (ys ++ zs) := by
  obtain ⟨zss, hm, rfl⟩ := Option.map_eq_some_iff.mp hxs
  simp [forEach, List.mapM_cons, hx, hm]

/-- The items at a constant position, by the truth value of the constant at every position. -/
theorem forEach_constant (i : Int) (n : Nat) (xs : List Item) :
    forEach (xs.zipIdx (n + 1)) (fun (x, j) => do
      let b ← Item.truth? (some j) [.atomic (.integer .integer i)]
      return if b then [x] else []) = some (if 0 < i then passing (isNext i.toNat) n xs else []) := by
  induction xs generalizing n with
  | nil => simp [forEach, passing]
  | cons x xs ih =>
    have ht : Item.truth? (some (n + 1)) [.atomic (.integer .integer i)] =
      some (i == ((n + 1 : Nat) : Int)) := rfl
    have hhead : (do
        let b ← Item.truth? (some (n + 1)) [.atomic (.integer .integer i)]
        return if b then [x] else []) = some (if i == ((n + 1 : Nat) : Int) then [x] else []) := by
      simp only [ht]
      rfl
    rw [List.zipIdx_cons, forEach_cons (by exact hhead) (ih (n + 1))]
    have hnext : (isNext i.toNat n x) = (decide (n + 1 = i.toNat), n + 1) := rfl
    by_cases hi : 0 < i
    · have hd : (i == ((n + 1 : Nat) : Int)) = decide (n + 1 = i.toNat) := by
        rw [Bool.eq_iff_iff, beq_iff_eq, decide_eq_true_eq]
        omega
      rw [if_pos hi, if_pos hi, passing, hnext, hd]
      cases decide (n + 1 = i.toNat) <;> rfl
    · have hd : (i == ((n + 1 : Nat) : Int)) = false := by
        rw [beq_eq_false_iff_ne]
        omega
      rw [if_neg hi, if_neg hi, hd]
      rfl

/-- Constant positions are integer literals. -/
private theorem constantPosition?_eq_some {e : Expr} {i : Int} (h : Expr.constantPosition? e = some i) :
    e = .literal (.integer .integer i) := by
  unfold Expr.constantPosition? at h
  split at h
  · cases h
    rfl
  · cases h

/-- A predicate is evaluated for each item, or cuts the base at a constant position. -/
private theorem refined_filter (hs : Refined env values base) (hb : Refined env values body) :
    Refined env values (.filter base body) := by
  intro k ω scope ctx xs h hx
  rw [eager] at hx
  obtain ⟨ys, hys, hx⟩ := Option.bind_eq_some_iff.mp hx
  have hbind : Expr.bindings (.filter base body) = Expr.bindings base + Expr.bindings body := rfl
  cases hc : Expr.constantPosition? body with
  | none =>
    have he : (atDepth env fun E => evaluate env E scope (.filter base body)) = atDepth env fun E => do
        let s ← evaluate env E scope base
        return forEachFocus .filter base body scope s := by
      funext w
      simp only [atDepth, evaluate, hc]
    rw [he]
    refine evaluated_opens (hs.opens h hys (by omega)) fun ω₁ s size h₁ hsize hd => ?_
    refine focus_delivers (fun x i size sequence zs hz => ?_) hx hsize hd
    obtain ⟨ws, hws, hz⟩ := Option.bind_eq_some_iff.mp hz
    obtain ⟨b, hb', hz⟩ := Option.bind_eq_some_iff.mp hz
    cases hz
    have h' := (h.later h₁).withFocus x i size sequence
    refine opens_map Except.ok (fun s => (s.predicateTruth i).flatMap (.keep x)) (hb.opens h' hws ?_)
      fun _ _ _ hs => keep_delivers hb' hs x
    omega
  | some i =>
    obtain rfl := constantPosition?_eq_some hc
    simp only [eager, Option.bind_eq_bind, Option.bind_some] at hx
    have hx := Option.some.inj ((forEach_constant i 0 ys).symm.trans hx)
    by_cases hi : 0 < i
    · rw [if_pos hi, ← passing_isNext_take i.toNat 0 ys, Nat.sub_zero] at hx
      have he : (atDepth env fun E => evaluate env E scope
          (.filter base (.literal (.integer .integer i)))) = atDepth env fun E => do
            let s ← evaluate env E scope base
            return constantFilter i.toNat s := by
        funext w
        simp only [atDepth, evaluate, hc, if_pos hi]
      rw [he, ← hx]
      exact opens_map id (constantFilter i.toNat) (hs.opens h hys (by omega)) fun _ _ _ hs =>
        only_delivers i.toNat (take_delivers i.toNat hs)
    · rw [if_neg hi] at hx
      subst hx
      refine .of_pure (fun w => ?_) (empty_delivers (F := regime env values _) ω)
      simp only [atDepth, evaluate, hc, if_neg hi]
      rfl

end

/-! ### Sequences -/

section

variable {env : Environment} {values : List (DeferredId × Except Error (List Item))} {k l : Nat}
  {ω : Situation} {scope : Scope} {ctx : Context}

/-- The streams of several expressions, along the expressions. -/
theorem evaluateAll_opens {es : List Expr} (hes : ∀ e ∈ es, Refined env values e)
    (h : Presents env values k ω scope ctx) {xss : List (List Item)}
    (hx : List.Forall₂ (fun e xs => eager env.forest values ctx e = some xs) es xss)
    (hl : k + Expr.bindingsAll es ≤ l) {ω₁ : Situation} (h₁ : Evolves ω ω₁)
    (hv : (regime env values l).Valid ω₁) : ∃ ss ω₂,
      atDepth env (fun E => evaluateAll env E scope es) (ω₁.world, ω₁.depth) =
        (ss, ω₂.world, ω₂.depth) ∧ (regime env values l).effect ω₁ ω₂ ∧
      (regime env values l).Valid ω₂ ∧
        List.Forall₂ (Delivers (regime env values l) (streamPull env) ω₂) ss xss := by
  induction hx generalizing ω₁ with
  | nil =>
    have hd := (regime env values l).drift_of_valid hv
    exact ⟨[], ω₁, rfl, (regime env values l).effect_of_drift hd, hv, .nil⟩
  | @cons e xs es xss he _ ih =>
    have hb : Expr.bindingsAll (e :: es) = Expr.bindings e + Expr.bindingsAll es := rfl
    obtain ⟨s, ω₂, hs, hf, hv₂, hd⟩ := (hes e (.head _)).opens h he (by omega) ω₁ h₁ hv
    obtain ⟨ss, ω₃, hss, hf', hv₃, hds⟩ := ih (fun e' he' => hes e' (.tail _ he')) (by omega)
      (h₁.trans hf.1.evolves) hv₂
    refine ⟨s :: ss, ω₃, ?_, (regime env values l).effect_trans hf hf', hv₃,
      .cons (Delivers.later (F := regime env values l) hd hf'.1.evolves) hds⟩
    have hs : atDepth env (fun E => evaluate env E scope e) (ω₁.world, ω₁.depth) =
      (s, ω₂.world, ω₂.depth) := hs
    have hbind : (atDepth env fun E => evaluateAll env E scope (e :: es)) =
        (atDepth env fun E => evaluate env E scope e) >>= fun s =>
          (atDepth env fun E => evaluateAll env E scope es) >>= fun ss => pure (s :: ss) := rfl
    rw [hbind]
    simp only [bind, StateT.bind, hs, hss]
    rfl

/-- The parts of a sequence one after the other. -/
private theorem refined_sequence {parts : List Expr} (hp : ∀ e ∈ parts, Refined env values e) :
    Refined env values (.sequence parts) := by
  intro k ω scope ctx xs h hx
  obtain ⟨xss, hxss, rfl⟩ := eager_sequence_eq_some hx
  intro ω₁ h₁ hv
  obtain ⟨ss, ω₂, hss, hf, hv₂, hds⟩ := evaluateAll_opens hp h hxss (Nat.le_refl _) h₁ hv
  refine ⟨.concat ss, ω₂, ?_, hf, hv₂, concat_delivers hds⟩
  have hbind : (atDepth env fun E => evaluate env E scope (.sequence parts)) (ω₁.world, ω₁.depth) =
      ((atDepth env fun E => evaluateAll env E scope parts) >>= fun ss => pure (Stream.concat ss))
        (ω₁.world, ω₁.depth) := rfl
  refine hbind.trans ?_
  simp only [bind, StateT.bind, hss]
  rfl

end

/-! ### All expressions -/

section

variable {env : Environment} {values : List (DeferredId × Except Error (List Item))}

mutual

/-- Every expression is refined, by recursion. -/
theorem refined (hg : env.forest.Grounded) (e : Expr) : Refined env values e :=
  match e with
  | .literal v => refined_literal v
  | .sequence parts => refined_sequence (refinedAll hg parts)
  | .range a b => refined_range (refined hg a) (refined hg b)
  | .contextItem => refined_contextItem
  | .varRef x => refined_varRef x
  | .arithmetic op a b => refined_arithmetic op (refined hg a) (refined hg b)
  | .sign op a => refined_sign op (refined hg a)
  | .comparison op a b => refined_comparison op (refined hg a) (refined hg b)
  | .conjunction a b => refined_conjunction (refined hg a) (refined hg b)
  | .disjunction a b => refined_disjunction (refined hg a) (refined hg b)
  | .conditional c a b => refined_conditional (refined hg c) (refined hg a) (refined hg b)
  | .letIn x a b => refined_letIn x (refined hg a) (refined hg b)
  | .forIn x a b => refined_forIn x (refined hg a) (refined hg b)
  | .simpleMap a b => refined_simpleMap (refined hg a) (refined hg b)
  | .filter a b => refined_filter (refined hg a) (refined hg b)
  | .path a b => refined_path (refined hg a) (refined hg b)
  | .axisStep axis test => refined_axisStep hg axis test
  | .deferred d => refined_deferred d
  | .items xs => refined_items xs
  | .host label source => refined_host label source
  | .call .. | .functionRef .. | .dynamicCall .. | .failing _ => refined_of_none fun _ => rfl

/-- All expressions of a list are refined. -/
theorem refinedAll (hg : env.forest.Grounded) (es : List Expr) : ∀ e ∈ es, Refined env values e :=
  match es with
  | [] => nofun
  | e :: es => List.forall_mem_cons.mpr ⟨refined hg e, refinedAll hg es⟩

end

end

end LazyXPath
