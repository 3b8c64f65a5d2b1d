import LazyXPath.Function.Catalog
import LazyXPath.Proofs.Agreement.Machine
import LazyXPath.Proofs.Arrival
import LazyXPath.Proofs.Replay

/-!
# Bindings that are not used

A variable matters only to those who read it (`binding_irrelevant`). If a name does not occur free in a plain
expression, then it makes no difference whether it is bound, and what it is bound to is never pulled. And a
binding hides all earlier bindings of its name, so that they are seen in the sequence that is bound and
nowhere else.

Both follow from evaluation in scopes that agree. The reports are the same because the streams agree and the
worlds are alike. That a sequence is not pulled is found out by making its buffer a trap: evaluation without
the binding cannot reach the buffer (`OutOfReach`) and so does not spring the trap, and therefore the buffer
stays as it is when the name is bound to it.
-/

namespace LazyXPath

/-! ### The catalog -/

private theorem Registry.ofRegistrations_isCatalog {registrations : List (Name × Function)}
    (h : ∀ p ∈ registrations, p.2.isBuiltin = true) : (ofRegistrations registrations).IsCatalog := by
  intro name f hf
  obtain ⟨p, hp, rfl⟩ := Option.map_eq_some_iff.mp (mem_overloads_iff.mp hf)
  exact h p (List.mem_reverse.mp (List.mem_of_find?_eq_some hp))

private theorem Registry.standard_isCatalog : Registry.standard.IsCatalog := by
  have heq : Registry.standard =
      ofRegistrations (catalog.zipIdx.map fun p => (p.1.name, p.1.function p.2)) := by
    rw [ofRegistrations, List.foldl_map]
    rfl
  rw [heq]
  refine ofRegistrations_isCatalog fun p hp => ?_
  obtain ⟨q, -, rfl⟩ := List.mem_map.mp hp
  rfl

/-- The functions of the catalog come to no buffers. -/
theorem Registry.IsCatalog.spares {r : Registry} (hr : r.IsCatalog) (T : BufferId → Prop) : r.Spares T := by
  intro name fs hfs f hf
  have hbuiltin : f.isBuiltin = true := hr name f (by rwa [Registry.overloads, hfs])
  obtain ⟨identity, name, signature, callable⟩ := f
  cases callable with
  | builtin b => exact .builtin b
  | hosted | partially | overloaded => cases hbuiltin

/-! ### Plain expressions -/

mutual

/-- A plain expression contains no items. -/
theorem exprItems_of_isPlain (e : Expr) (h : Expr.isPlain e = true) : exprItems e = [] := by
  match e with
  | .literal _ | .contextItem | .varRef _ | .axisStep .. => rfl
  | .sequence parts => exact exprsItems_of_arePlain parts h
  | .range a b | .arithmetic _ a b | .comparison _ a b | .conjunction a b | .disjunction a b
  | .letIn _ a b | .forIn _ a b | .simpleMap a b | .filter a b | .path a b =>
    obtain ⟨ha, hb⟩ := Bool.and_eq_true_iff.mp h
    exact List.append_eq_nil_iff.mpr ⟨exprItems_of_isPlain a ha, exprItems_of_isPlain b hb⟩
  | .sign _ a => exact exprItems_of_isPlain a h
  | .conditional a b c =>
    obtain ⟨ha, hbc⟩ := Bool.and_eq_true_iff.mp h
    obtain ⟨hb, hc⟩ := Bool.and_eq_true_iff.mp hbc
    refine List.append_eq_nil_iff.mpr ⟨exprItems_of_isPlain a ha, ?_⟩
    exact List.append_eq_nil_iff.mpr ⟨exprItems_of_isPlain b hb, exprItems_of_isPlain c hc⟩
  | .call _ arguments => exact argumentsItems_of_arePlain arguments h
  | .functionRef .. | .dynamicCall .. | .deferred _ | .items _ | .host .. | .failing _ =>
    exact absurd h Bool.false_ne_true

theorem exprsItems_of_arePlain (es : List Expr) (h : exprsArePlain es = true) : exprsItems es = [] := by
  match es with
  | [] => rfl
  | e :: es =>
    obtain ⟨he, hes⟩ := Bool.and_eq_true_iff.mp h
    exact List.append_eq_nil_iff.mpr ⟨exprItems_of_isPlain e he, exprsItems_of_arePlain es hes⟩

theorem argumentsItems_of_arePlain (arguments : List (Option Expr)) (h : argumentsArePlain arguments = true) :
    argumentsItems arguments = [] := by
  match arguments with
  | [] => rfl
  | a :: rest =>
    obtain ⟨ha, hrest⟩ := Bool.and_eq_true_iff.mp h
    exact List.append_eq_nil_iff.mpr ⟨argumentItems_of_isPlain a ha, argumentsItems_of_arePlain rest hrest⟩

theorem argumentItems_of_isPlain (a : Option Expr) (h : argumentIsPlain a = true) : argumentItems a = [] := by
  match a with
  | none => rfl
  | some e => exact exprItems_of_isPlain e h

end

/-! ### Scopes -/

/-- Scopes that differ at most in what is bound to a name. -/
structure Scope.AgreeOff (x : Name) (s t : Scope) : Prop where
  settings : s.settings = t.settings
  focus : s.focus? = t.focus?
  values : ∀ y, y ≠ x → s.value? y = t.value? y

namespace Scope.AgreeOff

variable {x : Name} {s t : Scope} {r : Registry}

/-- A scope and a binding on top of it. -/
theorem of_binding (s : Scope) (x : Name) (v : Replay) : s.AgreeOff x (.binding s x v) :=
  ⟨rfl, rfl, fun _ hy => (if_neg (Ne.symm hy)).symm⟩

private theorem agreeOn (h : s.AgreeOff x t) {N : Name → Prop} (hx : ¬N x) : s.AgreeOn r N t where
  settings := h.settings
  values y hy := h.values y fun heq => hx (heq ▸ hy)
  focus := h.focus ▸ .same _

/-- The same binding on top makes up for the difference. -/
theorem rebound (h : s.AgreeOff x t) (v : Replay) (N : Name → Prop) :
    Scope.AgreeOn r N (.binding s x v) (.binding t x v) where
  settings := h.settings
  values y _ := by
    unfold Scope.value?
    split
    · rfl
    · rename_i hne
      exact h.values y (Ne.symm hne)
  focus := h.focus ▸ .same _

end Scope.AgreeOff

/-! ### What is seen of an evaluation -/

/-- What is seen of a stream: its reports, and the world after them. -/
structure Observation where
  reports : List (Outcome Item)
  world : World

/-- What is seen of the stream that an action makes, if it is pulled after each of several changes of the
values that have arrived. -/
def Environment.observe (env : Environment) (depth : Nat) (changes : List Arrivals.Change)
    (x : Action Stream) (w : World) : Observation :=
  let r := play (Engine.ofDepth env depth).step (changes.map World.arriving) (x w).1 (x w).2
  ⟨r.1, r.2.2⟩

section

variable {K : Trap} {env : Environment} {x y : Action Stream} {w w' : World}

/-- Values arrive in both worlds. -/
theorem World.arriving_inStep (changes : List Arrivals.Change) :
    ∀ m ∈ changes.map World.arriving,
      (∀ w, World.Sprung K w → World.Sprung K (m w)) ∧
        ∀ w w', World.Alike K env.registry w w' → World.Alike K env.registry (m w) (m w') := by
  intro m hm
  obtain ⟨change, -, rfl⟩ := List.mem_map.mp hm
  refine ⟨fun w h => h, ?_⟩
  rintro w _ ⟨size, agree, trap⟩
  exact .mk size agree trap

/-- Actions in step are observed to do the same, unless the trap is sprung. -/
theorem Environment.observe_inStep (h : (K.coupling env.registry).InStep x y (Stream.Agree env.registry))
    (depth : Nat) (changes : List Arrivals.Change) (hw : World.Alike K env.registry w w') :
    World.Sprung K (env.observe depth changes x w).world ∨
      World.Alike K env.registry (env.observe depth changes x w).world (env.observe depth changes y w').world ∧
        (env.observe depth changes x w).reports = (env.observe depth changes y w').reports := by
  have hplay {s s' : Stream} (hs : Stream.Agree env.registry s s') (w : World) :=
    Coupling.play_inStep (C := K.coupling env.registry)
      (fun _ _ hs => (Engine.ofDepth_inStep K env depth).step hs) (World.arriving_inStep changes) hs w
  obtain hsprung | ⟨hw, hs⟩ := (h w).2 w' hw
  · exact .inl ((hplay (Std.Refl.refl (x w).1) (x w).2).1 hsprung)
  · exact (hplay hs (x w).2).2 (y w').2 hw

/-- Without a trap, actions in step give the same reports and record the same events. -/
theorem Environment.observe_eq (h : (Trap.none.coupling env.registry).InStep x y (Stream.Agree env.registry))
    (depth : Nat) (changes : List Arrivals.Change) (w : World) :
    (env.observe depth changes x w).reports = (env.observe depth changes y w).reports ∧
      (env.observe depth changes x w).world.events = (env.observe depth changes y w).world.events := by
  obtain ⟨_, hb, -⟩ | ⟨hw, hreports⟩ := env.observe_inStep h depth changes (.refl w)
  · cases hb
  · exact ⟨hreports, hw.events_eq⟩

end

/-! ### Sequences that are not pulled -/

section

variable {env : Environment} {scope : Scope} {e : Expr} {w : World}

/-- A new buffer that holds the empty sequence in one world, and a sequence in the other. -/
theorem World.alike_newBuffer (r : Registry) (v : Stream) (w : World) :
    World.Alike ⟨some w.buffers.size, .start v⟩ r (World.newBuffer .empty w).2 (World.newBuffer v w).2 := by
  refine .mk ?_ (fun b hb => ?_) fun b hb => ?_
  · exact (Array.size_push _).trans (Array.size_push _).symm
  · have hne : b ≠ w.buffers.size := fun h => hb (congrArg some h.symm)
    change Option.Rel (Buffer.Agree r) (w.buffers.push _)[b]? _
    rw [Array.getElem?_push, Array.getElem?_push, if_neg hne, if_neg hne]
    exact Std.Refl.refl _
  · obtain rfl := Option.some.inj hb
    exact ⟨Array.getElem?_push_size, Array.getElem?_push_size⟩

/-- The buffer of an empty sequence stays as it is if the expression and its scope do not refer to it. -/
theorem observe_unreferenced (depth depth' : Nat) (henv : env.registry.Spares (· = w.buffers.size))
    (he : ItemsSpare (· = w.buffers.size) (exprItems e)) (hscope : scope.Spares (· = w.buffers.size))
    (hw : w.Spares (· = w.buffers.size)) {changes : List Arrivals.Change}
    (hchanges : ∀ c ∈ changes, LeavesAlone env w.buffers.size (World.arriving c)) :
    (env.observe depth' changes (evaluate env (.ofDepth env depth) scope e)
      (World.newBuffer .empty w).2).world.buffers[w.buffers.size]? = some (.start .empty) := by
  have hguards : World.Guards (· = w.buffers.size) (fun _ => .start .empty) (World.newBuffer .empty w).2 := by
    refine ⟨hw.newBuffer fun h => absurd rfl h, ?_⟩
    rintro _ rfl
    exact Array.getElem?_push_size
  obtain ⟨hguards, hs⟩ := evaluate_keeps (Engine.ofDepth_spares henv depth) henv hscope e he _ hguards
  have hstart := hguards.held _ rfl
  have hreach : OutOfReach env w.buffers.size _ _ :=
    ⟨(· = w.buffers.size), fun _ => .start .empty, rfl, henv, hguards, hs⟩
  refine (play_invariant (I := fun s w₁ => OutOfReach env w.buffers.size s w₁ ∧
    w₁.buffers[w.buffers.size]? = some (.start .empty)) ?_ ?_ ⟨hreach, hstart⟩).2
  · intro m hm s w₁ h
    obtain ⟨change, hc, rfl⟩ := List.mem_map.mp hm
    obtain ⟨hreach, hkept⟩ := hchanges change hc s w₁ h.1
    exact ⟨hreach, hkept.trans h.2⟩
  · intro s w₁ h
    obtain ⟨hreach, hkept⟩ := h.1.pulled depth' rfl
    exact ⟨hreach, hkept.trans h.2⟩

end

/-- **Bindings that are not used do not matter.** Expressions are evaluated and then pulled by engines of any
depths, while values arrive.

* A plain expression is evaluated with the functions of the catalog, and a name does not occur free in it. A
  sequence is put into a new buffer. Whether the name is bound to it or not, the reports are the same and the
  same events are recorded. If nothing refers to the new buffer in advance, then the sequence is not pulled.
* A name is bound, and any expression is the body. Then it does not matter what was bound to the same name
  before, except to the sequence that is bound: the body can as well be evaluated in any scope that differs
  only there. -/
theorem binding_irrelevant (depth depth' : Nat) (changes : List Arrivals.Change) (x : Name) (e : Expr)
    (w : World) :
    (∀ (forest : Forest) (scope : Scope) (v : Stream), Expr.isPlain e = true → x ∉ Expr.freeNames e →
      let env : Environment := ⟨forest, .standard⟩
      let E := Engine.ofDepth env depth
      let made := World.newBuffer v w
      let unbound := env.observe depth' changes (evaluate env E scope e) made.2
      let bound := env.observe depth' changes (evaluate env E (.binding scope x (.buffered made.1)) e) made.2
      unbound.reports = bound.reports ∧ unbound.world.events = bound.world.events ∧
        (scope.Spares (· = made.1) → w.Spares (· = made.1) →
          (∀ c ∈ changes, LeavesAlone env made.1 (World.arriving c)) →
            bound.world.buffers[made.1]? = some (.start v))) ∧
    ∀ (env : Environment) (s t : Scope) (a : Expr), s.AgreeOff x t →
      let E := Engine.ofDepth env depth
      let here := env.observe depth' changes (evaluate env E s (.letIn x a e)) w
      let elsewhere := env.observe depth' changes (do
        let v ← evaluate env E s a
        let b ← World.newBuffer v
        evaluate env E (.binding t x (.buffered b)) e) w
      here.reports = elsewhere.reports ∧ here.world.events = elsewhere.world.events := by
  constructor
  · intro forest scope v hplain hx env E made unbound bound
    have hcatalog : env.registry.IsCatalog := Registry.standard_isCatalog
    have hscopes : scope.AgreeOn env.registry (Expr.MayRead env.registry e) (.binding scope x (.buffered made.1)) :=
      (Scope.AgreeOff.of_binding scope x _).agreeOn fun h => hx (h hplain hcatalog)
    obtain ⟨hreports, hevents⟩ :=
      env.observe_eq (evaluate_inStep (Engine.ofDepth_inStep _ env depth) e hscopes) depth' changes made.2
    refine ⟨hreports, hevents, fun hscope hw hchanges => ?_⟩
    -- without the binding, the buffer is out of reach: if it is a trap, then it is not sprung
    have he : ItemsSpare (· = made.1) (exprItems e) := exprItems_of_isPlain e hplain ▸ .nil
    have hkept := observe_unreferenced depth depth' (hcatalog.spares _) he hscope hw hchanges
    obtain ⟨b, hb, buffer, hbuffer, hsource⟩ | ⟨halike, -⟩ :=
      env.observe_inStep (evaluate_inStep (Engine.ofDepth_inStep _ env depth) e hscopes) depth' changes
        (World.alike_newBuffer env.registry v w)
    · obtain rfl := Option.some.inj hb
      cases hkept.symm.trans hbuffer
      cases hsource
    · exact halike.held rfl
  · intro env s t a hst E here elsewhere
    refine env.observe_eq ?_ depth' changes w
    have hE := Engine.ofDepth_inStep .none env depth
    refine (evaluate_inStep hE a (.refl s)).bind fun _ _ h => ?_
    refine Coupling.InStep.bind (World.newBuffer_inStep h) ?_
    rintro b _ rfl
    exact evaluate_inStep hE e (hst.rebound (.buffered b) _)

/-- Two items, each bound to a name that may be bound already. -/
def shadowing : Expr :=
  .forIn (.plain "y") (.sequence [.literal (.ofInt 1), .literal (.ofInt 2)])
    (.letIn (.plain "x") (.varRef (.plain "y")) (.varRef (.plain "x")))

/-- A sequence that records its pulls. -/
def recordingSequence : Stream := .run (.script "v" [.item (.ofInt 7)] none)

/-- A value that nobody waits for arrives again and again. -/
def sevensArriving : List Arrivals.Change :=
  List.replicate 14 fun arrivals => arrivals ++ [("d", .ok [.ofInt 7])]

/-- The name is bound once more in the body, so that it does not occur free. Its first sequence would record
its pulls. -/
theorem binding_irrelevant_shadowed :
    let env : Environment := ⟨{}, .standard⟩
    let E := Engine.ofDepth env 3
    let made := World.newBuffer recordingSequence {}
    let outer : Scope := .root default
    let x : Name := .plain "x"
    let unbound := env.observe 3 sevensArriving (evaluate env E outer shadowing) made.2
    let bound := env.observe 3 sevensArriving
      (evaluate env E (.binding outer x (.buffered made.1)) shadowing) made.2
    let here := env.observe 3 sevensArriving
      (evaluate env E outer (.letIn x (.literal (.ofInt 5)) shadowing)) {}
    let elsewhere := env.observe 3 sevensArriving (do
      let v ← evaluate env E outer (.literal (.ofInt 5))
      let b ← World.newBuffer v
      evaluate env E (.binding (.binding outer x (.items [.ofInt 9])) x (.buffered b)) shadowing) {}
    (Expr.isPlain shadowing = true ∧ x ∉ Expr.freeNames shadowing) ∧
      bound.reports.filterMap Outcome.item? = [.ofInt 1, .ofInt 2] ∧ unbound.reports = bound.reports ∧
      bound.world.buffers[made.1]? = some (.start recordingSequence) ∧ here.reports = elsewhere.reports := by
  have hplain : Expr.isPlain shadowing = true := rfl
  have hx : .plain "x" ∉ Expr.freeNames shadowing := by decide
  have hunused := (binding_irrelevant 3 3 sevensArriving (.plain "x") shadowing {}).1 {} (.root default)
    recordingSequence hplain hx
  have hhidden := (binding_irrelevant 3 3 sevensArriving (.plain "x") shadowing {}).2 ⟨{}, .standard⟩
    (.root default) (.binding (.root default) (.plain "x") (.items [.ofInt 9])) (.literal (.ofInt 5))
    (.of_binding _ _ _)
  obtain ⟨hreports, -, hkept⟩ := hunused
  refine ⟨⟨hplain, hx⟩, rfl, hreports, ?_, hhidden.1⟩
  refine hkept trivial ?_ ?_
  · exact ⟨fun _ _ _ h => by simp at h, by rintro _ _ ⟨⟩, by rintro _ _ ⟨⟩⟩
  · intro c hc
    obtain rfl := List.eq_of_mem_replicate hc
    exact leavesAlone_arrival _ _ "d" fun T => itemsSpare_cons.mpr ⟨Item.spares_atomic _, .nil⟩

end LazyXPath
