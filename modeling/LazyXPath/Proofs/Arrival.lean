import LazyXPath.Stream.Machine

/-!
# Evaluation and the values that arrive

Evaluation of an expression makes a stream and pulls nothing, so it does not matter which values have
arrived by then: to evaluate and then wait for values is to wait and then evaluate. Such an action
**ignores arrivals** (`IgnoresArrivals`). This holds for `evaluate` and `build`, with one case for each
case of their definitions (`evaluate_ignoresArrivals`), for calls and for repeated readings, and so for
the engines of all depths (`Engine.ofDepth_ignoresArrivals`).
-/

namespace LazyXPath

variable {α β : Type}

/-- A change of the values that have arrived. -/
abbrev Arrivals.Change :=
  List (DeferredId × Except Error (List Item)) → List (DeferredId × Except Error (List Item))

/-- The world after a change of the values that have arrived. -/
def World.arriving (change : Arrivals.Change) (w : World) : World :=
  { w with arrivals := change w.arrivals }

/-- An action that neither looks at the values that have arrived nor changes them. -/
def IgnoresArrivals (x : Action α) : Prop :=
  ∀ change w, x (w.arriving change) = ((x w).1, (x w).2.arriving change)

namespace IgnoresArrivals

private theorem of_pure (a : α) : IgnoresArrivals (pure a) := fun _ _ => rfl

/-- Actions that ignore arrivals may be done one after the other. -/
private theorem bind {x : Action α} {k : α → Action β} (hx : IgnoresArrivals x) (hk : ∀ a, IgnoresArrivals (k a)) :
    IgnoresArrivals (x >>= k) := by
  intro change w
  have h : (x >>= k) (w.arriving change) = k (x (w.arriving change)).1 (x (w.arriving change)).2 := rfl
  rw [h, hx change w]
  exact hk (x w).1 change (x w).2

/-- An action whose result is passed on. -/
theorem returning {x : Action α} (hx : IgnoresArrivals x) (f : α → β) :
    IgnoresArrivals (do return f (← x)) :=
  hx.bind fun a => of_pure (f a)

end IgnoresArrivals

namespace World

private theorem record_ignoresArrivals (e : Event) : IgnoresArrivals (record e) := fun _ _ => rfl

private theorem newBuffer_ignoresArrivals (s : Stream) : IgnoresArrivals (newBuffer s) := fun _ _ => rfl

private theorem newIdentity_ignoresArrivals : IgnoresArrivals newIdentity := fun _ _ => rfl

private theorem replay?_ignoresArrivals (name : String) : IgnoresArrivals (replay? name) := fun _ _ => rfl

/-- New buffers take streams as they are, without pulling them. -/
private theorem newBuffers_ignoresArrivals (ss : List (Option Stream)) : IgnoresArrivals (newBuffers ss) := by
  induction ss with
  | nil => exact .of_pure []
  | cons s ss ih =>
    cases s with
    | none => exact ih.returning _
    | some s => exact (newBuffer_ignoresArrivals s).bind fun b => ih.returning _

end World

/-- A partial application puts its arguments away unread. -/
private theorem Function.partiallyApply_ignoresArrivals (f : Function) (arguments : List (Option Stream)) :
    IgnoresArrivals (f.partiallyApply arguments) := by
  refine World.newIdentity_ignoresArrivals.bind fun identity => ?_
  cases f.forArguments identity arguments.length with
  | error e => exact .of_pure _
  | ok target =>
    refine World.newIdentity_ignoresArrivals.bind fun identity => ?_
    exact (World.newBuffers_ignoresArrivals arguments).returning _

/-- An engine whose calls and readings ignore arrivals. -/
structure Engine.IgnoresArrivals (E : Engine) : Prop where
  call : ∀ f scope arguments, LazyXPath.IgnoresArrivals (E.call f scope arguments)
  replay : ∀ r, LazyXPath.IgnoresArrivals (E.replay r)

section

variable {E : Engine} (hE : E.IgnoresArrivals)
include hE

namespace Engine.IgnoresArrivals

/-- An invocation in an engine that ignores arrivals only wraps the arguments into conversions before. -/
theorem invoke (f : Function) (scope : Scope) (arguments : List Stream) :
    LazyXPath.IgnoresArrivals (E.invoke f scope arguments) := by
  unfold Engine.invoke
  split
  · exact hE.call _ _ _
  · exact .of_pure _

/-- A call by overloads that has to wait for its arguments is a stream, so nothing is waited for here. -/
theorem invokeAny (name : Name) (fs : List Function) (scope : Scope) (arguments : List Stream) :
    LazyXPath.IgnoresArrivals (E.invokeAny name fs scope arguments) := by
  unfold Engine.invokeAny
  split
  · exact .of_pure _
  · exact hE.invoke _ _ _
  · exact .of_pure _

private theorem callNamed (registry : Registry) (name : Name) (scope : Scope) (arguments : List Stream) :
    LazyXPath.IgnoresArrivals (E.callNamed registry name scope arguments) := by
  unfold Engine.callNamed
  split
  · exact hE.invokeAny _ _ _ _
  · exact .of_pure _

end Engine.IgnoresArrivals

end

/-! ### Expressions -/

section

variable {env : Environment} {E : Engine}

mutual

/-- Evaluation makes a stream without waiting for anything. The cases are those of expressions. -/
theorem evaluate_ignoresArrivals (hE : E.IgnoresArrivals) (scope : Scope) (e : Expr) :
    IgnoresArrivals (evaluate env E scope e) := by
  match e with
  | .literal _ | .axisStep .. | .deferred _ | .items _ | .failing _ => exact .of_pure _
  | .sequence parts => exact (evaluateAll_ignoresArrivals hE scope parts).returning _
  | .range a b | .arithmetic _ a b | .comparison _ a b =>
    refine (evaluate_ignoresArrivals hE scope a).bind fun s => ?_
    exact (evaluate_ignoresArrivals hE scope b).returning _
  | .contextItem =>
    unfold evaluate
    split <;> exact .of_pure _
  | .varRef x =>
    unfold evaluate
    split
    · exact hE.replay _
    · exact .of_pure _
  | .sign _ a | .conjunction a _ | .disjunction a _ | .conditional a _ _ | .forIn _ a _ | .simpleMap a _
  | .path a _ | .dynamicCall a _ => exact (evaluate_ignoresArrivals hE scope a).returning _
  | .letIn x a b =>
    refine (evaluate_ignoresArrivals hE scope a).bind fun s => ?_
    refine (World.newBuffer_ignoresArrivals s).bind fun c => ?_
    exact evaluate_ignoresArrivals hE (.binding scope x (.buffered c)) b
  | .filter a b =>
    have hs := evaluate_ignoresArrivals hE scope a
    unfold evaluate
    split
    · split
      · exact hs.returning _
      · exact .of_pure _
    · exact hs.returning _
  | .call name arguments =>
    have ha := evaluateArguments_ignoresArrivals hE scope arguments
    unfold evaluate
    split
    · refine World.newIdentity_ignoresArrivals.bind fun identity => ?_
      split
      · exact .of_pure _
      · rename_i f _
        refine ha.bind fun ss => (f.partiallyApply_ignoresArrivals ss).bind fun r => ?_
        cases r <;> exact .of_pure _
    · exact ha.bind fun ss => (hE.callNamed _ _ _ _).returning _
  | .functionRef name n =>
    refine World.newIdentity_ignoresArrivals.bind fun identity => ?_
    split <;> exact .of_pure _
  | .host label s =>
    refine (World.record_ignoresArrivals (.host label)).bind fun _ => ?_
    exact (build_ignoresArrivals hE scope s).returning _

/-- The same of several expressions in a row. -/
theorem evaluateAll_ignoresArrivals (hE : E.IgnoresArrivals) (scope : Scope) (es : List Expr) :
    IgnoresArrivals (evaluateAll env E scope es) := by
  match es with
  | [] => exact .of_pure _
  | e :: es =>
    refine (evaluate_ignoresArrivals hE scope e).bind fun s => ?_
    exact (evaluateAll_ignoresArrivals hE scope es).returning _

/-- The same of arguments, of which some may be left open. -/
theorem evaluateArguments_ignoresArrivals (hE : E.IgnoresArrivals) (scope : Scope)
    (arguments : List (Option Expr)) :
    IgnoresArrivals (evaluateArguments env E scope arguments) := by
  match arguments with
  | [] => exact .of_pure _
  | a :: rest =>
    refine (evaluateArgument_ignoresArrivals hE scope a).bind fun s => ?_
    exact (evaluateArguments_ignoresArrivals hE scope rest).returning _

/-- The same of one argument. -/
theorem evaluateArgument_ignoresArrivals (hE : E.IgnoresArrivals) (scope : Scope) (a : Option Expr) :
    IgnoresArrivals (evaluateArgument env E scope a) := by
  match a with
  | none => exact .of_pure _
  | some e => exact (evaluate_ignoresArrivals hE scope e).returning _

/-- The same of the sources of a host. -/
theorem build_ignoresArrivals (hE : E.IgnoresArrivals) (scope : Scope) (s : Source) :
    IgnoresArrivals (build env E scope s) := by
  match s with
  | .empty | .one _ | .items _ | .script .. | .failed _ | .invalid _ | .deferred _ | .range .. =>
    exact .of_pure _
  | .replay name =>
    refine (World.replay?_ignoresArrivals name).bind fun r => ?_
    cases r with
    | none => exact .of_pure _
    | some r => exact (hE.replay r).returning _
  | .expr e => exact (evaluate_ignoresArrivals hE scope e).returning _
  | .invoke name arguments =>
    refine (buildAll_ignoresArrivals hE scope arguments).bind fun r => ?_
    cases r with
    | ok streams => exact hE.callNamed _ _ _ _
    | error e => exact .of_pure _
  | .map _ s | .mapAll _ s | .filter _ s | .flatMap _ s | .take _ s | .atomize s | .booleanValue s
  | .predicateTruth _ s | .convert _ s => exact (build_ignoresArrivals hE scope s).returning _
  | .concat parts | .zip _ parts | .zipOptional _ parts =>
    exact (buildAll_ignoresArrivals hE scope parts).returning _

/-- The same of several sources. -/
theorem buildAll_ignoresArrivals (hE : E.IgnoresArrivals) (scope : Scope) (ss : List Source) :
    IgnoresArrivals (buildAll env E scope ss) := by
  match ss with
  | [] => exact .of_pure _
  | s :: ss =>
    refine (build_ignoresArrivals hE scope s).bind fun r => ?_
    cases r with
    | error e => exact .of_pure _
    | ok t => exact (buildAll_ignoresArrivals hE scope ss).returning _

end

/-! ### Calls and readings -/

variable (hE : E.IgnoresArrivals)
include hE

/-- To read a sequence once more is to make a reader, or to evaluate it again. -/
private theorem evaluateReplay_ignoresArrivals (r : Replay) : IgnoresArrivals (evaluateReplay env E r) := by
  cases r with
  | items xs => exact .of_pure _
  | buffered b => exact .of_pure _
  | evaluated e scope => exact evaluate_ignoresArrivals hE scope e
  | regenerated s scope =>
    refine (World.record_ignoresArrivals .regenerate).bind fun _ => ?_
    exact (build_ignoresArrivals hE scope s).returning _
  | produced x s settings =>
    refine (World.record_ignoresArrivals (.produce x)).bind fun _ => ?_
    exact (build_ignoresArrivals hE (.root settings) s).returning _

omit hE in
private theorem bindNumbered_ignoresArrivals (scope : Scope) (number : Nat) (arguments : List Stream) :
    IgnoresArrivals (bindNumbered scope number arguments) := by
  induction arguments generalizing scope number with
  | nil => exact .of_pure scope
  | cons s rest ih => exact (World.newBuffer_ignoresArrivals s).bind fun b => ih _ (number + 1)

/-- The size of a focus is a number that is known, or a stream that counts. -/
private theorem contextSize_ignoresArrivals (scope : Scope) : IgnoresArrivals (contextSize E scope) := by
  unfold contextSize
  split
  · exact .of_pure _
  · split
    · split <;> exact .of_pure _
    · exact (hE.replay _).returning _
    · exact .of_pure _

/-- A call makes the stream of its result, whatever kind of function it calls. -/
private theorem callFunction_ignoresArrivals (f : Function) (scope : Scope) (arguments : List Stream) :
    IgnoresArrivals (callFunction env E f scope arguments) := by
  refine .returning ?_ _
  unfold applyFunction
  split
  · rename_i b _
    cases b with
    | last => exact (contextSize_ignoresArrivals hE scope).returning _
    | _ => exact .of_pure _
  · rename_i body _
    refine (World.record_ignoresArrivals _).bind fun _ => ?_
    cases body with
    | expr e =>
      refine (bindNumbered_ignoresArrivals scope 1 arguments).bind fun inner => ?_
      exact (evaluate_ignoresArrivals hE inner e).returning _
    | _ => exact .of_pure _
  · exact hE.invoke _ _ _
  · exact hE.invokeAny _ _ _ _

end

/-- The engines of all depths ignore arrivals. -/
theorem Engine.ofDepth_ignoresArrivals (env : Environment) (depth : Nat) :
    (Engine.ofDepth env depth).IgnoresArrivals := by
  induction depth with
  | zero => exact ⟨fun _ _ _ => .of_pure _, fun _ => .of_pure _⟩
  | succ depth ih => exact ⟨callFunction_ignoresArrivals ih, evaluateReplay_ignoresArrivals ih⟩

end LazyXPath
