import LazyXPath.Proofs.Agreement.World

/-!
# Evaluation in scopes that agree

An expression is evaluated in step in two scopes that agree on the variables it may read
(`evaluate_inStep`). Each case is a case of the evaluation: what is evaluated at once needs scopes that
agree on what a part may read, and what is evaluated later is kept with such scopes. A body below a binding
may read the name that is bound, which is the same on both sides. Functions of the catalog look at the focus
and the settings only; all others may read everything.
-/

namespace LazyXPath

section

variable {K : Trap} {r : Registry} {E : Engine} {s t : Scope} {N : Name → Prop}

/-! ### The functions of the catalog -/

/-- The nodes on an axis depend on the context item only. -/
private theorem axisStream_eq (forest : Forest) (axis : Axis) (test : NodeTest) (hs : s.AgreeOn r N t) :
    axisStream forest axis test s = axisStream forest axis test t := by
  unfold axisStream
  rw [hs.contextItem_eq]

/-- The size of a focus is the same number, or it is counted in sequences that agree. -/
private theorem contextSize_inStep (hE : E.InStep K r) (hs : s.AgreeOn r N t) :
    (K.coupling r).InStep (contextSize E s) (contextSize E t) (Stream.Agree r) := by
  obtain ⟨-, -, hf⟩ := hs
  -- a sequence that has to be counted is read in step
  have hcount {q q' : Replay} (hq : q.Agree r q') :
      (K.coupling r).InStep (do return (← E.replay q).collect .contextSize)
        (do return (← E.replay q').collect .contextSize) (Stream.Agree r) :=
    (hE.replay hq).bind fun _ _ h => .of_pure (.collect _ h)
  unfold contextSize
  generalize s.focus? = f at hf
  generalize t.focus? = f' at hf
  cases hf with
  | same f =>
    split
    · exact .of_pure (.refl _)
    · split
      · split <;> exact .of_pure (.refl _)
      · exact hcount (.same _)
      · exact .of_pure (.refl _)
  | evaluated item position size settings values focus =>
    cases size with
    | some n =>
      dsimp only
      split <;> exact .of_pure (.refl _)
    | none => exact hcount (.evaluated ⟨settings, values, focus⟩)

namespace Builtin

variable {arguments arguments' : List Stream}

private theorem only_agree (ha : List.Forall₂ (Stream.Agree r) arguments arguments') :
    Attempts (Stream.Agree r) (only arguments) (only arguments') := by
  have hlength := ha.length_eq
  cases ha with
  | nil => exact .error _
  | cons h ha =>
    cases ha with
    | nil => exact .ok h
    | cons => exact .of_eq (congrArg (fun n => Except.error (Error.argumentCount 1 n)) hlength)

/-- What a function reads is an argument, or the context item, which is the same. -/
private theorem argumentOrFocus_agree (hs : s.AgreeOn r N t)
    (ha : List.Forall₂ (Stream.Agree r) arguments arguments') :
    Attempts (Stream.Agree r) (argumentOrFocus s arguments) (argumentOrFocus t arguments') := by
  cases ha with
  | nil => exact .of_eq (congrArg (Except.map StreamOf.one) hs.contextItem_eq)
  | cons h _ => exact .ok h

/-- Counting takes a shortcut at an exact hint, and the hints are the same. -/
private theorem countStream_agree {u u' : Stream} (h : Stream.Agree r u u') :
    Attempts (Stream.Agree r) (countStream u) (countStream u') := by
  unfold countStream
  rw [h.exactSize?_eq]
  rcases u'.exactSize? with e | _ | n
  · exact .error e
  · exact .ok (.run (.count 0 h))
  · exact Std.Refl.refl _

/-- The length of a string is counted in an argument, or it is that of the context item. -/
private theorem lengthStream_agree (forest : Forest) (hs : s.AgreeOn r N t)
    (ha : List.Forall₂ (Stream.Agree r) arguments arguments') :
    Attempts (Stream.Agree r) (lengthStream forest s arguments) (lengthStream forest t arguments') := by
  cases ha with
  | nil =>
    unfold lengthStream
    rw [hs.contextItem_eq]
    exact Std.Refl.refl _
  | cons h ha => exact (only_agree (.cons h ha)).bind fun _ _ h => .ok (.collect _ h)

/-- Functions of the catalog look at the focus and the settings only, so any scopes that agree will do. -/
private theorem apply_inStep (env : Environment) (hE : E.InStep K r) (b : Builtin) (hs : s.AgreeOn r N t)
    (ha : List.Forall₂ (Stream.Agree r) arguments arguments') :
    (K.coupling r).InStep (b.apply env E s arguments) (b.apply env E t arguments')
      (Attempts (Stream.Agree r)) := by
  have honly := only_agree ha
  have hfocus := argumentOrFocus_agree hs ha
  cases b with
  | yes | no => exact .of_pure (.ok (.refl _))
  | not => exact .of_pure (honly.map fun _ _ h => .run (.map .invert (Stream.Agree.booleanValue h)))
  | boolean => exact .of_pure (honly.map fun _ _ h => .booleanValue h)
  | empty | nonempty => exact .of_pure (honly.map fun _ _ h => .run (.presence _ _ h))
  | count => exact .of_pure (honly.bind fun _ _ h => countStream_agree h)
  | head => exact .of_pure (honly.map fun _ _ h => .run (.take 1 h))
  | tail => exact .of_pure (honly.map fun _ _ h => .run (.filter _ h))
  | data => exact .of_pure (hfocus.map fun _ _ h => .atomize h)
  | string => exact .of_pure (hfocus.map fun _ _ h => .collect _ h)
  | stringLength => exact .of_pure (lengthStream_agree env.forest hs ha)
  | concat => exact .of_pure (.ok (.zip (.same _) ha))
  | abs | construct => exact .of_pure (honly.map fun _ _ h => .run (.map _ h))
  | currentDateTime | currentDate | currentTime | implicitTimezone =>
    unfold Builtin.apply
    rw [hs.settings]
    exact .of_pure (.ok (.refl _))
  | position =>
    unfold Builtin.apply positionStream
    rw [hs.contextPosition_eq]
    exact .of_pure (Std.Refl.refl _)
  | last => exact (contextSize_inStep hE hs).bind fun _ _ h => .of_pure (.ok h)

end Builtin

/-- The arguments of a host function are bound to buffers with the same numbers, so the scopes agree on the
same variables again. -/
private theorem bindNumbered_inStep (hs : s.AgreeOn r N t) {arguments arguments' : List Stream}
    (ha : List.Forall₂ (Stream.Agree r) arguments arguments') (number : Nat) :
    (K.coupling r).InStep (bindNumbered s number arguments) (bindNumbered t number arguments')
      (Scope.AgreeOn r N) := by
  induction ha generalizing s t number with
  | nil => exact .of_pure hs
  | cons h _ ih =>
    refine Coupling.InStep.bind (World.newBuffer_inStep h) ?_
    rintro b _ rfl
    exact ih (hs.binding _ (.buffered b)) (number + 1)

end

/-! ### Expressions -/

section

variable {K : Trap} {env : Environment} {E : Engine}

mutual

/-- An expression is evaluated in step in two scopes that agree on the variables it may read. The cases are
those of the evaluation. -/
theorem evaluate_inStep (hE : E.InStep K env.registry) {s t : Scope} (e : Expr)
    (hs : s.AgreeOn env.registry (Expr.MayRead env.registry e) t) :
    (K.coupling env.registry).InStep (evaluate env E s e) (evaluate env E t e) (Stream.Agree env.registry) := by
  match e with
  | .literal _ | .deferred _ | .items _ | .failing _ => exact .of_pure (.refl _)
  | .sequence parts => exact (evaluateAll_inStep hE parts hs).bind fun _ _ h => .of_pure (.concat h)
  | .range a b =>
    refine (evaluate_inStep hE a hs.left).bind fun _ _ ha => ?_
    exact (evaluate_inStep hE b hs.right).bind fun _ _ hb =>
      .of_pure (.zipPair (.same _) (.convert _ ha) (.convert _ hb))
  | .contextItem =>
    unfold evaluate
    rw [hs.contextItem_eq]
    split <;> exact .of_pure (.refl _)
  | .varRef x =>
    -- this is where a variable is read
    have hx : s.value? x = t.value? x := hs.values x fun _ _ => .head _
    unfold evaluate
    rw [hx]
    split
    · exact hE.replay (.same _)
    · exact .of_pure (.refl _)
  | .arithmetic op a b | .comparison op a b =>
    refine (evaluate_inStep hE a hs.left).bind fun _ _ ha => ?_
    exact (evaluate_inStep hE b hs.right).bind fun _ _ hb =>
      .of_pure (.zipPair (.same _) (.atomize ha) (.atomize hb))
  | .sign op a =>
    exact (evaluate_inStep hE a hs).bind fun _ _ h => .of_pure (.zip (.same _) (.cons (.atomize h) .nil))
  | .conjunction a b | .disjunction a b =>
    exact (evaluate_inStep hE a hs.left).bind fun _ _ h =>
      .of_pure (.flatMap (.decide _ hs.right) (.booleanValue h))
  | .conditional a b c =>
    exact (evaluate_inStep hE a hs.left).bind fun _ _ h =>
      .of_pure (.flatMap (.branch hs.right) (.booleanValue h))
  | .letIn x a b =>
    refine (evaluate_inStep hE a hs.left).bind fun _ _ h => ?_
    refine Coupling.InStep.bind (World.newBuffer_inStep h) ?_
    rintro c _ rfl
    exact evaluate_inStep hE b (hs.right.bind (.buffered c))
  | .forIn x a b =>
    exact (evaluate_inStep hE a hs.left).bind fun _ _ h => .of_pure (.flatMap (.bindEach hs.right) h)
  | .simpleMap a b =>
    exact (evaluate_inStep hE a hs.left).bind fun _ _ h => .of_pure (.forEachFocus _ hs.left hs.right h)
  | .filter a b =>
    have ha := evaluate_inStep hE a hs.left
    unfold evaluate
    split
    · split
      · exact ha.bind fun _ _ h => .of_pure (.constantFilter _ h)
      · exact .of_pure (.refl _)
    · exact ha.bind fun _ _ h => .of_pure (.forEachFocus _ hs.left hs.right h)
  | .path a b =>
    exact (evaluate_inStep hE a hs.left).bind fun _ _ h =>
      .of_pure (.collect _ (.forEachFocus _ hs.left hs.right h))
  | .axisStep axis test =>
    unfold evaluate
    rw [axisStream_eq env.forest axis test hs]
    exact .of_pure (.refl _)
  | .call name arguments =>
    -- with an argument left open a function is made, and otherwise one is called
    have ha := evaluateArguments_inStep hE arguments hs
    unfold evaluate
    split
    · refine World.newIdentity_steady.bind fun identity => ?_
      rw [hs.settings]
      split
      · exact .of_pure (.refl _)
      · rename_i f _
        refine ha.bind fun _ _ h => Coupling.InStep.bind (f.partiallyApply_inStep h) ?_
        rintro (_ | g) _ rfl <;> exact .of_pure (.refl _)
    · refine ha.bind fun _ _ h => ?_
      exact (hE.callNamed (forall₂_filterMap_id h) name hs.calls).bind fun _ _ h => .of_pure (.orFailed h)
  | .functionRef name n =>
    unfold evaluate
    rw [hs.settings]
    refine World.newIdentity_steady.bind fun identity => ?_
    split <;> exact .of_pure (.refl _)
  | .dynamicCall target arguments =>
    refine (evaluate_inStep hE target hs.everywhere).bind fun _ _ h => ?_
    exact .of_pure (.zip (.call arguments hs.everywhere) (.cons (.convert _ h) .nil))
  | .host label source =>
    refine (World.record_steady (.host label)).bind fun _ => ?_
    exact (build_inStep hE source hs.everywhere).bind fun _ _ h => .of_pure (.orFailed h)

/-- The same of several expressions in a row. -/
theorem evaluateAll_inStep (hE : E.InStep K env.registry) {s t : Scope} (es : List Expr)
    (hs : s.AgreeOn env.registry (MayRead env.registry (exprsArePlain es) (exprsFreeNames es)) t) :
    (K.coupling env.registry).InStep (evaluateAll env E s es) (evaluateAll env E t es)
      (List.Forall₂ (Stream.Agree env.registry)) := by
  match es with
  | [] => exact .of_pure .nil
  | e :: es =>
    refine (evaluate_inStep hE e hs.left).bind fun _ _ h => ?_
    exact (evaluateAll_inStep hE es hs.right).bind fun _ _ hes => .of_pure (.cons h hes)

/-- The same of arguments, of which some may be left open. -/
theorem evaluateArguments_inStep (hE : E.InStep K env.registry) {s t : Scope} (arguments : List (Option Expr))
    (hs : s.AgreeOn env.registry
      (MayRead env.registry (argumentsArePlain arguments) (argumentsFreeNames arguments)) t) :
    (K.coupling env.registry).InStep (evaluateArguments env E s arguments) (evaluateArguments env E t arguments)
      (List.Forall₂ (Option.Rel (Stream.Agree env.registry))) := by
  match arguments with
  | [] => exact .of_pure .nil
  | a :: rest =>
    refine (evaluateArgument_inStep hE a hs.left).bind fun _ _ h => ?_
    exact (evaluateArguments_inStep hE rest hs.right).bind fun _ _ hrest => .of_pure (.cons h hrest)

/-- The same of one argument. -/
theorem evaluateArgument_inStep (hE : E.InStep K env.registry) {s t : Scope} (a : Option Expr)
    (hs : s.AgreeOn env.registry (MayRead env.registry (argumentIsPlain a) (argumentFreeNames a)) t) :
    (K.coupling env.registry).InStep (evaluateArgument env E s a) (evaluateArgument env E t a)
      (Option.Rel (Stream.Agree env.registry)) := by
  match a with
  | none => exact .of_pure .none
  | some e => exact (evaluate_inStep hE e hs).bind fun _ _ h => .of_pure (.some h)

/-- The same of the sources of a host, which may read everything. -/
theorem build_inStep (hE : E.InStep K env.registry) {s t : Scope} (source : Source)
    (hs : s.AgreeOn env.registry (fun _ => True) t) :
    (K.coupling env.registry).InStep (build env E s source) (build env E t source)
      (Attempts (Stream.Agree env.registry)) := by
  match source with
  | .empty | .one _ | .items _ | .script .. | .failed _ | .deferred _ | .range .. => exact .of_pure (.ok (.refl _))
  | .invalid e => exact .of_pure (.error e)
  | .replay name =>
    refine (World.replay?_steady name).bind fun q => ?_
    cases q with
    | none => exact .of_pure (.ok (.refl _))
    | some q => exact (hE.replay (.same q)).bind fun _ _ h => .of_pure (.ok h)
  | .expr e => exact (evaluate_inStep hE e (hs.mono fun _ _ => trivial)).bind fun _ _ h => .of_pure (.ok h)
  | .invoke name arguments =>
    refine (buildAll_inStep hE arguments hs).bind fun _ _ h => ?_
    cases h with
    | ok h => exact hE.callNamed h name (hs.mono fun _ _ => trivial)
    | error e => exact .of_pure (.error e)
  | .map f u => exact (build_inStep hE u hs).bind fun _ _ h => .of_pure (h.map fun _ _ h => .run (.map _ h))
  | .mapAll f u => exact (build_inStep hE u hs).bind fun _ _ h => .of_pure (h.map fun _ _ h => .collect _ h)
  | .filter f u => exact (build_inStep hE u hs).bind fun _ _ h => .of_pure (h.map fun _ _ h => .run (.filter _ h))
  | .flatMap f u =>
    exact (build_inStep hE u hs).bind fun _ _ h => .of_pure (h.map fun _ _ h => .flatMap (.host f) h)
  | .take n u => exact (build_inStep hE u hs).bind fun _ _ h => .of_pure (h.map fun _ _ h => .run (.take n h))
  | .atomize u => exact (build_inStep hE u hs).bind fun _ _ h => .of_pure (h.map fun _ _ h => .atomize h)
  | .booleanValue u => exact (build_inStep hE u hs).bind fun _ _ h => .of_pure (h.map fun _ _ h => .booleanValue h)
  | .predicateTruth position u =>
    exact (build_inStep hE u hs).bind fun _ _ h => .of_pure (h.map fun _ _ h => .run (.truth _ _ h))
  | .convert type u => exact (build_inStep hE u hs).bind fun _ _ h => .of_pure (h.map fun _ _ h => .convert type h)
  | .concat parts => exact (buildAll_inStep hE parts hs).bind fun _ _ h => .of_pure (h.map fun _ _ h => .concat h)
  | .zip f parts | .zipOptional f parts =>
    exact (buildAll_inStep hE parts hs).bind fun _ _ h => .of_pure (h.map fun _ _ h => .zip (.same _) h)

/-- The same of several sources. -/
theorem buildAll_inStep (hE : E.InStep K env.registry) {s t : Scope} (sources : List Source)
    (hs : s.AgreeOn env.registry (fun _ => True) t) :
    (K.coupling env.registry).InStep (buildAll env E s sources) (buildAll env E t sources)
      (Attempts (List.Forall₂ (Stream.Agree env.registry))) := by
  match sources with
  | [] => exact .of_pure (.ok .nil)
  | u :: rest =>
    refine (build_inStep hE u hs).bind fun _ _ h => ?_
    cases h with
    | error e => exact .of_pure (.error e)
    | ok h =>
      exact (buildAll_inStep hE rest hs).bind fun _ _ hrest => .of_pure (hrest.map fun _ _ hrest => .cons h hrest)

end

variable (hE : E.InStep K env.registry) {s t : Scope}
include hE

/-- A sequence is read once more from the same items or buffer, or evaluated again in scopes that agree. -/
theorem evaluateReplay_inStep {q q' : Replay} (hq : q.Agree env.registry q') :
    (K.coupling env.registry).InStep (evaluateReplay env E q) (evaluateReplay env E q')
      (Stream.Agree env.registry) := by
  cases hq with
  | evaluated h => exact evaluate_inStep hE _ h
  | same q =>
    cases q with
    | items xs => exact .of_pure (.refl _)
    | buffered b => exact .of_pure (.refl _)
    | evaluated e scope => exact evaluate_inStep hE e (.refl scope)
    | regenerated u scope =>
      refine (World.record_steady .regenerate).bind fun _ => ?_
      exact (build_inStep hE u (.refl scope)).bind fun _ _ h => .of_pure (.orFailed h)
    | produced x u settings =>
      refine (World.record_steady (.produce x)).bind fun _ => ?_
      exact (build_inStep hE u (.refl (.root settings))).bind fun _ _ h => .of_pure (.orFailed h)

/-! ### Calls -/

variable {arguments arguments' : List Stream} (ha : List.Forall₂ (Stream.Agree env.registry) arguments arguments')
include ha

/-- The body of a host function may read everything. -/
private theorem applyBody_inStep (name : Name) (body : BodyOf Item)
    (hs : s.AgreeOn env.registry (fun _ => True) t) :
    (K.coupling env.registry).InStep (applyBody env E name body s arguments)
      (applyBody env E name body t arguments') (Attempts (Stream.Agree env.registry)) := by
  cases body with
  | const | name | failed => exact .of_pure (.ok (.refl _))
  | argument i =>
    have hi := forall₂_getElem? ha i
    refine .of_pure (.ok ?_)
    generalize arguments[i]? = u at hi
    generalize arguments'[i]? = u' at hi
    cases hi with
    | none => exact .refl _
    | some h => exact h
  | concat => exact .of_pure (.ok (.concat ha))
  | argumentCount =>
    unfold applyBody
    rw [ha.length_eq]
    exact .of_pure (.ok (.refl _))
  | fail e => exact .of_pure (.error e)
  | describe => exact .of_pure (.ok (.collect _ (.concat ha)))
  | expr e =>
    refine (bindNumbered_inStep hs ha 1).bind fun _ _ hinner => ?_
    exact (evaluate_inStep hE e (hinner.mono fun _ _ => trivial)).bind fun _ _ h => .of_pure (.ok h)

/-- A call of a function of the catalog asks for scopes that agree on no variable. Any other asks for all of
them. -/
theorem callFunction_inStep (f : Function) (hs : s.AgreeOn env.registry (fun _ => f.isBuiltin = false) t) :
    (K.coupling env.registry).InStep (callFunction env E f s arguments) (callFunction env E f t arguments')
      (Attempts (Stream.Agree env.registry)) := by
  -- one case for each way of being called
  have happly : (K.coupling env.registry).InStep (applyFunction env E f s arguments)
      (applyFunction env E f t arguments') (Attempts (Stream.Agree env.registry)) := by
    obtain ⟨identity, name, signature, callable⟩ := f
    cases callable with
    | builtin b => exact b.apply_inStep env hE hs ha
    | hosted body =>
      exact (World.record_steady _).bind fun _ => applyBody_inStep hE ha _ body (hs.mono fun _ _ => rfl)
    | partially target bound => exact hE.invoke (Function.fillIn_agree ha bound) (hs.mono fun _ _ => rfl)
    | overloaded display fs => exact hE.invokeAny ha display (hs.mono fun _ _ => rfl)
  exact happly.bind fun _ _ h => .of_pure (h.map fun _ _ h => .convert _ h)

end

end LazyXPath
