import LazyXPath.Proofs.Separation

/-!
# Evaluation among buffers out of reach

The stream of an expression spares a set of buffers if the items in the expression and the scope do. Each
case of `evaluate_keeps` is a case of the evaluation. Calls go through an engine, of which the same is
assumed.
-/

namespace LazyXPath

section

variable {T : BufferId → Prop} {held : BufferId → Buffer}

/-! ### Scopes -/

/-- The value of a variable is found by the scope that binds it, so it spares what the scope does. -/
private theorem Scope.Spares.value? {scope : Scope} (h : scope.Spares T) {x : Name} {r : Replay}
    (hr : scope.value? x = some r) : r.Spares T := by
  fun_induction Scope.value? x scope with
  | case1 => cases hr
  | case2 outer item position size sequence ih => exact ih h.1 hr
  | case3 outer value => exact Option.some.inj hr ▸ h.2
  | case4 outer name value hne ih => exact ih h.1 hr

/-- The focus comes with the innermost scope that has one: its item and its sequence spare buffers. -/
private theorem Scope.Spares.focus? {scope : Scope} (h : scope.Spares T) {f : Focus} (hf : scope.focus? = some f) :
    Item.Spares T f.item ∧ optionalReplaySpares T f.sequence := by
  fun_induction Scope.focus? scope with
  | case1 => cases hf
  | case2 outer item position size sequence => exact Option.some.inj hf ▸ h.2
  | case3 outer name value ih => exact ih h.1 hf

private theorem Scope.Spares.contextItem {scope : Scope} (h : scope.Spares T) :
    IfOk (Item.Spares T) scope.contextItem := by
  unfold Scope.contextItem
  split
  · exact (h.focus? ‹_›).1
  · trivial

/-- The nodes on an axis refer to nothing. -/
private theorem axisStream_spares (forest : Forest) (axis : Axis) (test : NodeTest) (scope : Scope) :
    IfOk (StreamSpares T) (axisStream forest axis test scope) := by
  unfold axisStream
  cases scope.contextItem with
  | error e => trivial
  | ok x =>
    cases x with
    | node n => cases axis <;> exact .run trivial
    | atomic | map | array | function => trivial

/-- The arguments that are given, without the places that are left open. -/
theorem forall_mem_filterMap_id {ss : List (Option Stream)} (h : ∀ s, some s ∈ ss → StreamSpares T s) :
    ∀ s ∈ ss.filterMap id, StreamSpares T s := by
  intro s hs
  obtain ⟨a, ha, rfl⟩ := List.mem_filterMap.mp hs
  exact h s ha

/-! ### The functions of the catalog -/

/-- The size of a focus is counted in its own sequence, which the scope refers to. -/
private theorem contextSize_keeps {E : Engine} (hE : E.Spares T held) {scope : Scope} (hscope : scope.Spares T) :
    Keeps (World.Guards T held) (contextSize E scope) (StreamSpares T) := by
  unfold contextSize
  cases hf : scope.focus? with
  | none => exact .of_pure (.failed _)
  | some f =>
    have hseq := (hscope.focus? hf).2
    obtain ⟨item, position, size, sequence⟩ := f
    cases size with
    | some n =>
      have hx := measured_spares (T := T) .contextSize n
      dsimp only
      cases h : measured .contextSize n with
      | ok x =>
        rw [h] at hx
        exact .of_pure (.one hx)
      | error e => exact .of_pure (.failed e)
    | none =>
      cases sequence with
      | some r => exact (hE.replay r hseq).bind fun s hs => .of_pure (.collect trivial hs)
      | none => exact .of_pure (.failed _)

namespace Builtin

variable {scope : Scope} {arguments : List Stream}

private theorem only_spares (ha : ∀ s ∈ arguments, StreamSpares T s) : IfOk (StreamSpares T) (only arguments) := by
  unfold only
  split
  · exact ha _ (.head _)
  · trivial

/-- What a function reads, its argument or the context item, is something it has been given. -/
private theorem argumentOrFocus_spares (hscope : scope.Spares T) (ha : ∀ s ∈ arguments, StreamSpares T s) :
    IfOk (StreamSpares T) (argumentOrFocus scope arguments) := by
  cases arguments with
  | nil => exact hscope.contextItem.map fun _ h => .one h
  | cons s rest => exact ha s (.head _)

private theorem countStream_spares {s : Stream} (hs : StreamSpares T s) :
    IfOk (StreamSpares T) (countStream s) := by
  refine (IfOk.of_true s.exactSize?).bind ?_
  rintro (_ | n) -
  · exact StreamSpares.run hs
  · exact (measured_spares .count n).map fun _ h => .one h

/-- The length of a string is counted in an argument, or is a value at once. -/
private theorem lengthStream_spares (forest : Forest) (ha : ∀ s ∈ arguments, StreamSpares T s) :
    IfOk (StreamSpares T) (lengthStream forest scope arguments) := by
  unfold lengthStream
  split
  · refine (IfOk.of_true scope.contextItem).bind fun x _ => ?_
    exact (IfOk.of_true (x.stringValue forest)).bind fun _ _ => StreamSpares.collect trivial (.atomic _)
  · exact (only_spares ha).bind fun _ h => StreamSpares.collect trivial h

private theorem positionStream_spares : IfOk (StreamSpares T) (positionStream scope) := by
  refine (IfOk.of_true scope.contextPosition).bind fun n _ => ?_
  exact (measured_spares .contextPosition n).bind fun _ h => StreamSpares.one h

/-- Functions of the catalog make streams of their arguments and of the focus. None looks up a variable. -/
private theorem apply_keeps (env : Environment) {E : Engine} (hE : E.Spares T held) (b : Builtin)
    (hscope : scope.Spares T) (ha : ∀ s ∈ arguments, StreamSpares T s) :
    Keeps (World.Guards T held) (b.apply env E scope arguments) (IfOk (StreamSpares T)) := by
  have honly := only_spares ha
  cases b with
  | yes | no | currentDateTime | currentDate | currentTime | implicitTimezone =>
    exact .of_pure (StreamSpares.atomic _)
  | not => exact .of_pure (honly.map fun _ h => .run (.run h))
  | boolean | empty | nonempty | head | tail | abs | construct => exact .of_pure (honly.map fun _ h => .run h)
  | count => exact .of_pure (honly.bind fun _ h => countStream_spares h)
  | data => exact .of_pure ((argumentOrFocus_spares hscope ha).map fun _ h => .run h)
  | string => exact .of_pure ((argumentOrFocus_spares hscope ha).map fun _ h => .collect trivial h)
  | stringLength => exact .of_pure (lengthStream_spares env.forest ha)
  | concat => exact .of_pure (StreamSpares.zip trivial ha)
  | position => exact .of_pure positionStream_spares
  | last => exact (contextSize_keeps hE hscope).bind fun s hs => .of_pure hs

end Builtin

/-- The arguments of a host function are put into buffers, which are new, and bound in its scope. -/
private theorem bindNumbered_keeps {scope : Scope} (hscope : scope.Spares T) {arguments : List Stream}
    (ha : ∀ s ∈ arguments, StreamSpares T s) (number : Nat) :
    Keeps (World.Guards T held) (bindNumbered scope number arguments) (Scope.Spares T) := by
  induction arguments generalizing scope number with
  | nil => exact .of_pure hscope
  | cons s rest ih =>
    obtain ⟨hs, hrest⟩ := List.forall_mem_cons.mp ha
    refine (World.newBuffer_keeps hs).bind fun b hb => ih ?_ hrest (number + 1)
    exact ⟨hscope, hb⟩

/-! ### Expressions -/

section

variable {env : Environment} {E : Engine}

mutual

/-- Evaluation leaves the set as it is, and the stream of an expression refers to nothing in it, if neither
the scope nor the items in the expression do. -/
theorem evaluate_keeps (hE : E.Spares T held) (henv : env.registry.Spares T) {scope : Scope}
    (hscope : scope.Spares T) (e : Expr) (he : ItemsSpare T (exprItems e)) :
    Keeps (World.Guards T held) (evaluate env E scope e) (StreamSpares T) := by
  match e with
  | .literal v => exact .of_pure (.atomic v)
  | .sequence parts =>
    exact (evaluateAll_keeps hE henv hscope parts he).bind fun ss hss => .of_pure (.concat hss)
  | .range a b =>
    obtain ⟨ha, hb⟩ := itemsSpare_append.mp he
    refine (evaluate_keeps hE henv hscope a ha).bind fun s hs => ?_
    refine (evaluate_keeps hE henv hscope b hb).bind fun t ht => ?_
    exact .of_pure (.zipPair trivial (hs.convert _) (ht.convert _))
  | .contextItem =>
    have hx := hscope.contextItem
    unfold evaluate
    split
    · rename_i x h
      rw [h] at hx
      exact .of_pure (.one hx)
    · exact .of_pure (.failed _)
  | .varRef x =>
    unfold evaluate
    split
    · rename_i r h
      exact hE.replay r (hscope.value? h)
    · exact .of_pure (.failed _)
  | .arithmetic op a b | .comparison op a b =>
    obtain ⟨ha, hb⟩ := itemsSpare_append.mp he
    refine (evaluate_keeps hE henv hscope a ha).bind fun s hs => ?_
    refine (evaluate_keeps hE henv hscope b hb).bind fun t ht => ?_
    exact .of_pure (.zipPair trivial (.run hs) (.run ht))
  | .sign op a =>
    refine (evaluate_keeps hE henv hscope a he).bind fun s hs => .of_pure (.zip trivial ?_)
    exact List.forall_mem_singleton.mpr (.run hs)
  | .conjunction a b | .disjunction a b =>
    obtain ⟨ha, hb⟩ := itemsSpare_append.mp he
    exact (evaluate_keeps hE henv hscope a ha).bind fun s hs => .of_pure (.flatMap ⟨hb, hscope⟩ (.run hs))
  | .conditional a b c =>
    obtain ⟨ha, hbc⟩ := itemsSpare_append.mp he
    obtain ⟨hb, hc⟩ := itemsSpare_append.mp hbc
    exact (evaluate_keeps hE henv hscope a ha).bind fun s hs => .of_pure (.flatMap ⟨hb, hc, hscope⟩ (.run hs))
  | .letIn x a b =>
    obtain ⟨ha, hb⟩ := itemsSpare_append.mp he
    refine (evaluate_keeps hE henv hscope a ha).bind fun s hs => (World.newBuffer_keeps hs).bind fun c hc => ?_
    -- the buffer of the variable is new
    have hinner : Scope.Spares T (.binding scope x (.buffered c)) := ⟨hscope, hc⟩
    exact evaluate_keeps hE henv hinner b hb
  | .forIn x a b =>
    obtain ⟨ha, hb⟩ := itemsSpare_append.mp he
    exact (evaluate_keeps hE henv hscope a ha).bind fun s hs => .of_pure (.flatMap ⟨hb, hscope⟩ hs)
  | .simpleMap a b =>
    obtain ⟨ha, hb⟩ := itemsSpare_append.mp he
    exact (evaluate_keeps hE henv hscope a ha).bind fun s hs => .of_pure (.forEachFocus ha hb hscope hs)
  | .filter a b =>
    obtain ⟨ha, hb⟩ := itemsSpare_append.mp he
    have hs := evaluate_keeps hE henv hscope a ha
    unfold evaluate
    split
    · split
      · exact hs.bind fun s hs => .of_pure (.constantFilter _ hs)
      · exact .of_pure .empty
    · exact hs.bind fun s hs => .of_pure (.forEachFocus ha hb hscope hs)
  | .path a b =>
    obtain ⟨ha, hb⟩ := itemsSpare_append.mp he
    refine (evaluate_keeps hE henv hscope a ha).bind fun s hs => .of_pure (.collect trivial ?_)
    exact .forEachFocus ha hb hscope hs
  | .axisStep axis test => exact .of_pure (.orFailed (axisStream_spares env.forest axis test scope))
  | .call name arguments =>
    -- with an argument left open a function is made, and otherwise one is called
    have ha := evaluateArguments_keeps hE henv hscope arguments he
    unfold evaluate
    split
    · refine World.newIdentity_keeps.bind fun identity _ => ?_
      have hf := henv.reference identity name arguments.length scope.settings.functionSpace
      split
      · exact .of_pure (.failed _)
      · rename_i f h
        rw [h] at hf
        refine ha.bind fun ss hss => (Function.Spares.partiallyApply hf hss).bind fun r hr => ?_
        cases r with
        | ok g => exact .of_pure (.one (Item.spares_function.mpr hr))
        | error e => exact .of_pure (.failed e)
    · refine ha.bind fun ss hss => ?_
      have hcall := hE.callNamed hscope (forall_mem_filterMap_id hss) henv name
      exact hcall.bind fun r hr => .of_pure (.orFailed hr)
  | .functionRef name n =>
    refine World.newIdentity_keeps.bind fun identity _ => ?_
    have hf := henv.reference identity name n scope.settings.functionSpace
    split
    · rename_i f h
      rw [h] at hf
      exact .of_pure (.one (Item.spares_function.mpr hf))
    · exact .of_pure (.failed _)
  | .dynamicCall target arguments =>
    obtain ⟨ht, ha⟩ := itemsSpare_append.mp he
    refine (evaluate_keeps hE henv hscope target ht).bind fun s hs => .of_pure (.zip ⟨ha, hscope⟩ ?_)
    exact List.forall_mem_singleton.mpr (hs.convert _)
  | .deferred d => exact .of_pure (.run fun _ h => nomatch h)
  | .items xs => exact .of_pure (.ofList he)
  | .host label s =>
    refine (World.record_keeps (.host label)).bind fun _ _ => ?_
    exact (build_keeps hE henv hscope s he).bind fun r hr => .of_pure (.orFailed hr)
  | .failing e => exact .of_pure (.failed e)

/-- The same of several expressions in a row. -/
theorem evaluateAll_keeps (hE : E.Spares T held) (henv : env.registry.Spares T) {scope : Scope}
    (hscope : scope.Spares T) (es : List Expr) (he : ItemsSpare T (exprsItems es)) :
    Keeps (World.Guards T held) (evaluateAll env E scope es) fun ss => ∀ s ∈ ss, StreamSpares T s := by
  match es with
  | [] => exact .of_pure fun _ h => absurd h List.not_mem_nil
  | e :: es =>
    obtain ⟨he, hes⟩ := itemsSpare_append.mp he
    refine (evaluate_keeps hE henv hscope e he).bind fun s hs => ?_
    refine (evaluateAll_keeps hE henv hscope es hes).bind fun ss hss => ?_
    exact .of_pure (List.forall_mem_cons.mpr ⟨hs, hss⟩)

/-- The same of arguments, of which some may be left open. -/
theorem evaluateArguments_keeps (hE : E.Spares T held) (henv : env.registry.Spares T) {scope : Scope}
    (hscope : scope.Spares T) (arguments : List (Option Expr)) (ha : ItemsSpare T (argumentsItems arguments)) :
    Keeps (World.Guards T held) (evaluateArguments env E scope arguments) fun ss =>
      ∀ s, some s ∈ ss → StreamSpares T s := by
  match arguments with
  | [] => exact .of_pure fun _ h => absurd h List.not_mem_nil
  | a :: rest =>
    obtain ⟨ha, hrest⟩ := itemsSpare_append.mp ha
    refine (evaluateArgument_keeps hE henv hscope a ha).bind fun s hs => ?_
    refine (evaluateArguments_keeps hE henv hscope rest hrest).bind fun ss hss => .of_pure fun s' h => ?_
    obtain _ | ⟨_, h⟩ := h
    · exact hs s' rfl
    · exact hss s' h

/-- The same of one argument. -/
theorem evaluateArgument_keeps (hE : E.Spares T held) (henv : env.registry.Spares T) {scope : Scope}
    (hscope : scope.Spares T) (a : Option Expr) (ha : ItemsSpare T (argumentItems a)) :
    Keeps (World.Guards T held) (evaluateArgument env E scope a) fun r =>
      ∀ s, r = some s → StreamSpares T s := by
  match a with
  | none => exact .of_pure fun _ h => nomatch h
  | some e => exact (evaluate_keeps hE henv hscope e ha).bind fun s hs => .of_pure fun s' h => Option.some.inj h ▸ hs

/-- The same of the sources of a host, which are built as the expressions in them are evaluated. -/
theorem build_keeps (hE : E.Spares T held) (henv : env.registry.Spares T) {scope : Scope} (hscope : scope.Spares T)
    (s : Source) (hs : ItemsSpare T (sourceItems s)) :
    Keeps (World.Guards T held) (build env E scope s) (IfOk (StreamSpares T)) := by
  match s with
  | .empty => exact .of_pure .empty
  | .one x => exact .of_pure (.one (hs x (.head _)))
  | .items xs => exact .of_pure (.ofList hs)
  | .script label steps claimed => exact .of_pure (.run hs)
  | .failed e => exact .of_pure (.failed e)
  | .invalid e => exact .of_pure trivial
  | .deferred d => exact .of_pure (.run fun _ h => nomatch h)
  | .range first last => exact .of_pure (.range first last)
  | .replay name =>
    refine (World.replay?_keeps name).bind fun r hr => ?_
    cases r with
    | none => exact .of_pure .empty
    | some r => exact (hE.replay r (hr r rfl)).bind fun s hs => .of_pure hs
  | .expr e => exact (evaluate_keeps hE henv hscope e hs).bind fun s hs => .of_pure hs
  | .invoke name arguments =>
    refine (buildAll_keeps hE henv hscope arguments hs).bind fun r hr => ?_
    cases r with
    | ok streams => exact hE.callNamed hscope hr henv name
    | error e => exact .of_pure trivial
  | .map _ s | .filter _ s | .take _ s | .atomize s | .booleanValue s | .predicateTruth _ s =>
    exact (build_keeps hE henv hscope s hs).bind fun r hr => .of_pure (hr.map fun _ h => .run h)
  | .mapAll f s =>
    exact (build_keeps hE henv hscope s hs).bind fun r hr => .of_pure (hr.map fun _ h => .collect trivial h)
  | .flatMap f s =>
    exact (build_keeps hE henv hscope s hs).bind fun r hr => .of_pure (hr.map fun _ h => .flatMap trivial h)
  | .convert type s =>
    exact (build_keeps hE henv hscope s hs).bind fun r hr => .of_pure (hr.map fun _ h => h.convert type)
  | .concat parts =>
    exact (buildAll_keeps hE henv hscope parts hs).bind fun r hr => .of_pure (hr.map fun _ h => .concat h)
  | .zip _ parts | .zipOptional _ parts =>
    exact (buildAll_keeps hE henv hscope parts hs).bind fun r hr => .of_pure (hr.map fun _ h => .zip trivial h)

/-- The same of several sources. -/
theorem buildAll_keeps (hE : E.Spares T held) (henv : env.registry.Spares T) {scope : Scope}
    (hscope : scope.Spares T) (ss : List Source) (hs : ItemsSpare T (sourcesItems ss)) :
    Keeps (World.Guards T held) (buildAll env E scope ss) (IfOk fun ts => ∀ t ∈ ts, StreamSpares T t) := by
  match ss with
  | [] => exact .of_pure fun _ h => absurd h List.not_mem_nil
  | s :: ss =>
    obtain ⟨hs, hss⟩ := itemsSpare_append.mp hs
    refine (build_keeps hE henv hscope s hs).bind fun r hr => ?_
    cases r with
    | error e => exact .of_pure trivial
    | ok t =>
      refine (buildAll_keeps hE henv hscope ss hss).bind fun r' hr' => .of_pure (hr'.map fun ts hts => ?_)
      exact List.forall_mem_cons.mpr ⟨hr, hts⟩

end

variable (hE : E.Spares T held) (henv : env.registry.Spares T)
include hE henv

/-- A sequence is read once more from its items, by a new reader of a buffer outside of the set, or by
evaluating it again. -/
theorem evaluateReplay_keeps {r : Replay} (hr : r.Spares T) :
    Keeps (World.Guards T held) (evaluateReplay env E r) (StreamSpares T) := by
  cases r with
  | items xs => exact .of_pure (.ofList hr)
  | buffered b => exact .of_pure (.run hr)
  | evaluated e scope => exact evaluate_keeps hE henv hr.2 e hr.1
  | regenerated s scope =>
    refine (World.record_keeps .regenerate).bind fun _ _ => ?_
    exact (build_keeps hE henv hr.2 s hr.1).bind fun r hr => .of_pure (.orFailed hr)
  | produced x s settings =>
    refine (World.record_keeps (.produce x)).bind fun _ _ => ?_
    have hroot : Scope.Spares T (.root settings) := trivial
    exact (build_keeps hE henv hroot s hr).bind fun r hr => .of_pure (.orFailed hr)

/-! ### Calls -/

/-- The body of a host function is evaluated where its arguments are bound. -/
private theorem applyBody_keeps (name : Name) {body : BodyOf Item} (hbody : ItemsSpare T (bodyItems body))
    {scope : Scope} (hscope : scope.Spares T) {arguments : List Stream}
    (ha : ∀ s ∈ arguments, StreamSpares T s) :
    Keeps (World.Guards T held) (applyBody env E name body scope arguments) (IfOk (StreamSpares T)) := by
  cases body with
  | const xs => exact .of_pure (StreamSpares.ofList hbody)
  | argument i =>
    refine .of_pure ?_
    cases h : arguments[i]? with
    | none => exact StreamSpares.empty
    | some s => exact ha s (List.mem_of_getElem? h)
  | concat => exact .of_pure (StreamSpares.concat ha)
  | argumentCount | name => exact .of_pure (StreamSpares.atomic _)
  | fail e => exact .of_pure trivial
  | failed e => exact .of_pure (StreamSpares.failed e)
  | describe => exact .of_pure (StreamSpares.collect trivial (.concat ha))
  | expr e =>
    refine (bindNumbered_keeps hscope ha 1).bind fun inner hinner => ?_
    exact (evaluate_keeps hE henv hinner e hbody).bind fun s hs => .of_pure hs

/-- A call leaves the set as it is, whether the function is built in, supplied by a host or given some of its
arguments before. -/
theorem callFunction_keeps {f : Function} (hf : f.Spares T) {scope : Scope} (hscope : scope.Spares T)
    {arguments : List Stream} (ha : ∀ s ∈ arguments, StreamSpares T s) :
    Keeps (World.Guards T held) (callFunction env E f scope arguments) (IfOk (StreamSpares T)) := by
  -- one case for each way of being called
  have happly : Keeps (World.Guards T held) (applyFunction env E f scope arguments)
      (IfOk (StreamSpares T)) := by
    cases hf with
    | builtin b => exact b.apply_keeps env hE hscope ha
    | hosted h =>
      exact (World.record_keeps _).bind fun _ _ => applyBody_keeps hE henv _ h hscope ha
    | partially ht hb => exact hE.invoke hscope (Function.fillIn_spares hb ha) ht
    | overloaded h => exact hE.invokeAny hscope ha _ h
  exact happly.bind fun r hr => .of_pure (hr.map fun _ h => h.convert _)

end

end

end LazyXPath
