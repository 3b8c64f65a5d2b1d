import LazyXPath.Proofs.Bounds
import LazyXPath.Proofs.Keeping

/-!
# Fresh streams

The bounds of a stream cannot be computed where an item waits in a conversion and the sum with the bound of
the input is too large. Items wait only in conversions that have been pulled. A stream is **fresh** if no
item waits in it (`Stream.Fresh`); then its bounds can be computed (`Stream.Fresh.exactSize?_eq_ok`).

Whatever is evaluated, the stream that comes of it is fresh (`evaluate_fresh`): evaluation pulls nothing, and
the streams that others are reading are in buffers, from which a new reader starts. Calls go through an
engine, of which the same is assumed (`Engine.MakesFresh`); it holds of the engine of every depth
(`Engine.ofDepth_makesFresh`).
-/

namespace LazyXPath

/-- No item waits in a conversion. -/
def Cursor.NothingWaits : Cursor → Prop
  | .convert c _ => c.pending = []
  | _ => True

/-- No item waits in a conversion from which bounds are computed. -/
def Stream.Fresh (s : Stream) : Prop := streamEvery Cursor.NothingWaits s

/-! ### Bounds of fresh streams -/

mutual

/-- A property of all cursors that bounds are computed from may be made weaker. -/
theorem Cursor.Every.mono {P Q : Cursor → Prop} (hPQ : ∀ c, P c → Q c) (c : Cursor) (h : c.Every P) :
    c.Every Q := by
  match c with
  | .map _ input | .filter _ input | .take _ input => exact ⟨hPQ _ h.1, streamEvery_mono hPQ input h.2⟩
  | .concat first rest =>
    exact ⟨hPQ _ h.1, streamEvery_mono hPQ first h.2.1, streamsEvery_mono hPQ rest h.2.2⟩
  | .convert _ input => exact ⟨hPQ _ h.1, fun hi => streamEvery_mono hPQ input (h.2 hi)⟩
  | .items _ | .candidates .. | .descendants .. | .script .. | .deferred .. | .range .. | .reader ..
  | .collect .. | .emit _ | .outer .. | .inner .. | .atomize .. | .zip .. | .combine .. | .forward _
  | .truth .. | .gather .. | .dispatch .. | .count .. | .presence .. | .spent _ => exact hPQ _ h

/-- A property of the cursors that bounds are computed from may be weakened. -/
theorem streamEvery_mono {P Q : Cursor → Prop} (hPQ : ∀ c, P c → Q c) (s : StreamOf Item Cursor)
    (h : streamEvery P s) : streamEvery Q s := by
  match s with
  | ⟨_, .running c⟩ => exact Cursor.Every.mono hPQ c h
  | ⟨_, .done⟩ | ⟨_, .failed _⟩ => trivial

/-- The same of several streams. -/
theorem streamsEvery_mono {P Q : Cursor → Prop} (hPQ : ∀ c, P c → Q c) (ss : List (StreamOf Item Cursor))
    (h : streamsEvery P ss) : streamsEvery Q ss := by
  match ss with
  | [] => trivial
  | s :: rest => exact ⟨streamEvery_mono hPQ s h.1, streamsEvery_mono hPQ rest h.2⟩

end

namespace Stream.Fresh

variable {s : Stream} {ss : List Stream}

/-- Where nothing waits, there is nothing to add. -/
theorem sumsFit (h : s.Fresh) : s.SumsFit := by
  refine streamEvery_mono (fun c hc => ?_) s h
  cases c with
  | convert c input => exact fun _ hne => absurd hc hne
  | _ => trivial

/-- The exact size of a fresh stream can always be asked for. There may be none, but nothing breaks down. -/
theorem exactSize?_eq_ok (h : s.Fresh) : ∃ size, s.exactSize? = .ok size :=
  ⟨_, congrArg (Except.map SizeHint.size?) (s.hint_givenIf.ok h.sumsFit)⟩

/-! ### Streams that are made of fresh ones -/

private theorem concat (h : ∀ s ∈ ss, s.Fresh) : (Stream.concat ss).Fresh := by
  cases ss with
  | nil => trivial
  | cons s rest =>
    obtain ⟨hs, hrest⟩ := List.forall_mem_cons.mp h
    exact ⟨trivial, hs, streamsEvery_iff.mpr hrest⟩

private theorem zip (f : Combiner) (ss : List Stream) : (Stream.zip f ss).Fresh := by
  cases ss <;> trivial

/-- A new conversion has nothing pending. -/
private theorem convert (type : SequenceType) (h : s.Fresh) : (s.convert type).Fresh := by
  unfold Stream.convert
  split
  · exact h
  · exact ⟨rfl, fun _ => h⟩

/-- A stream that only fails has no cursor at all. -/
private theorem orFailed {r : Except Error Stream} (h : IfOk Fresh r) : (Stream.orFailed r).Fresh := by
  cases r with
  | ok s => exact h
  | error e => trivial

/-- The bounds of a path step are not computed from its input, so nothing is asked of it. -/
private theorem forEachFocus (role : FocusRole) (base body : Expr) (scope : Scope) (s : Stream) :
    (forEachFocus role base body scope s).Fresh := by
  unfold LazyXPath.forEachFocus
  split <;> trivial

private theorem constantFilter (k : Nat) (h : s.Fresh) : (constantFilter k s).Fresh := ⟨trivial, trivial, h⟩

end Stream.Fresh

/-! ### Calls -/

/-- The streams that an engine makes of fresh ones are fresh. -/
structure Engine.MakesFresh (E : Engine) : Prop where
  call : ∀ (f : Function) (scope : Scope) (arguments : List Stream), (∀ s ∈ arguments, s.Fresh) →
    Ensures (E.call f scope arguments) (IfOk Stream.Fresh)
  replay : ∀ r, Ensures (E.replay r) Stream.Fresh

namespace Engine.MakesFresh

variable {E : Engine} (hE : E.MakesFresh) {scope : Scope} {arguments : List Stream}

include hE

/-- The arguments are converted before the call, by conversions that are new. -/
private theorem invoke (f : Function) (ha : ∀ s ∈ arguments, s.Fresh) :
    Ensures (E.invoke f scope arguments) (IfOk Stream.Fresh) := by
  unfold Engine.invoke
  split
  · refine hE.call f scope _ fun s hs => ?_
    obtain ⟨i, hi, rfl⟩ := List.mem_mapIdx.mp hs
    have hs := ha _ (List.getElem_mem hi)
    split
    · exact hs.convert _
    · exact hs
  · exact .of_pure trivial

/-- The stream of a call by overloads is new, and nothing is known of its bounds. -/
private theorem invokeAny (name : Name) (candidates : List Function) (ha : ∀ s ∈ arguments, s.Fresh) :
    Ensures (E.invokeAny name candidates scope arguments) (IfOk Stream.Fresh) := by
  unfold Engine.invokeAny
  split
  · exact .of_pure trivial
  · exact hE.invoke _ ha
  · cases arguments <;> exact .of_pure trivial

private theorem callNamed (registry : Registry) (name : Name) (ha : ∀ s ∈ arguments, s.Fresh) :
    Ensures (E.callNamed registry name scope arguments) (IfOk Stream.Fresh) := by
  unfold Engine.callNamed
  split
  · exact hE.invokeAny name _ ha
  · exact .of_pure trivial

end Engine.MakesFresh

/-! ### Expressions -/

/-- The nodes on an axis come from a cursor of their own. -/
private theorem axisStream_fresh (forest : Forest) (axis : Axis) (test : NodeTest) (scope : Scope) :
    IfOk Stream.Fresh (axisStream forest axis test scope) := by
  unfold axisStream
  cases scope.contextItem with
  | error e => trivial
  | ok x =>
    cases x with
    | node n => cases axis <;> trivial
    | atomic | map | array | function => trivial

section

variable {env : Environment} {E : Engine}

mutual

/-- **Evaluation gives fresh streams.** -/
theorem evaluate_fresh (hE : E.MakesFresh) (scope : Scope) (e : Expr) :
    Ensures (evaluate env E scope e) Stream.Fresh := by
  match e with
  | .literal _ | .deferred _ | .items _ | .failing _ => exact .of_pure trivial
  | .sequence parts => exact (evaluateAll_fresh hE scope parts).bind fun ss hss => .of_pure (.concat hss)
  | .range .. | .arithmetic .. | .comparison .. =>
    exact .andThen _ fun _ => .andThen _ fun _ => .of_pure (.zip _ _)
  | .sign .. | .dynamicCall .. => exact .andThen _ fun _ => .of_pure (.zip _ _)
  | .contextItem =>
    unfold evaluate
    split <;> exact .of_pure trivial
  | .varRef x =>
    unfold evaluate
    split
    · exact hE.replay _
    · exact .of_pure trivial
  | .conjunction .. | .disjunction .. | .conditional .. | .forIn .. | .path .. =>
    exact .andThen _ fun _ => .of_pure trivial
  | .letIn x a b => exact .andThen _ fun _ => .andThen _ fun c => evaluate_fresh hE _ b
  | .simpleMap .. => exact .andThen _ fun s => .of_pure (.forEachFocus _ _ _ _ s)
  | .filter a b =>
    have ha := evaluate_fresh hE scope a
    unfold evaluate
    split
    · split
      · exact ha.bind fun s hs => .of_pure (hs.constantFilter _)
      · exact .of_pure trivial
    · exact .andThen _ fun s => .of_pure (.forEachFocus _ _ _ _ s)
  | .axisStep axis test => exact .of_pure (.orFailed (axisStream_fresh env.forest axis test scope))
  | .call name arguments =>
    have ha := evaluateArguments_fresh hE scope arguments
    unfold evaluate
    split
    · -- the function that is made is a single item
      refine .andThen _ fun identity => ?_
      split
      · exact .of_pure trivial
      · refine .andThen _ fun ss => .andThen _ fun r => ?_
        cases r <;> exact .of_pure trivial
    · refine ha.bind fun ss hss => ?_
      have harguments : ∀ s ∈ ss.filterMap id, Stream.Fresh s := by
        intro s hs
        obtain ⟨a, ha, rfl⟩ := List.mem_filterMap.mp hs
        exact hss s ha
      exact (hE.callNamed env.registry name harguments).bind fun r hr => .of_pure (.orFailed hr)
  | .functionRef name n =>
    refine .andThen _ fun identity => ?_
    split <;> exact .of_pure trivial
  | .host label s => exact .andThen _ fun _ => (build_fresh hE scope s).bind fun r hr => .of_pure (.orFailed hr)

/-- The same of several expressions in a row. -/
theorem evaluateAll_fresh (hE : E.MakesFresh) (scope : Scope) (es : List Expr) :
    Ensures (evaluateAll env E scope es) fun ss => ∀ s ∈ ss, s.Fresh := by
  match es with
  | [] => exact .of_pure fun _ h => absurd h List.not_mem_nil
  | e :: es =>
    refine (evaluate_fresh hE scope e).bind fun s hs => (evaluateAll_fresh hE scope es).bind fun ss hss => ?_
    exact .of_pure (List.forall_mem_cons.mpr ⟨hs, hss⟩)

/-- The same of arguments, of which some may be left open. -/
theorem evaluateArguments_fresh (hE : E.MakesFresh) (scope : Scope) (arguments : List (Option Expr)) :
    Ensures (evaluateArguments env E scope arguments) fun ss => ∀ s, some s ∈ ss → s.Fresh := by
  match arguments with
  | [] => exact .of_pure fun _ h => absurd h List.not_mem_nil
  | a :: rest =>
    refine (evaluateArgument_fresh hE scope a).bind fun s hs => ?_
    refine (evaluateArguments_fresh hE scope rest).bind fun ss hss => .of_pure fun s' h => ?_
    obtain _ | ⟨_, h⟩ := h
    · exact hs s' rfl
    · exact hss s' h

/-- The same of one argument. -/
theorem evaluateArgument_fresh (hE : E.MakesFresh) (scope : Scope) (a : Option Expr) :
    Ensures (evaluateArgument env E scope a) fun r => ∀ s, r = some s → s.Fresh := by
  match a with
  | none => exact .of_pure fun _ h => nomatch h
  | some e => exact (evaluate_fresh hE scope e).bind fun s hs => .of_pure fun s' h => Option.some.inj h ▸ hs

/-- So does a description by a host. -/
theorem build_fresh (hE : E.MakesFresh) (scope : Scope) (s : Source) :
    Ensures (build env E scope s) (IfOk Stream.Fresh) := by
  match s with
  | .empty | .one _ | .items _ | .script .. | .failed _ | .invalid _ | .deferred _ | .range .. =>
    exact .of_pure trivial
  | .replay name =>
    refine .andThen _ fun r => ?_
    cases r with
    | none => exact .of_pure trivial
    | some r => exact (hE.replay r).bind fun s hs => .of_pure hs
  | .expr e => exact (evaluate_fresh hE scope e).bind fun s hs => .of_pure hs
  | .invoke name arguments =>
    refine (buildAll_fresh hE scope arguments).bind fun r hr => ?_
    cases r with
    | ok streams => exact hE.callNamed env.registry name hr
    | error e => exact .of_pure trivial
  | .map _ s | .filter _ s | .take _ s =>
    exact (build_fresh hE scope s).bind fun r hr => .of_pure (hr.map fun _ h => ⟨trivial, h⟩)
  | .mapAll _ s | .flatMap _ s | .atomize s | .booleanValue s | .predicateTruth _ s =>
    exact (build_fresh hE scope s).bind fun r hr => .of_pure (hr.map fun _ _ => trivial)
  | .convert type s => exact (build_fresh hE scope s).bind fun r hr => .of_pure (hr.map fun _ h => h.convert type)
  | .concat parts => exact (buildAll_fresh hE scope parts).bind fun r hr => .of_pure (hr.map fun _ h => .concat h)
  | .zip _ parts | .zipOptional _ parts =>
    exact (buildAll_fresh hE scope parts).bind fun r hr => .of_pure (hr.map fun ss _ => .zip _ ss)

/-- The same of several sources. -/
theorem buildAll_fresh (hE : E.MakesFresh) (scope : Scope) (ss : List Source) :
    Ensures (buildAll env E scope ss) (IfOk fun ts => ∀ t ∈ ts, t.Fresh) := by
  match ss with
  | [] => exact .of_pure fun _ h => absurd h List.not_mem_nil
  | s :: ss =>
    refine (build_fresh hE scope s).bind fun r hr => ?_
    cases r with
    | error e => exact .of_pure trivial
    | ok t =>
      refine (buildAll_fresh hE scope ss).bind fun r' hr' => .of_pure (hr'.map fun ts hts => ?_)
      exact List.forall_mem_cons.mpr ⟨hr, hts⟩

end

/-- A sequence is read once more from its items, by a new reader, or by evaluating it again. -/
private theorem evaluateReplay_fresh (hE : E.MakesFresh) (r : Replay) :
    Ensures (evaluateReplay env E r) Stream.Fresh := by
  cases r with
  | items xs | buffered b => exact .of_pure trivial
  | evaluated e scope => exact evaluate_fresh hE scope e
  | regenerated s scope =>
    exact .andThen _ fun _ => (build_fresh hE scope s).bind fun r hr => .of_pure (.orFailed hr)
  | produced x s settings =>
    exact .andThen _ fun _ => (build_fresh hE (.root settings) s).bind fun r hr => .of_pure (.orFailed hr)

end

/-! ### Functions -/

private theorem Builtin.countStream_fresh (s : Stream) : IfOk Stream.Fresh (countStream s) := by
  refine (IfOk.of_true s.exactSize?).bind ?_
  rintro (_ | n) -
  · exact trivial
  · exact (IfOk.of_true (measured .count n)).map fun _ _ => trivial

/-- The size of a focus is one item or a count, which is one item at the end. -/
private theorem contextSize_fresh (E : Engine) (scope : Scope) : Ensures (contextSize E scope) Stream.Fresh := by
  unfold contextSize
  split
  · exact .of_pure trivial
  · split
    · split <;> exact .of_pure trivial
    · exact .andThen _ fun _ => .of_pure trivial
    · exact .of_pure trivial

section

variable {env : Environment} {E : Engine} {scope : Scope} {arguments : List Stream} (ha : ∀ s ∈ arguments, s.Fresh)

include ha

private theorem Builtin.only_fresh : IfOk Stream.Fresh (only arguments) := by
  unfold only
  split
  · exact ha _ (.head _)
  · trivial

/-- Functions of the catalog make new streams of their arguments, or pass one of them on. -/
private theorem Builtin.apply_fresh (b : Builtin) : Ensures (b.apply env E scope arguments)
    (IfOk Stream.Fresh) := by
  have honly := only_fresh ha
  cases b with
  | yes | no | currentDateTime | currentDate | currentTime | implicitTimezone => exact .of_pure trivial
  | not => exact .of_pure (honly.map fun _ _ => ⟨trivial, trivial⟩)
  | boolean | empty | nonempty => exact .of_pure (honly.map fun _ _ => trivial)
  | head | tail | abs | construct => exact .of_pure (honly.map fun _ h => ⟨trivial, h⟩)
  | count => exact .of_pure (honly.bind fun s _ => countStream_fresh s)
  | data | string => exact .of_pure ((IfOk.of_true (argumentOrFocus scope arguments)).map fun _ _ => trivial)
  | stringLength =>
    refine .of_pure ?_
    unfold lengthStream
    split
    · refine (IfOk.of_true scope.contextItem).bind fun x _ => ?_
      exact (IfOk.of_true (x.stringValue env.forest)).bind fun _ _ => trivial
    · exact (IfOk.of_true (only arguments)).bind fun _ _ => trivial
  | concat => exact .of_pure (Stream.Fresh.zip _ _)
  | position =>
    refine .of_pure ((IfOk.of_true scope.contextPosition).bind fun n _ => ?_)
    exact (IfOk.of_true (measured .contextPosition n)).bind fun _ _ => trivial
  | last => exact (contextSize_fresh E scope).bind fun s hs => .of_pure hs

/-- Arguments given before are read by new readers of their buffers. -/
private theorem Function.fillIn_fresh (bound : List (Option BufferId)) :
    ∀ s ∈ Function.fillIn bound arguments, s.Fresh := by
  fun_induction Function.fillIn bound arguments with
  | case1 => exact fun _ h => absurd h List.not_mem_nil
  | case2 arguments b bound ih => exact List.forall_mem_cons.mpr ⟨trivial, ih ha⟩
  | case3 bound s arguments ih =>
    obtain ⟨hs, hrest⟩ := List.forall_mem_cons.mp ha
    exact List.forall_mem_cons.mpr ⟨hs, ih hrest⟩
  | case4 bound ih => exact List.forall_mem_cons.mpr ⟨trivial, ih ha⟩

variable (hE : E.MakesFresh)

include hE

private theorem applyBody_fresh (name : Name) (body : BodyOf Item) :
    Ensures (applyBody env E name body scope arguments) (IfOk Stream.Fresh) := by
  cases body with
  | const _ | argumentCount | name | fail _ | failed _ | describe => exact .of_pure trivial
  | argument i =>
    refine .of_pure ?_
    cases h : arguments[i]? with
    | none => trivial
    | some s => exact ha s (List.mem_of_getElem? h)
  | concat => exact .of_pure (Stream.Fresh.concat ha)
  | expr e => exact .andThen _ fun inner => (evaluate_fresh hE inner e).bind fun s hs => .of_pure hs

/-- A call gives a fresh stream: its result conversion is new. -/
private theorem callFunction_fresh (f : Function) : Ensures (callFunction env E f scope arguments)
    (IfOk Stream.Fresh) := by
  -- one case for each way of being called
  have happly : Ensures (applyFunction env E f scope arguments) (IfOk Stream.Fresh) := by
    unfold applyFunction
    split
    · exact Builtin.apply_fresh ha _
    · exact .andThen _ fun _ => applyBody_fresh ha hE _ _
    · exact hE.invoke _ (Function.fillIn_fresh ha _)
    · exact hE.invokeAny _ _ ha
  exact happly.bind fun r hr => .of_pure (hr.map fun _ h => h.convert _)

end

/-! ### The engine of a depth -/

/-- At depth zero nothing is called, and a deeper engine makes its streams by calls in the one below. -/
theorem Engine.ofDepth_makesFresh (env : Environment) (depth : Nat) : (Engine.ofDepth env depth).MakesFresh := by
  induction depth with
  | zero => exact ⟨fun _ _ _ _ => .of_pure trivial, fun _ => .of_pure trivial⟩
  | succ depth ih => exact ⟨fun f _ _ ha => callFunction_fresh ha ih f, evaluateReplay_fresh ih⟩

end LazyXPath
