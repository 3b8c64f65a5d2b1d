import LazyXPath.Proofs.Agreement.Evaluation
import LazyXPath.Proofs.Separation.Machine

/-!
# Steps of streams that agree

Cursors that agree take their steps in step (`Cursor.step_inStep`): the outcomes are the same, and the
cursors agree again. The only step that looks into a buffer is that of a reader. If the buffer is the trap,
then it is sprung by this step, and otherwise both worlds have buffers that agree. The engine of some depth
is made of the steps, calls and readings in the engine below, so that all engines work in step
(`Engine.ofDepth_inStep`).
-/

namespace LazyXPath

section

variable {K : Trap} {r : Registry}

/-! ### What is done with items -/

/-- The begin of a callback is an event, the same in both worlds. -/
private theorem Callback.begin_steady {κ : Type} (role : CallbackRole) (f : Callback κ) :
    (K.coupling r).Steady (f.begin role) :=
  (World.record_steady _).bind fun _ => .of_pure rfl

/-- Negation asks the operators that have been built, which are the same. -/
private theorem MapKind.apply_steady (kind : MapKind) (x : Item) : (K.coupling r).Steady (kind.apply x) := by
  unfold MapKind.apply
  split
  · exact .of_pure rfl
  · exact (World.operate_steady _).bind fun _ => .of_pure rfl
  · exact .of_pure rfl

private theorem Mapper.apply_steady (forest : Forest) (f : Mapper) (x : Item) :
    (K.coupling r).Steady (f.apply forest x) := by
  unfold Mapper.apply
  split
  · refine (Callback.begin_steady .map _).bind ?_
    rintro ⟨_ | _, f⟩
    · exact .of_pure rfl
    · exact (MapKind.apply_steady f.kind x).bind fun _ => .of_pure rfl
  all_goals exact .of_pure rfl

private theorem Selector.apply_steady (forest : Forest) (f : Selector) (x : Item) :
    (K.coupling r).Steady (f.apply forest x) := by
  cases f with
  | host f =>
    refine (Callback.begin_steady .filter f).bind ?_
    rintro ⟨_ | _, f⟩ <;> exact .of_pure rfl
  | afterFirst | only => exact .of_pure rfl

private theorem Collector.apply_steady (forest : Forest) (f : Collector) (xs : List Item) :
    (K.coupling r).Steady (f.apply forest xs) := by
  cases f with
  | host f =>
    refine (Callback.begin_steady .mapAll f).bind ?_
    rintro ⟨_ | _, f⟩ <;> exact .of_pure rfl
  | describe | documentOrder | contextSize | member | entry | stringValue | stringLength => exact .of_pure rfl

/-- A script goes on by itself, or when something has arrived, which is the same in both worlds. -/
private theorem runScript_steady (steps : List (ScriptStep Item)) : (K.coupling r).Steady (runScript steps) := by
  induction steps with
  | nil => exact .of_pure rfl
  | cons step rest ih =>
    cases step with
    | item | fail | done => exact .of_pure rfl
    | await d =>
      refine (World.arrival?_steady d).bind fun v => ?_
      cases v with
      | none => exact .of_pure rfl
      | some v => exact ih

/-- A deferred sequence waits for the same arrival in both worlds. -/
private theorem deferredStep_steady (d : DeferredId) (arrived : Option (List Item)) :
    (K.coupling r).Steady (deferredStep d arrived) := by
  cases arrived with
  | some xs => exact .of_pure rfl
  | none =>
    refine (World.arrival?_steady d).bind ?_
    rintro (_ | _ | _) <;> exact .of_pure rfl

/-! ### Buffers -/

/-- Buffers that agree record the same outcome and sources that agree. -/
private theorem Buffer.Agree.record {buffer buffer' : Buffer} (h : Buffer.Agree r buffer buffer') (o : Outcome Item)
    {s s' : Stream} (hs : Stream.Agree r s s') :
    Buffer.Agree r (BufferOf.record buffer o s) (BufferOf.record buffer' o s') := by
  obtain ⟨items, error, -⟩ := h
  cases o with
  | item x => exact .mk (items.push x) error (.some hs)
  | done => exact .mk items error .none
  | failed e => exact .mk items (some e) .none
  | suspended | skip => exact .mk items error (.some hs)

/-- A reader finds the same item in buffers that agree, or sources that agree. -/
private theorem Buffer.Agree.peek {buffer buffer' : Buffer} (h : Buffer.Agree r buffer buffer') (position : Nat) :
    Sum.LiftRel Eq (Stream.Agree r) (BufferOf.peek buffer position) (BufferOf.peek buffer' position) := by
  obtain ⟨items, error, h⟩ := h
  unfold BufferOf.peek
  dsimp only
  cases items[position]? with
  | some x => exact .inl rfl
  | none =>
    cases error with
    | some e => exact .inl rfl
    | none =>
      cases h with
      | none => exact .inl rfl
      | some h => exact .inr h

namespace World

variable {b : BufferId}

/-- A look into a buffer changes nothing. -/
theorem peekBuffer_run (w : World) (b : BufferId) (position : Nat) :
    peekBuffer b position w = ((w.buffers[b]?).elim (.inl .done) (·.peek position), w) := by
  cases h : w.buffers[b]? with
  | some buffer => exact peekBuffer_eq h position
  | none =>
    simp only [peekBuffer, bind, StateT.bind, get, getThe, MonadStateOf.get, StateT.get, pure, h]
    rfl

/-- A look at a buffer that is not the trap. -/
private theorem peekBuffer_inStep (hb : K.id? ≠ some b) (position : Nat) :
    (K.coupling r).InStep (peekBuffer b position) (peekBuffer b position)
      (Sum.LiftRel Eq (Stream.Agree r)) := by
  intro w
  rw [peekBuffer_run]
  refine ⟨id, ?_⟩
  rintro _ (@⟨buffers, size, agree, trap⟩)
  rw [peekBuffer_run]
  refine .inr ⟨.mk size agree trap, ?_⟩
  have hagree := agree b hb
  dsimp only
  generalize w.buffers[b]? = u at hagree
  generalize buffers[b]? = u' at hagree
  cases hagree with
  | none => exact .inl rfl
  | some h => exact h.peek position

/-- What is pulled is recorded in both worlds, and the trap stays as it is. -/
private theorem recordPull_inStep (hb : K.id? ≠ some b) (o : Outcome Item) {s s' : Stream}
    (hs : Stream.Agree r s s') :
    (K.coupling r).InStep (recordPull b o s) (recordPull b o s') Eq := by
  intro w
  -- the trap is another buffer
  have hother {buffers : Array Buffer} {c : BufferId} (hc : K.id? = some c) (s : Stream) :
      (buffers.modify b (·.record o s))[c]? = buffers[c]? := by
    have hne : b ≠ c := fun h => hb (h ▸ hc)
    rw [Array.getElem?_modify, if_neg hne]
  constructor
  · rintro ⟨c, hc, buffer, hw, hsource⟩
    exact ⟨c, hc, buffer, (hother hc s).trans hw, hsource⟩
  · rintro _ (@⟨buffers, size, agree, trap⟩)
    refine .inr ⟨.mk ?_ (fun c hc => ?_) fun c hc => ?_, rfl⟩
    · exact Array.size_modify.trans (size.trans Array.size_modify.symm)
    · change Option.Rel _ (w.buffers.modify b _)[c]? _
      rw [Array.getElem?_modify, Array.getElem?_modify]
      have hagree := agree c hc
      split
      · generalize w.buffers[c]? = u at hagree
        generalize buffers[c]? = u' at hagree
        cases hagree with
        | none => exact .none
        | some h => exact .some (h.record o hs)
      · exact hagree
    · exact ⟨(hother hc s).trans (trap c hc).1, (hother hc s').trans (trap c hc).2⟩

end World

end

/-! ### What is evaluated later -/

section

variable {K : Trap} {env : Environment} {E : Engine} (hE : E.InStep K env.registry)
include hE

/-- A body is evaluated for the same item in scopes that agree on what the body may read. -/
private theorem focusOn_inStep (role : FocusRole) {body : Expr} {s t : Scope}
    (hs : s.AgreeOn env.registry (Expr.MayRead env.registry body) t) (x : Item) (position : Nat) :
    (K.coupling env.registry).InStep (focusOn env E role body s x position) (focusOn env E role body t x position)
      (Attempts (Stream.Agree env.registry)) := by
  have hbody := evaluate_inStep hE body hs
  cases role with
  | map => exact hbody.bind fun _ _ h => .of_pure (.ok h)
  | path =>
    unfold focusOn
    dsimp only
    split
    · exact hbody.bind fun _ _ h => .of_pure (.ok h)
    · exact .of_pure (.error _)
  | filter =>
    exact hbody.bind fun _ _ h => .of_pure (.ok (.flatMap (.keep x) (.run (.truth _ _ h))))

/-- Inner sequences are opened in step. Conditions and predicates choose alike, as the items are the same. -/
private theorem Expander.apply_inStep {f f' : Expander} (hf : f.Agree env.registry f') (x : Item) :
    (K.coupling env.registry).InStep (f.apply env E x) (f'.apply env E x)
      (Both (Attempts (Stream.Agree env.registry)) (Expander.Agree env.registry)) := by
  cases hf with
  | host f =>
    refine (Callback.begin_steady .flatMap f).bind ?_
    rintro ⟨_ | _, f⟩
    · exact .of_pure ⟨.error _, .host f⟩
    · exact .of_pure ⟨.ok (.refl _), .host f⟩
  | branch h =>
    have hyes := evaluate_inStep hE _ h.left
    have hno := evaluate_inStep hE _ h.right
    unfold Expander.apply
    dsimp only
    split
    · exact hyes.bind fun _ _ hs => .of_pure ⟨.ok hs, .branch h⟩
    · exact hno.bind fun _ _ hs => .of_pure ⟨.ok hs, .branch h⟩
  | decide deciding h =>
    have hright := evaluate_inStep hE _ h
    unfold Expander.apply
    dsimp only
    split
    · exact .of_pure ⟨.ok (.refl _), .decide deciding h⟩
    · exact hright.bind fun _ _ hs => .of_pure ⟨.ok (.booleanValue hs), .decide deciding h⟩
  | bindEach h =>
    refine Coupling.InStep.bind (World.newBuffer_inStep (.refl _)) ?_
    rintro b _ rfl
    exact (evaluate_inStep hE _ (h.bind (.buffered b))).bind fun _ _ hs => .of_pure ⟨.ok hs, .bindEach h⟩
  | focusEach role size position h hq =>
    refine (focusOn_inStep hE role (h.withFocus x (position + 1) size hq) x (position + 1)).bind fun _ _ hs => ?_
    exact .of_pure ⟨hs, .focusEach role size (position + 1) h hq⟩
  | keep y => exact .of_pure ⟨Std.Refl.refl _, .keep y⟩

/-- A dynamic call may read everything, as nothing is known of the function. -/
private theorem callWith_inStep (x : Item) (arguments : List (Option Expr)) {s t : Scope}
    (hs : s.AgreeOn env.registry (fun _ => True) t) :
    (K.coupling env.registry).InStep (callWith env E x arguments s) (callWith env E x arguments t)
      (Attempts (Stream.Agree env.registry)) := by
  have ha := evaluateArguments_inStep hE arguments (hs.mono fun _ _ => trivial)
  unfold callWith
  split
  · split
    · rename_i f
      refine ha.bind fun _ _ h => Coupling.InStep.bind (f.partiallyApply_inStep h) ?_
      rintro q _ rfl
      exact .of_pure (Std.Refl.refl _)
    · exact .of_pure (.error _)
  · exact ha.bind fun _ _ h => hE.callItem (forall₂_filterMap_id h) env.forest x hs

/-- Operators are in step by the cache they share, calls by their scopes. -/
private theorem Combiner.applyAll_inStep {f f' : Combiner} (hf : f.Agree env.registry f') (xs : List Item) :
    (K.coupling env.registry).InStep (f.applyAll env E xs) (f'.applyAll env E xs)
      (Attempts (Stream.Agree env.registry)) := by
  cases hf with
  | call arguments h =>
    match xs with
    | [x] => exact callWith_inStep hE x arguments h
    | [] | _ :: _ :: _ => exact .of_pure (.error _)
  | same f =>
    unfold Combiner.applyAll
    split
    · refine (Callback.begin_steady .zip _).bind fun q => ?_
      split <;> exact .of_pure (Std.Refl.refl _)
    · exact .of_pure (Std.Refl.refl _)
    · exact (World.operate_steady _).bind fun q => .of_pure (Std.Refl.refl _)
    · exact (World.operate_steady _).bind fun q => .of_pure (Std.Refl.refl _)
    · exact (World.operate_steady _).bind fun q => .of_pure (Std.Refl.refl _)
    · exact .of_pure (Std.Refl.refl _)
    · exact callWith_inStep hE _ _ (.refl _)
    · exact .of_pure (Std.Refl.refl _)
    · exact .of_pure (Std.Refl.refl _)

/-- The same operands are missing in both worlds. -/
private theorem Combiner.apply_inStep {f f' : Combiner} (hf : f.Agree env.registry f')
    (found : List (Option Item)) :
    (K.coupling env.registry).InStep (f.apply env E found) (f'.apply env E found)
      (Attempts (Stream.Agree env.registry)) := by
  have hall := Combiner.applyAll_inStep hE hf
  cases hf with
  | call arguments h =>
    unfold Combiner.apply
    dsimp only
    split
    · exact hall _
    · exact .of_pure (.ok (.refl _))
  | same f =>
    unfold Combiner.apply
    split
    · refine (Callback.begin_steady .zipOptional _).bind fun q => ?_
      split <;> exact .of_pure (Std.Refl.refl _)
    · exact .of_pure (.ok (.refl _))
    · split
      · exact hall _
      · exact .of_pure (.ok (.refl _))

/-! ### Readers and calls -/

/-- A reader of the trap finds out that the empty sequence has ended, and its source is gone then. -/
theorem readerStep_springs {b : BufferId} (hb : K.id? = some b) (position : Nat) :
    (K.coupling env.registry).InStep (readerStep E b position) (readerStep E b position)
      (Both Eq (Cursor.Agree env.registry)) := by
  intro w
  constructor
  · rintro ⟨c, hc, buffer, hw, hsource⟩
    obtain rfl : b = c := Option.some.inj (hb.symm.trans hc)
    -- without a source nothing is pulled
    obtain ⟨o, hpeek⟩ : ∃ o, buffer.peek position = .inl o := by
      unfold BufferOf.peek
      rw [hsource]
      split
      · exact ⟨_, rfl⟩
      · exact ⟨_, rfl⟩
      · exact ⟨_, rfl⟩
      · rename_i h
        cases h
    have hr : readerStep E b position w = ((o, .reader b (BufferOf.positionAfter position o)), w) := by
      simp only [readerStep, bind, StateT.bind, World.peekBuffer_eq hw, hpeek]
      rfl
    rw [hr]
    exact ⟨b, hb, buffer, hw, hsource⟩
  · rintro _ (@⟨buffers, size, agree, trap⟩)
    have hw := (trap b hb).1
    have hpeek : BufferOf.peek (.start .empty : Buffer) position = .inr .empty := by
      simp [BufferOf.peek, BufferOf.start]
    obtain ⟨hends, hsame⟩ := hE.ends w
    rcases hstep : E.step .empty w with ⟨⟨o, s⟩, w₁⟩
    rw [hstep] at hends hsame
    obtain rfl : w₁ = w := hsame
    have hr : readerStep E b position w₁ =
        ((o, .reader b (BufferOf.positionAfter position o)), (World.recordPull b o s w₁).2) := by
      simp only [readerStep, bind, StateT.bind, World.peekBuffer_eq hw, hpeek, hstep]
      rfl
    rw [hr]
    refine .inl ⟨b, hb, BufferOf.record (.start .empty) o s, ?_, ?_⟩
    · change (w₁.buffers.modify b _)[b]? = _
      rw [Array.getElem?_modify, if_pos rfl, hw]
      rfl
    · cases o with
      | done | failed => rfl
      | item | suspended | skip => exact hends.elim

/-- A reader of the trap springs it by its first step. Any other finds the same in both worlds. -/
private theorem readerStep_inStep (b : BufferId) (position : Nat) :
    (K.coupling env.registry).InStep (readerStep E b position) (readerStep E b position)
      (Both Eq (Cursor.Agree env.registry)) := by
  by_cases hb : K.id? = some b
  · exact readerStep_springs hE hb position
  · refine (World.peekBuffer_inStep hb position).bind fun _ _ h => ?_
    cases h with
    | inl h =>
      cases h
      exact .of_pure ⟨rfl, .reader b _⟩
    | inr h =>
      refine (hE.step h).bind ?_
      rintro ⟨o, s⟩ ⟨_, s'⟩ ⟨rfl, hs⟩
      refine Coupling.InStep.bind (World.recordPull_inStep hb o hs) fun _ _ _ => ?_
      exact .of_pure ⟨rfl, .reader b _⟩

omit hE in
/-- Attempts that agree continue with streams that agree, or stay at cursors that do. -/
private theorem forwarding_agree {c c' : Cursor} (hc : c.Agree env.registry c') {q q' : Except Error Stream}
    (hq : Attempts (Stream.Agree env.registry) q q') :
    Both Eq (Cursor.Agree env.registry) (forwarding c q) (forwarding c' q') := by
  cases hq with
  | ok h => exact ⟨rfl, .forward h⟩
  | error e => exact ⟨rfl, hc⟩

/-- The same overload is selected, as the arguments are complete and the same. -/
private theorem dispatchStep_inStep (forest : Forest) {d d' : Dispatch} (hd : d.Agree env.registry d')
    (arguments : List (List Item)) :
    (K.coupling env.registry).InStep (dispatchStep forest E d arguments) (dispatchStep forest E d' arguments)
      (Both Eq (Cursor.Agree env.registry)) := by
  have hstay : Cursor.Agree env.registry (.dispatch d arguments) (.dispatch d' arguments) := .dispatch hd arguments
  obtain @⟨name, fs, s, t, hs⟩ := hd
  have hselect : Dispatch.select forest ⟨name, fs, s⟩ arguments = Dispatch.select forest ⟨name, fs, t⟩ arguments :=
    rfl
  unfold dispatchStep
  rw [hselect]
  dsimp only
  split
  · exact .of_pure ⟨rfl, hstay⟩
  · rename_i f converted h
    have hf : f ∈ fs := (Dispatch.of_select h).1
    refine (hE.call f (hs.mono fun _ hnot => ⟨f, hf, hnot⟩) (Std.Refl.refl _)).bind fun _ _ h => ?_
    exact .of_pure (forwarding_agree hstay h)

/-! ### Steps -/

omit hE in
/-- Streams with the same items ahead stand alike after the same outcome. -/
private theorem statusAfter_agree (ahead : List Item) (o : Outcome Item) {c c' : Cursor}
    (hc : c.Agree env.registry c') :
    Stream.Agree env.registry ⟨ahead, StreamOf.statusAfter o c⟩ ⟨ahead, StreamOf.statusAfter o c'⟩ := by
  cases o with
  | done => exact .done ahead
  | failed e => exact .failed ahead e
  | item | suspended | skip => exact .running ahead hc

omit hE in
/-- A look ahead that finds the same gives the same verdict. -/
private theorem presenceOutcome_agree (wantsEmpty : Bool) {q q' : Outcome Cardinality × Stream}
    (h : Both Eq (Stream.Agree env.registry) q q') :
    Both Eq (Cursor.Agree env.registry) (presenceOutcome wantsEmpty q) (presenceOutcome wantsEmpty q') := by
  obtain ⟨o, s⟩ := q
  obtain ⟨_, s'⟩ := q'
  obtain ⟨rfl, h⟩ := h
  cases o with
  | item => exact ⟨rfl, .spent h⟩
  | skip => exact ⟨rfl, .presence wantsEmpty true h⟩
  | done | suspended | failed => exact ⟨rfl, .presence wantsEmpty false h⟩

end

section

variable {K : Trap} {env : Environment} {E : Engine}

mutual

/-- Cursors that agree take their steps in step. The cases are those of cursors. -/
theorem Cursor.step_inStep (hE : E.InStep K env.registry) (c : Cursor) {c' : Cursor}
    (hc : c.Agree env.registry c') :
    (K.coupling env.registry).InStep (c.step env E) (c'.step env E) (Both Eq (Cursor.Agree env.registry)) := by
  match c with
  | .items xs =>
    cases hc
    exact .of_pure ⟨rfl, .items _⟩
  | .emit xs =>
    cases hc
    exact .of_pure ⟨rfl, .emit _⟩
  | .candidates .. | .descendants .. | .range .. =>
    cases hc
    exact .of_pure (Std.Refl.refl _)
  | .script label steps claimed =>
    cases hc
    refine (World.record_steady (.pull label)).bind fun _ => ?_
    exact (runScript_steady steps).bind fun _ => .of_pure (Std.Refl.refl _)
  | .deferred d arrived =>
    cases hc
    refine Coupling.InStep.mono (deferredStep_steady d arrived) ?_
    rintro q _ rfl
    exact Std.Refl.refl q
  | .reader b position =>
    cases hc
    exact readerStep_inStep hE b position
  | .map f input =>
    cases hc with
    | map _ h =>
      refine (Step.map_inStep (f.apply_steady env.forest) (streamStep_inStep hE input h)).bind ?_
      rintro ⟨o, f, s⟩ ⟨_, _, s'⟩ ⟨rfl, rfl, hs⟩
      exact .of_pure ⟨rfl, .map f hs⟩
  | .filter f input =>
    cases hc with
    | filter _ h =>
      refine (Step.filter_inStep (f.apply_steady env.forest) (streamStep_inStep hE input h)).bind ?_
      rintro ⟨o, f, s⟩ ⟨_, _, s'⟩ ⟨rfl, rfl, hs⟩
      exact .of_pure ⟨rfl, .filter f hs⟩
  | .collect f seen input =>
    cases hc with
    | collect _ _ h =>
      refine (Step.collect_inStep (f.apply_steady env.forest) (streamStep_inStep hE input h)).bind ?_
      rintro ⟨o, q⟩ ⟨_, q'⟩ ⟨rfl, hq⟩
      obtain @⟨⟨seen, s⟩, ⟨_, s'⟩, ⟨rfl, hs⟩⟩ | rfl := hq
      · exact .of_pure ⟨rfl, .collect f seen hs⟩
      · exact .of_pure ⟨rfl, .emit _⟩
  | .outer f input =>
    cases hc with
    | outer hf h =>
      refine (Step.outer_inStep (Expander.apply_inStep hE hf) hf (streamStep_inStep hE input h)).bind ?_
      rintro ⟨o, f, s, u⟩ ⟨_, f', s', u'⟩ ⟨rfl, hf, hs, hu⟩
      cases hu with
      | none => exact .of_pure ⟨rfl, .outer hf hs⟩
      | some hu => exact .of_pure ⟨rfl, .inner hf hs hu⟩
  | .inner f input current =>
    cases hc with
    | inner hf h hu =>
      refine (Step.inner_inStep (streamStep_inStep hE current hu)).bind ?_
      rintro ⟨o, u⟩ ⟨_, u'⟩ ⟨rfl, hu⟩
      cases hu with
      | none => exact .of_pure ⟨rfl, .outer hf h⟩
      | some hu => exact .of_pure ⟨rfl, .inner hf h hu⟩
  | .concat first rest =>
    cases hc with
    | concat h hr =>
      refine (Step.concat_inStep hr (streamStep_inStep hE first h)).bind ?_
      rintro ⟨o, s, rest⟩ ⟨_, s', rest'⟩ ⟨rfl, hs, hr⟩
      exact .of_pure ⟨rfl, .concat hs hr⟩
  | .take n input =>
    cases hc with
    | take _ h =>
      refine (Step.take_inStep h (streamStep_inStep hE input h)).bind ?_
      rintro ⟨o, n, s⟩ ⟨_, _, s'⟩ ⟨rfl, rfl, hs⟩
      exact .of_pure ⟨rfl, .take n hs⟩
  | .atomize pending input =>
    cases hc with
    | atomize _ h =>
      refine (Step.expand_inStep h (streamStep_inStep hE input h)).bind ?_
      rintro ⟨o, pending, s⟩ ⟨_, _, s'⟩ ⟨rfl, rfl, hs⟩
      exact .of_pure ⟨rfl, .atomize pending hs⟩
  | .zip f before current found after waiting =>
    cases hc with
    | zip _ _ hf hb h ha =>
      refine (Step.zip_inStep (.mk hb (.mk h found) ha waiting) (streamStep_inStep hE current h)).bind ?_
      rintro ⟨o, q⟩ ⟨_, q'⟩ ⟨rfl, hq⟩
      obtain ⟨hb, ⟨hs, item⟩, ha, waiting⟩ | rfl := hq
      · exact .of_pure ⟨rfl, .zip item waiting hf hb hs ha⟩
      · exact .of_pure ⟨rfl, .combine hf _⟩
  | .combine f found =>
    cases hc with
    | combine hf _ =>
      exact (Combiner.apply_inStep hE hf found).bind fun _ _ h => .of_pure (forwarding_agree (.combine hf found) h)
  | .forward input =>
    cases hc with
    | forward h => exact (streamStep_inStep hE input h).bind fun _ _ h => .of_pure ⟨h.1, .forward h.2⟩
  | .truth position first input =>
    cases hc with
    | truth _ _ h =>
      refine (Step.truth_inStep env.forest position first (streamStep_inStep hE input h)).bind ?_
      rintro ⟨o, q⟩ ⟨_, q'⟩ ⟨rfl, hq⟩
      obtain @⟨⟨first, s⟩, ⟨_, s'⟩, ⟨rfl, hs⟩⟩ | hs := hq
      · exact .of_pure ⟨rfl, .truth position first hs⟩
      · exact .of_pure ⟨rfl, .spent hs⟩
  | .convert c input =>
    cases hc with
    | convert _ h =>
      refine (c.step_inStep env.forest h (streamStep_inStep hE input h)).bind ?_
      rintro ⟨o, c, s⟩ ⟨_, _, s'⟩ ⟨rfl, rfl, hs⟩
      exact .of_pure ⟨rfl, .convert c hs⟩
  | .gather d gathered seen current rest =>
    cases hc with
    | gather _ _ hd h hr =>
      refine (Step.gather_inStep (.mk gathered seen h hr) (streamStep_inStep hE current h)).bind ?_
      rintro ⟨o, q⟩ ⟨_, q'⟩ ⟨rfl, hq⟩
      obtain ⟨gathered, seen, hs, hr⟩ | rfl := hq
      · exact .of_pure ⟨rfl, .gather gathered seen hd hs hr⟩
      · exact .of_pure ⟨rfl, .dispatch hd _⟩
  | .dispatch d arguments =>
    cases hc with
    | dispatch hd _ => exact dispatchStep_inStep hE env.forest hd arguments
  | .count seen input =>
    cases hc with
    | count _ h =>
      refine (Step.count_inStep (streamStep_inStep hE input h)).bind ?_
      rintro ⟨o, n, u⟩ ⟨_, _, u'⟩ ⟨rfl, rfl, hu⟩
      cases hu with
      | none => exact .of_pure ⟨rfl, .emit []⟩
      | some hu => exact .of_pure ⟨rfl, .count n hu⟩
  | .presence wantsEmpty begun input =>
    cases hc with
    | presence _ _ h =>
      -- the hint answers at once, or the input is looked into
      have hlook := streamLook_inStep hE input h
      have hhint := Stream.Agree.hint_eq input h
      unfold Cursor.step
      rw [hhint]
      split
      · exact .of_pure (presenceOutcome_agree wantsEmpty ⟨rfl, h⟩)
      · exact hlook.bind fun _ _ h => .of_pure (presenceOutcome_agree wantsEmpty h)
  | .spent input =>
    cases hc with
    | spent h => exact .of_pure ⟨rfl, .spent h⟩

/-- The same of streams, which deliver the items ahead before they take a step. -/
theorem streamStep_inStep (hE : E.InStep K env.registry) (s : StreamOf Item Cursor) {s' : Stream}
    (hs : Stream.Agree env.registry s s') :
    (K.coupling env.registry).InStep (streamStep env E s) (streamStep env E s')
      (Both Eq (Stream.Agree env.registry)) := by
  match s with
  | ⟨x :: ahead, .running c⟩ =>
    cases hs with
    | running _ h => exact .of_pure ⟨rfl, .running ahead h⟩
  | ⟨x :: ahead, .done⟩ =>
    cases hs
    exact .of_pure ⟨rfl, .done ahead⟩
  | ⟨x :: ahead, .failed e⟩ =>
    cases hs
    exact .of_pure ⟨rfl, .failed ahead e⟩
  | ⟨[], .done⟩ | ⟨[], .failed e⟩ =>
    cases hs
    exact .of_pure (Std.Refl.refl _)
  | ⟨[], .running c⟩ =>
    cases hs with
    | running _ h =>
      refine (Cursor.step_inStep hE c h).bind ?_
      rintro ⟨o, c⟩ ⟨_, c'⟩ ⟨rfl, hc⟩
      exact .of_pure ⟨rfl, statusAfter_agree [] o hc⟩

/-- The same of a look ahead. -/
theorem streamLook_inStep (hE : E.InStep K env.registry) (s : StreamOf Item Cursor) {s' : Stream}
    (hs : Stream.Agree env.registry s s') :
    (K.coupling env.registry).InStep (streamLook env E s) (streamLook env E s')
      (Both Eq (Stream.Agree env.registry)) := by
  match s with
  | ⟨ahead, .done⟩ | ⟨ahead, .failed e⟩ =>
    cases hs
    unfold streamLook statusLook
    dsimp only
    split <;> exact .of_pure (Std.Refl.refl _)
  | ⟨ahead, .running c⟩ =>
    cases hs with
    | running _ h =>
      have hstep := Cursor.step_inStep hE c h
      unfold streamLook statusLook
      dsimp only
      split
      · exact .of_pure ⟨rfl, .running ahead h⟩
      · refine hstep.bind ?_
        rintro ⟨o, c⟩ ⟨_, c'⟩ ⟨rfl, hc⟩
        cases o with
        | item x => exact .of_pure ⟨rfl, .running (ahead ++ [x]) hc⟩
        | done => exact .of_pure ⟨rfl, .done ahead⟩
        | suspended | failed | skip => exact .of_pure ⟨rfl, statusAfter_agree ahead _ hc⟩

end

end

/-- **Engines work in step.** -/
theorem Engine.ofDepth_inStep (K : Trap) (env : Environment) (depth : Nat) :
    (Engine.ofDepth env depth).InStep K env.registry := by
  -- the engine of a depth is made of the machine in the engine below it
  induction depth with
  | zero =>
    refine ⟨fun _ _ _ _ _ _ _ => .of_pure (.error _), fun _ => .of_pure (.refl _), ?_, fun _ => ⟨trivial, rfl⟩⟩
    intro s s' hs
    exact .of_pure ⟨rfl, hs⟩
  | succ depth ih =>
    exact ⟨fun f _ _ _ _ hs ha => callFunction_inStep ih ha f hs, fun hq => evaluateReplay_inStep ih hq,
      fun hs => streamStep_inStep ih _ hs, fun _ => ⟨trivial, rfl⟩⟩

end LazyXPath
