import LazyXPath.Proofs.Agreement

/-!
# Worlds that are alike

Worlds are alike if they are the same up to their buffers, and these agree. A trap is exempted: it holds the
empty sequence in the first world and something fixed in the second one. The coupling of such worlds is
broken as soon as the trap is sprung (`Trap.coupling`).

Actions that have nothing to do with buffers do the same in both worlds (`Trap.steady`), and new buffers
have the same numbers. Functions are called in step if the arguments agree and the scopes agree on what the
function may read of them. This goes through an engine, of which it is assumed (`Engine.InStep`).
-/

namespace LazyXPath

/-- Buffers that agree. -/
inductive Buffer.Agree (r : Registry) : Buffer → Buffer → Prop
  | mk (items : Array Item) {source source' : Option Stream} (error : Option Error)
      (h : Option.Rel (Stream.Agree r) source source') : Agree r ⟨items, source, error⟩ ⟨items, source', error⟩

/-- A buffer that nobody is expected to read. -/
structure Trap where
  /-- The number of the buffer, if there is a trap at all. -/
  id? : Option BufferId
  /-- What it holds in the second of two worlds. -/
  held : Buffer

/-- No trap. -/
def Trap.none : Trap := ⟨.none, .start .empty⟩

/-- Worlds that are alike. -/
inductive World.Alike (K : Trap) (r : Registry) (w : World) : World → Prop
  | mk {buffers : Array Buffer} (size : w.buffers.size = buffers.size)
      (agree : ∀ b, K.id? ≠ some b → Option.Rel (Buffer.Agree r) w.buffers[b]? buffers[b]?)
      (trap : ∀ b, K.id? = some b → w.buffers[b]? = some (.start .empty) ∧ buffers[b]? = some K.held) :
      Alike K r w { w with buffers }

/-- The trap has been sprung: its source is gone. -/
def World.Sprung (K : Trap) (w : World) : Prop :=
  ∃ b, K.id? = some b ∧ ∃ buffer, w.buffers[b]? = some buffer ∧ buffer.source = none

/-- The coupling of worlds that are alike until the trap is sprung. -/
def Trap.coupling (K : Trap) (r : Registry) : Coupling World := ⟨World.Alike K r, World.Sprung K⟩

section

variable {K : Trap} {r : Registry}

instance : Std.Refl (Buffer.Agree r) where
  refl buffer := .mk buffer.items buffer.error (Std.Refl.refl buffer.source)

/-- Without a trap every world is like itself. -/
theorem World.Alike.refl (w : World) : World.Alike .none r w w :=
  @World.Alike.mk .none r w w.buffers rfl (fun _ _ => Std.Refl.refl _) fun _ h => nomatch h

/-- Worlds that are alike have logged the same. -/
theorem World.Alike.events_eq {w w' : World} (h : World.Alike K r w w') : w.events = w'.events := by
  cases h
  rfl

/-- The trap still holds in the second world what it was set up with. -/
theorem World.Alike.held {w w' : World} (h : World.Alike K r w w') {b : BufferId} (hb : K.id? = some b) :
    w'.buffers[b]? = some K.held := by
  cases h with
  | mk _ _ trap => exact (trap b hb).2

/-! ### Actions -/

/-- An action that has nothing to do with buffers. -/
theorem Trap.steady {α : Type} {x : Action α}
    (hx : ∀ w buffers, x { w with buffers } = ((x w).1, { (x w).2 with buffers })) :
    (K.coupling r).Steady x := by
  intro w
  have hkept : (x w).2.buffers = w.buffers := congrArg (fun q => q.2.buffers) (hx w w.buffers)
  constructor
  · rintro ⟨b, hb, buffer, hw, hs⟩
    exact ⟨b, hb, buffer, hkept ▸ hw, hs⟩
  · rintro _ (@⟨buffers, size, agree, trap⟩)
    rw [hx w buffers]
    rw [← hkept] at size agree trap
    exact .inr ⟨.mk size agree trap, rfl⟩

namespace World

/-- Events are logged in both worlds. -/
theorem record_steady (e : Event) : (K.coupling r).Steady (record e) := Trap.steady fun _ _ => rfl

/-- Identities are numbered alike. -/
theorem newIdentity_steady : (K.coupling r).Steady newIdentity := Trap.steady fun _ _ => rfl

/-- The operators that have been built are the same in both worlds. -/
theorem operate_steady {α : Type} (f : OperatorCache → Except Error α × OperatorCache) :
    (K.coupling r).Steady (operate f) := Trap.steady fun _ _ => rfl

theorem arrival?_steady (d : DeferredId) : (K.coupling r).Steady (arrival? d) := Trap.steady fun _ _ => rfl

theorem replay?_steady (name : String) : (K.coupling r).Steady (replay? name) := Trap.steady fun _ _ => rfl

/-- A new buffer has the same number in both worlds, and it is not the trap. -/
theorem newBuffer_inStep {s s' : Stream} (hs : Stream.Agree r s s') :
    (K.coupling r).InStep (newBuffer s) (newBuffer s') Eq := by
  intro w
  -- the buffers that are there stay
  have hold {buffers : Array Buffer} {b : BufferId} {buffer : Buffer} (t : Stream)
      (h : buffers[b]? = some buffer) : (buffers.push (.start t))[b]? = some buffer := by
    have hlt : b < buffers.size := (Array.getElem?_eq_some_iff.mp h).1
    rw [Array.getElem?_push_lt hlt, ← Array.getElem?_eq_getElem hlt, h]
  constructor
  · rintro ⟨b, hb, buffer, hw, hsource⟩
    exact ⟨b, hb, buffer, hold s hw, hsource⟩
  · rintro _ ⟨size, agree, trap⟩
    refine .inr ⟨.mk ?_ (fun b hb => ?_) fun b hb => ?_, size⟩
    · exact (Array.size_push _).trans ((congrArg (· + 1) size).trans (Array.size_push _).symm)
    · change Option.Rel _ (w.buffers.push _)[b]? _
      rw [Array.getElem?_push, Array.getElem?_push, ← size]
      split
      · exact .some (.mk #[] none (.some hs))
      · exact agree b hb
    · exact ⟨hold s (trap b hb).1, hold s' (trap b hb).2⟩

/-- The same of the buffers for the arguments of a partial application, as the same ones are given in both
worlds. -/
private theorem newBuffers_inStep {ss ss' : List (Option Stream)}
    (hs : List.Forall₂ (Option.Rel (Stream.Agree r)) ss ss') :
    (K.coupling r).InStep (newBuffers ss) (newBuffers ss') Eq := by
  induction hs with
  | nil => exact .of_pure rfl
  | cons h _ ih =>
    cases h with
    | none => exact Coupling.InStep.bind ih fun _ _ h => .of_pure (congrArg (none :: ·) h)
    | some h =>
      refine Coupling.InStep.bind (newBuffer_inStep h) ?_
      rintro b _ rfl
      exact Coupling.InStep.bind ih fun _ _ h => .of_pure (congrArg (some b :: ·) h)

end World

/-! ### Functions that are made -/

/-- Which parameters are left open depends only on which arguments are given. -/
private theorem Function.openParameters_eq {ss ss' : List (Option Stream)}
    (hs : List.Forall₂ (Option.Rel (Stream.Agree r)) ss ss') (types : List SequenceType) :
    openParameters types ss = openParameters types ss' := by
  induction hs generalizing types with
  | nil => cases types <;> rfl
  | cons h _ ih =>
    cases types with
    | nil => cases h <;> rfl
    | cons type types =>
      cases h with
      | none => exact congrArg (type :: ·) (ih types)
      | some => exact ih types

/-- Partial applications to arguments that agree give one and the same function: its buffers have the same
numbers. -/
theorem Function.partiallyApply_inStep (f : Function) {ss ss' : List (Option Stream)}
    (hs : List.Forall₂ (Option.Rel (Stream.Agree r)) ss ss') :
    (K.coupling r).InStep (f.partiallyApply ss) (f.partiallyApply ss') Eq := by
  refine World.newIdentity_steady.bind fun identity => ?_
  rw [hs.length_eq]
  cases f.forArguments identity ss'.length with
  | error e => exact .of_pure rfl
  | ok target =>
    refine World.newIdentity_steady.bind fun identity => ?_
    refine Coupling.InStep.bind (World.newBuffers_inStep hs) ?_
    rintro bound _ rfl
    rw [Function.openParameters_eq hs]
    exact .of_pure rfl

/-- Filling in the arguments of a call leaves those that have been given before as they are. -/
theorem Function.fillIn_agree {ss ss' : List Stream} (hs : List.Forall₂ (Stream.Agree r) ss ss')
    (bound : List (Option BufferId)) :
    List.Forall₂ (Stream.Agree r) (fillIn bound ss) (fillIn bound ss') := by
  induction bound generalizing ss ss' with
  | nil => exact .nil
  | cons b bound ih =>
    cases b with
    | some b => exact .cons (.refl _) (ih hs)
    | none =>
      cases hs with
      | nil => exact .cons (.refl _) (ih .nil)
      | cons h hs => exact .cons h (ih hs)

/-! ### Calls -/

/-- An engine works in step on what agrees, and comes to an end with the empty sequence. -/
structure Engine.InStep (K : Trap) (r : Registry) (E : Engine) : Prop where
  call : ∀ (f : Function) {s t : Scope} {arguments arguments' : List Stream},
    s.AgreeOn r (fun _ => f.isBuiltin = false) t → List.Forall₂ (Stream.Agree r) arguments arguments' →
      (K.coupling r).InStep (E.call f s arguments) (E.call f t arguments') (Attempts (Stream.Agree r))
  replay : ∀ {q q' : Replay}, q.Agree r q' →
    (K.coupling r).InStep (E.replay q) (E.replay q') (Stream.Agree r)
  step : ∀ {s s' : Stream}, Stream.Agree r s s' →
    (K.coupling r).InStep (E.step s) (E.step s') (Both Eq (Stream.Agree r))
  ends : ∀ w, (E.step .empty w).1.1.IsEnding ∧ (E.step .empty w).2 = w

namespace Engine.InStep

variable {E : Engine} (hE : E.InStep K r) {s t : Scope} {arguments arguments' : List Stream}
  (ha : List.Forall₂ (Stream.Agree r) arguments arguments')
include hE ha

/-- An invocation of a function of the catalog asks for scopes that agree on no variable at all. -/
theorem invoke {f : Function} (hs : s.AgreeOn r (fun _ => f.isBuiltin = false) t) :
    (K.coupling r).InStep (E.invoke f s arguments) (E.invoke f t arguments') (Attempts (Stream.Agree r)) := by
  have hconverted : List.Forall₂ (Stream.Agree r) (f.signature.convertArguments arguments)
      (f.signature.convertArguments arguments') := by
    refine List.forall₂_iff_get.mpr ⟨?_, fun i hi hi' => ?_⟩
    · rw [Signature.convertArguments, Signature.convertArguments, List.length_mapIdx, List.length_mapIdx,
        ha.length_eq]
    · simp only [Signature.convertArguments, List.get_eq_getElem, List.getElem_mapIdx]
      rw [Signature.convertArguments, List.length_mapIdx] at hi hi'
      have h := (List.forall₂_iff_get.mp ha).2 i hi hi'
      split
      · exact .convert _ h
      · exact h
  unfold Engine.invoke
  rw [ha.length_eq]
  split
  · exact hE.call f hs hconverted
  · exact .of_pure (.error _)

/-- The same of a call by overloads: it asks for more only if one of them is not of the catalog. -/
theorem invokeAny (name : Name) {fs : List Function}
    (hs : s.AgreeOn r (fun _ => ∃ f ∈ fs, f.isBuiltin = false) t) :
    (K.coupling r).InStep (E.invokeAny name fs s arguments) (E.invokeAny name fs t arguments')
      (Attempts (Stream.Agree r)) := by
  unfold Engine.invokeAny
  split
  · rw [ha.length_eq]
    exact .of_pure (.error _)
  · exact hE.invoke ha (hs.mono fun _ hf => ⟨_, .head _, hf⟩)
  · refine .of_pure (.ok ?_)
    cases ha with
    | nil => exact .run (.dispatch (.mk name hs) [])
    | cons h ha => exact .run (.gather [] [] (.mk name hs) h ha)

/-- The same of a call by a name: it asks for more only if the registry is not a catalog. -/
theorem callNamed (name : Name) (hs : s.AgreeOn r (fun _ => ¬r.IsCatalog) t) :
    (K.coupling r).InStep (E.callNamed r name s arguments) (E.callNamed r name t arguments')
      (Attempts (Stream.Agree r)) := by
  unfold Engine.callNamed
  rw [ha.length_eq, hs.settings]
  split
  · rename_i fs h
    refine hE.invokeAny ha name (hs.mono ?_)
    rintro _ ⟨f, hf, hnot⟩ hr
    exact absurd (hr.resolve h f hf) (Bool.not_eq_true _ ▸ hnot)
  · exact .of_pure (.error _)

/-- An item that is called may be any function, so the scopes have to agree on everything. -/
theorem callItem (forest : Forest) (x : Item) (hs : s.AgreeOn r (fun _ => True) t) :
    (K.coupling r).InStep (E.callItem forest x s arguments) (E.callItem forest x t arguments')
      (Attempts (Stream.Agree r)) := by
  have hlength := ha.length_eq
  cases x with
  | function f => exact hE.invoke ha (hs.mono fun _ _ => trivial)
  | node | atomic => exact .of_pure (.error _)
  | array members =>
    cases ha with
    | nil => exact .of_pure (.error _)
    | cons h ha =>
      cases ha with
      | nil => exact .of_pure (.ok (.collect (.member members) (.convert _ h)))
      | cons => exact .of_pure (.of_eq (congrArg (fun n => Except.error (Error.lookupArgumentCount _ n)) hlength))
  | map identity entries =>
    cases ha with
    | nil => exact .of_pure (.error _)
    | cons h ha =>
      cases ha with
      | nil => exact .of_pure (.ok (.collect (.entry entries) (.convert _ h)))
      | cons => exact .of_pure (.of_eq (congrArg (fun n => Except.error (Error.lookupArgumentCount _ n)) hlength))

end Engine.InStep

end

end LazyXPath
