import LazyXPath.Proofs.Keeping
import LazyXPath.Stream.Machine

/-!
# Buffers out of reach

A stream comes to a buffer only by what it refers to: by a reader, by a variable of a scope, or by a
function whose arguments have been given in part. Buffers that are made on the way are new. So a set of
buffers stays as it is if neither the stream nor anything it can come to refers to one of them. This is
what it means to **spare** the set, for items, expressions, scopes, cursors and worlds.

The set is fixed while a stream is pulled, and a world that spares it tells what is in its buffers. Every
action of the machine keeps this, and what it makes of things that spare the set spares it again:
expressions (`evaluate_keeps`), calls (`callFunction_keeps`) and steps (`Cursor.step_keeps`), and thereby
the engines of all depths (`Engine.ofDepth_spares`).
-/

namespace LazyXPath

/-! ### Items and functions -/

/-- An item holds a function: it is this function, or it is made of an item that holds it. -/
inductive Item.Holds : Item → Function → Prop
  | function (f : Function) : Holds (.function f) f
  | array {members : List (List Item)} {m : List Item} {x : Item} {f : Function} (hm : m ∈ members)
      (hx : x ∈ m) (h : Holds x f) : Holds (.array members) f
  | map {identity : Nat} {entries : Dictionary (List Item)} {e : Atomic × List Item} {x : Item}
      {f : Function} (he : e ∈ entries.entries) (hx : x ∈ e.2) (h : Holds x f) :
      Holds (.map identity entries) f

/-- The items of a script. -/
def scriptItems : List (ScriptStep Item) → List Item
  | [] => []
  | .item x :: rest => x :: scriptItems rest
  | _ :: rest => scriptItems rest

mutual

/-- The items in an expression. -/
def exprItems : Expr → List Item
  | .sequence parts => exprsItems parts
  | .range a b | .arithmetic _ a b | .comparison _ a b | .conjunction a b | .disjunction a b
  | .letIn _ a b | .forIn _ a b | .simpleMap a b | .filter a b | .path a b => exprItems a ++ exprItems b
  | .sign _ a => exprItems a
  | .conditional a b c => exprItems a ++ (exprItems b ++ exprItems c)
  | .call _ arguments => argumentsItems arguments
  | .dynamicCall target arguments => exprItems target ++ argumentsItems arguments
  | .items xs => xs
  | .host _ s => sourceItems s
  | _ => []

/-- The items in several expressions. -/
def exprsItems : List Expr → List Item
  | [] => []
  | e :: es => exprItems e ++ exprsItems es

/-- The items in arguments. -/
def argumentsItems : List (Option Expr) → List Item
  | [] => []
  | a :: rest => argumentItems a ++ argumentsItems rest

/-- The items in an argument. -/
def argumentItems : Option Expr → List Item
  | none => []
  | some e => exprItems e

/-- The items in a source. -/
def sourceItems : Source → List Item
  | .one x => [x]
  | .items xs => xs
  | .script _ steps _ => scriptItems steps
  | .expr e => exprItems e
  | .invoke _ parts | .concat parts | .zip _ parts | .zipOptional _ parts => sourcesItems parts
  | .map _ s | .mapAll _ s | .filter _ s | .flatMap _ s | .take _ s | .atomize s | .booleanValue s
  | .predicateTruth _ s | .convert _ s => sourceItems s
  | _ => []

/-- The items in several sources. -/
def sourcesItems : List Source → List Item
  | [] => []
  | s :: rest => sourceItems s ++ sourcesItems rest

end

/-- The items in what a function of a host does. -/
def bodyItems : BodyOf Item → List Item
  | .const xs => xs
  | .expr e => exprItems e
  | _ => []

/-- A function spares buffers: its arguments are in other ones, and so are those of the functions it may
come to. -/
inductive Function.Spares (T : BufferId → Prop) : Function → Prop
  | builtin {identity name signature} (b : Builtin) : Spares T ⟨identity, name, signature, .builtin b⟩
  | hosted {identity name signature body}
      (h : ∀ x ∈ bodyItems body, ∀ f, Item.Holds x f → Spares T f) :
      Spares T ⟨identity, name, signature, .hosted body⟩
  | partially {identity name signature target bound} (ht : Spares T target)
      (hb : ∀ b, some b ∈ bound → ¬T b) : Spares T ⟨identity, name, signature, .partially target bound⟩
  | overloaded {identity name signature display candidates} (h : ∀ f ∈ candidates, Spares T f) :
      Spares T ⟨identity, name, signature, .overloaded display candidates⟩

section

variable (T : BufferId → Prop)

/-- An item spares buffers if the functions it holds do. -/
def Item.Spares (x : Item) : Prop := ∀ f, Item.Holds x f → f.Spares T

/-- Several items spare buffers. -/
def ItemsSpare (xs : List Item) : Prop := ∀ x ∈ xs, Item.Spares T x

mutual

/-- A scope spares buffers. -/
def Scope.Spares : Scope → Prop
  | .root _ => True
  | .focus outer item _ _ sequence => outer.Spares ∧ Item.Spares T item ∧ optionalReplaySpares sequence
  | .binding outer _ value => outer.Spares ∧ value.Spares

/-- A sequence that can be read again spares buffers. -/
def Replay.Spares : Replay → Prop
  | .items xs => ItemsSpare T xs
  | .buffered b => ¬T b
  | .evaluated e scope => ItemsSpare T (exprItems e) ∧ scope.Spares
  | .regenerated s scope => ItemsSpare T (sourceItems s) ∧ scope.Spares
  | .produced _ s _ => ItemsSpare T (sourceItems s)

/-- The sequence of a focus spares buffers. -/
def optionalReplaySpares : Option Replay → Prop
  | none => True
  | some r => r.Spares

end

/-! ### Cursors and streams -/

/-- A function of whole sequences spares buffers. -/
def Collector.Spares : Collector → Prop
  | .member members => ∀ m ∈ members, ItemsSpare T m
  | .entry entries => ∀ e ∈ entries.entries, ItemsSpare T e.2
  | _ => True

/-- The description of an inner sequence spares buffers. -/
def Expander.Spares : Expander → Prop
  | .host _ => True
  | .keep x => Item.Spares T x
  | .branch yes no scope => ItemsSpare T (exprItems yes) ∧ ItemsSpare T (exprItems no) ∧ scope.Spares T
  | .decide _ right scope => ItemsSpare T (exprItems right) ∧ scope.Spares T
  | .bindEach _ body scope => ItemsSpare T (exprItems body) ∧ scope.Spares T
  | .focusEach _ body scope _ sequence _ =>
    ItemsSpare T (exprItems body) ∧ scope.Spares T ∧ optionalReplaySpares T sequence

/-- The description of a combination spares buffers. -/
def Combiner.Spares : Combiner → Prop
  | .call arguments scope => ItemsSpare T (argumentsItems arguments) ∧ scope.Spares T
  | _ => True

/-- A call whose function is still to be chosen spares buffers. -/
def Dispatch.Spares (d : Dispatch) : Prop := (∀ f ∈ d.candidates, f.Spares T) ∧ d.scope.Spares T

mutual

/-- A cursor spares buffers. -/
def Cursor.Spares : Cursor → Prop
  | .items xs | .emit xs => ItemsSpare T xs
  | .script _ steps _ => ItemsSpare T (scriptItems steps)
  | .deferred _ arrived => ∀ xs, arrived = some xs → ItemsSpare T xs
  | .reader b _ => ¬T b
  | .map _ s | .filter _ s | .take _ s | .atomize _ s | .forward s | .truth _ _ s | .count _ s
  | .presence _ _ s | .spent s => StreamSpares s
  | .collect f seen s => f.Spares T ∧ ItemsSpare T seen ∧ StreamSpares s
  | .convert c s => ItemsSpare T c.pending ∧ StreamSpares s
  | .outer f s => f.Spares T ∧ StreamSpares s
  | .inner f s t => f.Spares T ∧ StreamSpares s ∧ StreamSpares t
  | .concat s rest => StreamSpares s ∧ StreamsSpare rest
  | .zip f before current found after _ => f.Spares T ∧ SlotsSpare before ∧ StreamSpares current ∧
    (∀ x, found = some x → Item.Spares T x) ∧ SlotsSpare after
  | .combine f found => f.Spares T ∧ ∀ x, some x ∈ found → Item.Spares T x
  | .gather d gathered seen current rest => d.Spares T ∧ (∀ xs ∈ gathered, ItemsSpare T xs) ∧
    ItemsSpare T seen ∧ StreamSpares current ∧ StreamsSpare rest
  | .dispatch d arguments => d.Spares T ∧ ∀ xs ∈ arguments, ItemsSpare T xs
  | .candidates .. | .descendants .. | .range .. => True

/-- A stream spares buffers. -/
def StreamSpares : StreamOf Item Cursor → Prop
  | ⟨ahead, status⟩ => ItemsSpare T ahead ∧ StatusSpares status

/-- The status of a stream spares buffers. -/
def StatusSpares : Status Cursor → Prop
  | .running c => c.Spares
  | .done | .failed _ => True

/-- Several streams spare buffers. -/
def StreamsSpare : List (StreamOf Item Cursor) → Prop
  | [] => True
  | s :: rest => StreamSpares s ∧ StreamsSpare rest

/-- Several slots spare buffers. -/
def SlotsSpare : List (Step.Slot Item (StreamOf Item Cursor)) → Prop
  | [] => True
  | t :: rest => SlotSpares t ∧ SlotsSpare rest

/-- A slot spares buffers. -/
def SlotSpares : Step.Slot Item (StreamOf Item Cursor) → Prop
  | ⟨s, found⟩ => StreamSpares s ∧ ∀ x, found = some x → Item.Spares T x

end

/-- A buffer spares others. -/
def Buffer.Spares (buffer : Buffer) : Prop :=
  ItemsSpare T buffer.items.toList ∧ ∀ s, buffer.source = some s → StreamSpares T s

/-- A world spares buffers: the other ones do, and so does what has arrived and what a host supplies. -/
structure World.Spares (w : World) : Prop where
  buffers : ∀ b buffer, ¬T b → w.buffers[b]? = some buffer → Buffer.Spares T buffer
  arrivals : ∀ d xs, w.arrivals.lookup d = some (.ok xs) → ItemsSpare T xs
  replays : ∀ name r, w.replays.lookup name = some r → r.Spares T

/-- A world that spares buffers in which certain things are held. -/
structure World.Guards (held : BufferId → Buffer) (w : World) : Prop extends World.Spares T w where
  held : ∀ b, T b → w.buffers[b]? = some (held b)

/-- The functions of a registry spare buffers. -/
def Registry.Spares (r : Registry) : Prop := ∀ name fs, r.overloads? name = some fs → ∀ f ∈ fs, f.Spares T

/-- What an engine does with things that spare buffers keeps that the world does, and gives such things. -/
structure Engine.Spares (held : BufferId → Buffer) (E : Engine) : Prop where
  call : ∀ f scope arguments, f.Spares T → scope.Spares T → (∀ s ∈ arguments, StreamSpares T s) →
    Keeps (World.Guards T held) (E.call f scope arguments) (IfOk (StreamSpares T))
  replay : ∀ r, r.Spares T → Keeps (World.Guards T held) (E.replay r) (StreamSpares T)
  step : ∀ s, StreamSpares T s → Keeps (World.Guards T held) (E.step s) fun r =>
    r.1.IfItem (Item.Spares T) ∧ StreamSpares T r.2

end

section

variable {T : BufferId → Prop} {held : BufferId → Buffer}

theorem ItemsSpare.nil : ItemsSpare T [] := fun _ h => absurd h List.not_mem_nil

theorem itemsSpare_cons {x : Item} {xs : List Item} :
    ItemsSpare T (x :: xs) ↔ Item.Spares T x ∧ ItemsSpare T xs := List.forall_mem_cons

/-- Sequences put behind one another spare buffers if and only if each does. -/
theorem itemsSpare_append {xs ys : List Item} :
    ItemsSpare T (xs ++ ys) ↔ ItemsSpare T xs ∧ ItemsSpare T ys := List.forall_mem_append

/-- A value refers to nothing. -/
theorem Item.spares_atomic (v : Atomic) : Item.Spares T (.atomic v) := by rintro f ⟨⟩

/-- Neither does a node: the forest is not part of the world. -/
theorem Item.spares_node (n : NodeId) : Item.Spares T (.node n) := by rintro f ⟨⟩

/-- A function as an item spares what it spares as a function. -/
theorem Item.spares_function {f : Function} : Item.Spares T (.function f) ↔ f.Spares T := by
  refine ⟨fun h => h f (.function f), fun h g hg => ?_⟩
  cases hg
  exact h

theorem itemsSpare_atomics (vs : List Atomic) : ItemsSpare T (vs.map .atomic) := by
  intro x hx
  obtain ⟨v, -, rfl⟩ := List.mem_map.mp hx
  exact Item.spares_atomic v

/-- A number that the focus supplies is a value. -/
theorem measured_spares (m : Measure) (n : Nat) : IfOk (Item.Spares T) (measured m n) := by
  unfold measured
  split
  · exact Item.spares_atomic _
  · trivial

/-- The recursion over streams, as a statement about members. -/
theorem streamsSpare_iff {ss : List Stream} : StreamsSpare T ss ↔ ∀ s ∈ ss, StreamSpares T s := by
  induction ss with
  | nil => exact ⟨fun _ _ h => absurd h List.not_mem_nil, fun _ => trivial⟩
  | cons s ss ih => exact (and_congr_right' ih).trans List.forall_mem_cons.symm

/-- The recursion over slots, as a property of rounds. -/
theorem slotsSpare_iff {ts : List (Step.Slot Item Stream)} :
    SlotsSpare T ts ↔ ∀ t ∈ ts, t.Every (Item.Spares T) (StreamSpares T) := by
  induction ts with
  | nil => exact ⟨fun _ _ h => absurd h List.not_mem_nil, fun _ => trivial⟩
  | cons t ts ih =>
    have ht : SlotSpares T t ↔ t.Every (Item.Spares T) (StreamSpares T) := by cases t; rfl
    exact (and_congr ht ih).trans List.forall_mem_cons.symm

/-! ### Streams that are made -/

namespace StreamSpares

variable {s : Stream} {ss : List Stream}

theorem run {c : Cursor} (h : c.Spares T) : StreamSpares T (.run c) := ⟨.nil, h⟩

theorem empty : StreamSpares T .empty := ⟨.nil, trivial⟩

theorem failed (e : Error) : StreamSpares T (.failed e) := ⟨.nil, trivial⟩

theorem one {x : Item} (h : Item.Spares T x) : StreamSpares T (.one x) :=
  ⟨itemsSpare_cons.mpr ⟨h, .nil⟩, trivial⟩

theorem atomic (v : Atomic) : StreamSpares T (.one (.atomic v)) := one (Item.spares_atomic v)

theorem ofList {xs : List Item} (h : ItemsSpare T xs) : StreamSpares T (Stream.ofList xs) := run h

theorem range (first last : Int) : StreamSpares T (Stream.range first last) := run trivial

theorem concat (h : ∀ s ∈ ss, StreamSpares T s) : StreamSpares T (Stream.concat ss) := by
  cases ss with
  | nil => exact ofList .nil
  | cons s ss =>
    obtain ⟨hs, hss⟩ := List.forall_mem_cons.mp h
    exact run ⟨hs, streamsSpare_iff.mpr hss⟩

theorem zip {f : Combiner} (hf : f.Spares T) (h : ∀ s ∈ ss, StreamSpares T s) :
    StreamSpares T (Stream.zip f ss) := by
  cases ss with
  | nil => exact run ⟨hf, fun _ h => absurd h List.not_mem_nil⟩
  | cons s ss =>
    obtain ⟨hs, hss⟩ := List.forall_mem_cons.mp h
    refine run ⟨hf, trivial, hs, (fun _ h => nomatch h), slotsSpare_iff.mpr fun t ht => ?_⟩
    obtain ⟨s', hs', rfl⟩ := List.mem_map.mp ht
    exact ⟨hss s' hs', fun _ h => nomatch h⟩

theorem zipPair {f : Combiner} {t : Stream} (hf : f.Spares T) (hs : StreamSpares T s)
    (ht : StreamSpares T t) : StreamSpares T (Stream.zip f [s, t]) :=
  zip hf (List.forall_mem_cons.mpr ⟨hs, List.forall_mem_singleton.mpr ht⟩)

theorem convert (type : SequenceType) (h : StreamSpares T s) : StreamSpares T (s.convert type) := by
  unfold Stream.convert
  split
  · exact h
  · exact run ⟨.nil, h⟩

theorem collect {f : Collector} (hf : f.Spares T) (h : StreamSpares T s) : StreamSpares T (s.collect f) :=
  run ⟨hf, .nil, h⟩

theorem flatMap {f : Expander} (hf : f.Spares T) (h : StreamSpares T s) : StreamSpares T (s.flatMap f) :=
  run ⟨hf, h⟩

/-- A failed attempt gives a stream that only fails, so nothing is asked of it. -/
theorem orFailed {r : Except Error Stream} (h : IfOk (StreamSpares T) r) :
    StreamSpares T (Stream.orFailed r) := by
  cases r with
  | ok s => exact h
  | error e => exact failed e

/-- A path step or a predicate refers to what its base, its body, its scope and its input refer to. -/
theorem forEachFocus {role : FocusRole} {base body : Expr} {scope : Scope}
    (hbase : ItemsSpare T (exprItems base)) (hbody : ItemsSpare T (exprItems body))
    (hscope : scope.Spares T) (h : StreamSpares T s) :
    StreamSpares T (forEachFocus role base body scope s) := by
  unfold LazyXPath.forEachFocus
  cases s.exactSize? with
  | error e => exact failed e
  | ok size =>
    refine flatMap ⟨hbody, hscope, ?_⟩ h
    split
    · exact ⟨hbase, hscope⟩
    · trivial

/-- The stream of a constant position is its input, cut twice. -/
theorem constantFilter (k : Nat) (h : StreamSpares T s) : StreamSpares T (constantFilter k s) :=
  run (run h)

end StreamSpares

/-! ### The world -/

/-- A buffer records the items and the rest of its source, and both come from a pull. -/
private theorem Buffer.Spares.record {buffer : Buffer} {o : Outcome Item} {s : Stream} (h : Buffer.Spares T buffer)
    (ho : o.IfItem (Item.Spares T)) (hs : StreamSpares T s) : Buffer.Spares T (buffer.record o s) := by
  have hsome : ∀ s', some s = some s' → StreamSpares T s' := fun s' h => Option.some.inj h ▸ hs
  cases o with
  | item x =>
    refine ⟨fun y hy => ?_, hsome⟩
    rw [BufferOf.record, Array.toList_push] at hy
    exact itemsSpare_append.mpr ⟨h.1, itemsSpare_cons.mpr ⟨ho, .nil⟩⟩ y hy
  | done | failed => exact ⟨h.1, fun _ h => nomatch h⟩
  | suspended | skip => exact ⟨h.1, hsome⟩

/-- What a reader finds is an item of the buffer, or the source it has to pull. -/
private theorem Buffer.Spares.peek {buffer : Buffer} (h : Buffer.Spares T buffer) (position : Nat) :
    match buffer.peek position with
    | .inl o => o.IfItem (Item.Spares T)
    | .inr s => StreamSpares T s := by
  obtain ⟨items, source, error⟩ := buffer
  unfold BufferOf.peek
  dsimp only
  cases hx : items[position]? with
  | some x => exact h.1 x (Array.mem_toList_iff.mpr (Array.mem_of_getElem? hx))
  | none =>
    cases error with
    | some e => trivial
    | none =>
      cases source with
      | none => trivial
      | some s => exact h.2 s rfl

namespace World

/-- Events are only logged. -/
theorem record_keeps (e : Event) : Keeps (World.Guards T held) (record e) fun _ => True :=
  fun _ hw => ⟨⟨⟨hw.buffers, hw.arrivals, hw.replays⟩, hw.held⟩, trivial⟩

/-- New identities do not touch the buffers. -/
theorem newIdentity_keeps : Keeps (World.Guards T held) newIdentity fun _ => True :=
  fun _ hw => ⟨⟨⟨hw.buffers, hw.arrivals, hw.replays⟩, hw.held⟩, trivial⟩

/-- The cache of operators is apart from the buffers. -/
theorem operate_keeps {α : Type} (f : OperatorCache → Except Error α × OperatorCache) :
    Keeps (World.Guards T held) (operate f) fun _ => True :=
  fun _ hw => ⟨⟨⟨hw.buffers, hw.arrivals, hw.replays⟩, hw.held⟩, trivial⟩

/-- What has arrived spares buffers, as the world does. -/
theorem arrival?_keeps (d : DeferredId) : Keeps (World.Guards T held) (arrival? d) fun r =>
    ∀ xs, r = some (.ok xs) → ItemsSpare T xs :=
  fun _ hw => ⟨hw, fun xs h => hw.arrivals d xs h⟩

/-- So does what a host supplies by a name. -/
theorem replay?_keeps (name : String) : Keeps (World.Guards T held) (replay? name) fun r =>
    ∀ replay, r = some replay → replay.Spares T :=
  fun _ hw => ⟨hw, fun r h => hw.replays name r h⟩

/-- A world with a new buffer, which may be one of those that are spared. -/
theorem Spares.newBuffer {w : World} {s : Stream} (hw : w.Spares T)
    (hs : ¬T w.buffers.size → StreamSpares T s) : World.Spares T (World.newBuffer s w).2 := by
  refine ⟨fun b buffer hT hb => ?_, hw.arrivals, hw.replays⟩
  change (w.buffers.push (.start s))[b]? = some buffer at hb
  rw [Array.getElem?_push] at hb
  split at hb
  · rename_i hsize
    cases hb
    exact ⟨.nil, fun s' h => Option.some.inj h ▸ hs (hsize ▸ hT)⟩
  · exact hw.buffers b buffer hT hb

/-- A new buffer is none of those that are held. -/
theorem newBuffer_keeps {s : Stream} (hs : StreamSpares T s) :
    Keeps (World.Guards T held) (newBuffer s) fun b => ¬T b := by
  intro w hw
  -- a buffer that is held exists, and this one does not yet
  have hnew : ¬T w.buffers.size := fun hT => by
    have h := hw.held _ hT
    rw [Array.getElem?_size] at h
    cases h
  refine ⟨⟨hw.toSpares.newBuffer fun _ => hs, fun b hT => ?_⟩, hnew⟩
  have hb := hw.held b hT
  have hlt : b < w.buffers.size := (Array.getElem?_eq_some_iff.mp hb).1
  exact (Array.getElem?_push_lt hlt).trans ((Array.getElem?_eq_getElem hlt).symm.trans hb)

/-- The buffers that are made for the arguments of a partial application are outside of the set. -/
private theorem newBuffers_keeps {ss : List (Option Stream)} (hs : ∀ s, some s ∈ ss → StreamSpares T s) :
    Keeps (World.Guards T held) (newBuffers ss) fun bs => ∀ b, some b ∈ bs → ¬T b := by
  induction ss with
  | nil => exact .of_pure fun _ h => absurd h List.not_mem_nil
  | cons s ss ih =>
    have ih := ih fun s h => hs s (.tail _ h)
    cases s with
    | none =>
      refine ih.bind fun bs hbs => .of_pure fun b h => ?_
      obtain _ | ⟨_, h⟩ := h
      exact hbs b h
    | some s =>
      refine (newBuffer_keeps (hs s (.head _))).bind fun b hb => ih.bind fun bs hbs => .of_pure ?_
      intro b' h
      obtain _ | ⟨_, h⟩ := h
      · exact hb
      · exact hbs b' h

/-- What is found in a buffer. -/
theorem peekBuffer_eq {w : World} {b : BufferId} {buffer : Buffer} (hw : w.buffers[b]? = some buffer)
    (position : Nat) : peekBuffer b position w = (buffer.peek position, w) := by
  simp only [peekBuffer, bind, StateT.bind, get, getThe, MonadStateOf.get, StateT.get, pure, hw]
  rfl

/-- A look at a buffer outside of the set gives an item that spares it, or a source that does. -/
theorem peekBuffer_keeps {b : BufferId} (hb : ¬T b) (position : Nat) :
    Keeps (World.Guards T held) (peekBuffer b position) fun r =>
      match r with
      | .inl o => o.IfItem (Item.Spares T)
      | .inr s => StreamSpares T s := by
  intro w hw
  cases hw' : w.buffers[b]? with
  | none =>
    have h : peekBuffer b position w = (.inl .done, w) := by
      simp only [peekBuffer, bind, StateT.bind, get, getThe, MonadStateOf.get, StateT.get, pure, hw']
      rfl
    rw [h]
    exact ⟨hw, trivial⟩
  | some buffer =>
    rw [peekBuffer_eq hw']
    exact ⟨hw, (hw.buffers b buffer hb hw').peek position⟩

/-- A world after a pull of the source of a buffer, which may be one of those that are spared. -/
theorem Spares.recordPull {w : World} {b : BufferId} {o : Outcome Item} {s : Stream} (hw : w.Spares T)
    (h : ¬T b → o.IfItem (Item.Spares T) ∧ StreamSpares T s) :
    World.Spares T (World.recordPull b o s w).2 := by
  refine ⟨fun c buffer hT hc => ?_, hw.arrivals, hw.replays⟩
  change (w.buffers.modify b (·.record o s))[c]? = some buffer at hc
  rw [Array.getElem?_modify] at hc
  split at hc
  · rename_i hbc
    obtain ⟨buffer', hb', rfl⟩ := Option.map_eq_some_iff.mp hc
    obtain ⟨ho, hs⟩ := h (hbc ▸ hT)
    exact (hw.buffers c buffer' hT hb').record ho hs
  · exact hw.buffers c buffer hT hc

/-- What is pulled from the source of a buffer outside of the set is recorded there, and the set is as it
was. -/
theorem recordPull_keeps {b : BufferId} (hb : ¬T b) {o : Outcome Item} {s : Stream}
    (ho : o.IfItem (Item.Spares T)) (hs : StreamSpares T s) :
    Keeps (World.Guards T held) (recordPull b o s) fun _ => True := by
  intro w hw
  refine ⟨⟨hw.toSpares.recordPull fun _ => ⟨ho, hs⟩, fun c hT => ?_⟩, trivial⟩
  have hne : b ≠ c := fun h => hb (h ▸ hT)
  change (w.buffers.modify b _)[c]? = _
  rw [Array.getElem?_modify, if_neg hne]
  exact hw.held c hT

end World

/-! ### Functions that are made -/

/-- A function under another name and with other parameters. -/
theorem Function.Spares.withSignature {f : Function} (h : f.Spares T) (identity : Nat) (name : Option Name)
    (signature : Signature) : Function.Spares T ⟨identity, name, signature, f.callable⟩ := by
  cases h with
  | builtin b => exact .builtin b
  | hosted h => exact .hosted h
  | partially ht hb => exact .partially ht hb
  | overloaded h => exact .overloaded h

/-- A function that gets a fixed arity is the same function otherwise. -/
private theorem Function.Spares.withArity {f : Function} (h : f.Spares T) (identity n : Nat) :
    IfOk (Function.Spares T) (f.withArity identity n) := by
  unfold Function.withArity
  split
  · exact h.withSignature identity f.name _
  · trivial

/-- So is a function that is taken for a number of arguments. -/
private theorem Function.Spares.forArguments {f : Function} (h : f.Spares T) (identity n : Nat) :
    IfOk (Function.Spares T) (f.forArguments identity n) := by
  unfold Function.forArguments
  split
  · exact h.withArity identity n
  · split
    · exact h
    · trivial

/-- A partial application refers to the function and to buffers that are new. -/
theorem Function.Spares.partiallyApply {f : Function} (h : f.Spares T) {arguments : List (Option Stream)}
    (ha : ∀ s, some s ∈ arguments → StreamSpares T s) :
    Keeps (World.Guards T held) (f.partiallyApply arguments) (IfOk (Function.Spares T)) := by
  refine World.newIdentity_keeps.bind fun identity _ => ?_
  have ht := h.forArguments identity arguments.length
  cases hf : f.forArguments identity arguments.length with
  | error e => exact .of_pure trivial
  | ok target =>
    rw [hf] at ht
    refine World.newIdentity_keeps.bind fun identity _ => ?_
    exact (World.newBuffers_keeps ha).bind fun bound hb => .of_pure (.partially ht hb)

/-- The arguments of a call that are filled in are readers of buffers outside of the set, or supplied ones.
-/
theorem Function.fillIn_spares {bound : List (Option BufferId)} {supplied : List Stream}
    (hb : ∀ b, some b ∈ bound → ¬T b) (hs : ∀ s ∈ supplied, StreamSpares T s) :
    ∀ s ∈ Function.fillIn bound supplied, StreamSpares T s := by
  fun_induction Function.fillIn bound supplied with
  | case1 => exact fun _ h => absurd h List.not_mem_nil
  | case2 b bound supplied ih =>
    exact List.forall_mem_cons.mpr ⟨.run (hb b (.head _)), ih (fun b h => hb b (.tail _ h)) hs⟩
  | case3 bound s supplied ih =>
    obtain ⟨hs, hss⟩ := List.forall_mem_cons.mp hs
    exact List.forall_mem_cons.mpr ⟨hs, ih (fun b h => hb b (.tail _ h)) hss⟩
  | case4 bound ih =>
    exact List.forall_mem_cons.mpr ⟨.empty, ih (fun b h => hb b (.tail _ h)) hs⟩

/-! ### Calls -/

namespace Registry

variable {r : Registry} (hr : r.Spares T)
include hr

/-- The functions that a name stands for are registered ones. -/
private theorem Spares.resolve (name : Name) (n : Nat) (space : Option String) :
    IfOk (fun fs => ∀ f ∈ fs, f.Spares T) (r.resolve name n space) := by
  have hfind : ∀ p, r.find? name n space = some p → ∀ f ∈ p.2, f.Spares T := by
    intro p hp
    unfold find? at hp
    split at hp
    · rename_i fs hfs
      cases hp
      exact hr name fs (Option.filter_eq_some_iff.mp hfs).1
    · obtain ⟨fs, hfs, rfl⟩ := Option.map_eq_some_iff.mp hp
      exact hr _ fs hfs
  unfold Registry.resolve
  split
  · trivial
  · rename_i found fs hp
    have hfs := hfind _ hp
    split
    · trivial
    · exact fun f hf => hfs f (List.mem_filter.mp hf).1

/-- A reference to a function is a registered one with the arity that is asked for. -/
theorem Spares.reference (identity : Nat) (name : Name) (n : Nat) (space : Option String) :
    IfOk (Function.Spares T) (r.reference identity name n space) := by
  refine (hr.resolve name n space).bind fun fs hfs => ?_
  dsimp only
  split
  · rename_i f
    have hf : f.Spares T := hfs f (.head _)
    split
    · exact hf.withArity identity n
    · exact hf
  · exact .overloaded hfs

end Registry

namespace Engine.Spares

variable {E : Engine} (hE : E.Spares T held) {scope : Scope} (hscope : scope.Spares T)
  {arguments : List Stream} (ha : ∀ s ∈ arguments, StreamSpares T s)
include hE hscope ha

/-- An invocation calls a built-in function in the engine, evaluates the body of a host, or fills in a
partial application. -/
theorem invoke {f : Function} (hf : f.Spares T) :
    Keeps (World.Guards T held) (E.invoke f scope arguments) (IfOk (StreamSpares T)) := by
  unfold Engine.invoke
  split
  · refine hE.call f scope _ hf hscope fun s hs => ?_
    obtain ⟨i, hi⟩ := List.mem_iff_getElem?.mp hs
    rw [Signature.convertArguments, List.getElem?_mapIdx, Option.map_eq_some_iff] at hi
    obtain ⟨s', hs', rfl⟩ := hi
    have hs' := ha s' (List.mem_of_getElem? hs')
    split
    · exact hs'.convert _
    · exact hs'
  · exact .of_pure trivial

/-- A call by overloads invokes one of them or waits for its arguments. -/
theorem invokeAny (name : Name) {fs : List Function} (hf : ∀ f ∈ fs, f.Spares T) :
    Keeps (World.Guards T held) (E.invokeAny name fs scope arguments) (IfOk (StreamSpares T)) := by
  unfold Engine.invokeAny
  split
  · exact .of_pure trivial
  · exact hE.invoke hscope ha (hf _ (.head _))
  · refine .of_pure ?_
    cases arguments with
    | nil => exact .run ⟨⟨hf, hscope⟩, fun _ h => absurd h List.not_mem_nil⟩
    | cons s rest =>
      obtain ⟨hs, hrest⟩ := List.forall_mem_cons.mp ha
      exact .run ⟨⟨hf, hscope⟩, fun _ h => absurd h List.not_mem_nil, .nil, hs, streamsSpare_iff.mpr hrest⟩

/-- A call by a name comes to the overloads that are registered for it. -/
theorem callNamed {registry : Registry} (hr : registry.Spares T) (name : Name) :
    Keeps (World.Guards T held) (E.callNamed registry name scope arguments) (IfOk (StreamSpares T)) := by
  have hfs := hr.resolve name arguments.length scope.settings.functionSpace
  unfold Engine.callNamed
  split
  · rename_i fs h
    rw [h] at hfs
    exact hE.invokeAny hscope ha name hfs
  · exact .of_pure trivial

/-- A dynamic call comes to the function it is given, to the members of an array or to the entries of a map.
-/
theorem callItem (forest : Forest) {x : Item} (hx : Item.Spares T x) :
    Keeps (World.Guards T held) (E.callItem forest x scope arguments) (IfOk (StreamSpares T)) := by
  unfold Engine.callItem
  split
  · exact hE.invoke hscope ha (Item.spares_function.mp hx)
  · rename_i members index
    refine .of_pure (.collect (fun m hm y hy f hf => hx f (.array hm hy hf)) (.convert _ (ha _ (.head _))))
  · rename_i identity entries key
    refine .of_pure (.collect (fun e he y hy f hf => hx f (.map he hy hf)) (.convert _ (ha _ (.head _))))
  · exact .of_pure trivial
  · exact .of_pure trivial
  · exact .of_pure trivial

end Engine.Spares

end

end LazyXPath
