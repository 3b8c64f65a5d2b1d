import LazyXPath.Stream.Reading
import LazyXPath.Stream.Reference

/-!
# Sessions

A **session** is what a host sees of an evaluation: streams with names that are read step by step,
values that arrive or are given up, and sequences that can be read repeatedly. `Session.perform` carries
out a command and gives the answer; what was recorded meanwhile is taken from the world by
`Session.takeEvents`.

Each value that arrives later has a *resolver*, which delivers it once, and a *handle*. When a stream is
to be read to its end, the resolvers of all values that have not arrived are given up first, so that
nothing is waited for.
-/

namespace LazyXPath

/-- What a host still holds of a value that arrives later. -/
structure Promise where
  name : DeferredId
  hasResolver : Bool := true
  hasHandle : Bool := true

/-- A session. -/
structure Session where
  world : World
  streams : List (String × Polled) := []
  promises : List Promise := []
  /-- The value that the latest suspension was about. -/
  signal : Option DeferredId := none

/-- What a host can do. -/
inductive Command where
  | create (name : String) (source : Source)
  | advance (name : String)
  | pull (name : String) (limit : Nat)
  | hint (name : String)
  | cardinality (name : String)
  | poll (name : String)
  /-- All items, or the error. -/
  | materialize (name : String)
  /-- All items, and the error after them. -/
  | iterate (name : String)
  /-- All that polling shows. -/
  | collect (name : String)
  | discard (name : String)
  | resolve (d : DeferredId) (value : Except Error (List Item))
  | giveUp (d : DeferredId)
  | forget (d : DeferredId)
  | peek (d : DeferredId)
  | signal
  | setItems (name : String) (xs : List Item)
  | setBuffered (name : String) (source : Source)
  | setRegenerated (name : String) (source : Source)
  | knownSize (name : String)

/-- What a host is told. -/
inductive Answer where
  | ok
  /-- There is no stream of this name. -/
  | absent
  | failed (e : Error)
  | item (x : Item)
  | done
  | suspended
  | reading (items : List Item) (ending : Ending)
  | hint (h : SizeHint)
  | cardinality (c : Cardinality)
  | next (r : Except Error Item)
  | ended
  | pending
  | items (xs : List Item)
  | results (rs : List (Except Error Item))
  | noResolver
  /-- Nobody is waiting for the value. -/
  | returned
  | noHandle
  | nothing
  | noSignal
  | signal (s : Signal)
  | size (n : Option Nat)
  /-- The fuel is used up. -/
  | unfinished

namespace Session

variable (env : Environment) (scope : Scope)

/-- Does something in the world of a session. -/
def act {α : Type} (a : Action α) (s : Session) : α × Session :=
  let (r, world) := a.run s.world
  (r, { s with world })

/-- The events recorded since the last time, in order. -/
def takeEvents (s : Session) : List Event × Session :=
  let (events, world) := s.world.takeEvents
  (events, { s with world })

/-! ### Streams -/

/-- The stream with a name. -/
def stream? (s : Session) (name : String) : Option Polled := s.streams.lookup name

/-- Gives a stream a name. -/
def setStream (s : Session) (name : String) (p : Polled) : Session :=
  { s with streams := (name, p) :: s.streams.filter (·.1 != name) }

/-- Drops the stream with a name. -/
def dropStream (s : Session) (name : String) : Session :=
  { s with streams := s.streams.filter (·.1 != name) }

/-- Notes a suspension. -/
def noteSignal {α : Type} (s : Session) : Outcome α → Session
  | .suspended d => { s with signal := some d }
  | _ => s

/-- The answer to an outcome. -/
def answerOf {α : Type} (found : α → Answer) : Outcome α → Answer
  | .item x => found x
  | .done => .done
  | .suspended _ => .suspended
  | .failed e => .failed e
  | .skip => .unfinished

/-- Reads a stream that has a name. -/
def withStream (s : Session) (name : String) (f : Polled → Session → Answer × Session) :
    Answer × Session :=
  match s.stream? name with
  | some p => f p s
  | none => (.absent, s)

/-- Gives up the resolvers of all values that have not arrived. -/
def giveUpAll (s : Session) : Session :=
  let unresolved := (s.promises.filter (·.hasResolver)).map (·.name)
  { s with
    world := { s.world with
      arrivals := s.world.arrivals ++ unresolved.map (·, .error .hostValueDropped) }
    promises := s.promises.map ({ · with hasResolver := false }) }

/-- Reads a stream that has a name to its end; afterwards it is gone. -/
def consume (s : Session) (name : String) (f : Polled → Action Answer) : Answer × Session :=
  s.withStream name fun p s => ((s.dropStream name).giveUpAll).act (f p)

/-- All items of a reading, or its error. -/
def itemsOrError : List Item × Ending → Answer
  | (xs, .done) => .items xs
  | (_, .failed e) => .failed e
  | _ => .unfinished

/-- All items of a reading, and its error after them. -/
def itemsAndError : List Item × Ending → Answer
  | (xs, .done) => .results (xs.map .ok)
  | (xs, .failed e) => .results (xs.map .ok ++ [.error e])
  | _ => .unfinished

/-! ### Values that arrive later -/

/-- Changes what a host holds of a value. -/
def updatePromise (s : Session) (d : DeferredId) (f : Promise → Promise) : Session :=
  { s with promises := s.promises.map fun p => if p.name = d then f p else p }

/-- What a host holds of a value. -/
def promise? (s : Session) (d : DeferredId) : Option Promise := s.promises.find? (·.name = d)

/-- Lets a value arrive. -/
def arrive (s : Session) (d : DeferredId) (value : Except Error (List Item)) : Session :=
  { s with world := { s.world with arrivals := s.world.arrivals ++ [(d, value)] } }

/-- What the session refers to besides its handles: by its streams, its sequences that can be read
repeatedly, and the latest signal. -/
def references (s : Session) : List Reference :=
  let signals := s.signal.toList ++ s.streams.filterMap (·.2.waiting)
  signals.map .value ++ s.streams.flatMap (streamReferences ·.2.stream) ++
    s.world.replays.flatMap (·.2.references)

/-- Whether anybody can still see a value when it arrives. -/
def isAwaited (s : Session) (d : DeferredId) : Bool :=
  ((s.promise? d).any (·.hasHandle)) || s.world.canSee d s.references

/-- The value that a handle shows, if there is still a handle and the value has arrived. -/
def arrivalOf? (s : Session) (d : DeferredId) : Option (Except Error (List Item)) :=
  if (s.promise? d).any (·.hasHandle) then s.world.arrivals.lookup d else none

/-- Uses up a resolver. -/
def useResolver (s : Session) (d : DeferredId) (f : Session → Answer × Session) :
    Answer × Session :=
  match s.promise? d with
  | some ⟨_, true, _⟩ => f (s.updatePromise d ({ · with hasResolver := false }))
  | _ => (.noResolver, s)

/-! ### Commands -/

/-- Makes a sequence of a host readable under a name. -/
def setReplay (s : Session) (name : String) (r : Replay) : Session :=
  { s with world := { s.world with
      replays := (name, r) :: s.world.replays.filter (·.1 != name) } }

/-- The number of items of a sequence that can be read repeatedly, if it is known. -/
def knownSize (s : Session) (name : String) : Option Nat := do
  match ← s.world.replays.lookup name with
  | .items xs => some xs.length
  | .buffered b => (← s.world.buffers[b]?).knownSize
  | _ => none

/-- Carries out a command. -/
def perform (s : Session) : Command → Answer × Session
  | .create name source =>
    match s.act (build env env.engine scope source) with
    | (.ok stream, s) => (.ok, s.setStream name { stream })
    | (.error e, s) => (.failed e, s.dropStream name)
  | .advance name => s.withStream name fun p s =>
    let ((o, stream), s) := s.act (env.engine.advance readingFuel p.stream)
    (answerOf .item o, (s.setStream name { p with stream }).noteSignal o)
  | .pull name limit => s.withStream name fun p s =>
    let (((xs, ending), stream), s) := s.act (env.engine.read readingFuel limit p.stream)
    (.reading xs ending, s.setStream name { p with stream })
  | .hint name => s.withStream name fun p s =>
    match p.stream.hint with
    | .ok h => (.hint h, s)
    | .error e => (.failed e, s)
  | .cardinality name => s.withStream name fun p s =>
    let ((o, stream), s) := s.act (cardinality env env.engine readingFuel p.stream)
    (answerOf .cardinality o, (s.setStream name { p with stream }).noteSignal o)
  | .poll name => s.withStream name fun p s =>
    let ((o, p), s) := s.act (env.engine.poll readingFuel p)
    let answer : Answer := match o with
      | .next r => .next r
      | .ended => .ended
      | .pending => .pending
      | .unfinished => .unfinished
    (answer, s.setStream name p)
  | .materialize name => s.consume name fun p => do
    -- room for the items is made in advance, as much as the bounds ask for
    match p.stream.hint with
    | .ok _ => return itemsOrError (← env.engine.read readingFuel readingFuel p.stream).1
    | .error e => return .failed e
  | .iterate name => s.consume name fun p => do
    return itemsAndError (← env.engine.read readingFuel readingFuel p.stream).1
  | .collect name => s.consume name fun p => do
    return .results (← env.engine.pollAll readingFuel [] readingFuel p)
  | .discard name => s.withStream name fun _ s => (.ok, s.dropStream name)
  | .resolve d value => s.useResolver d fun s =>
    if s.isAwaited d then (.ok, s.arrive d value) else (.returned, s)
  | .giveUp d => s.useResolver d fun s => (.ok, s.arrive d (.error .hostValueDropped))
  | .forget d =>
    match s.promise? d with
    | some ⟨_, _, true⟩ => (.ok, s.updatePromise d ({ · with hasHandle := false }))
    | _ => (.noHandle, s)
  | .peek d =>
    match s.arrivalOf? d with
    | none => (.nothing, s)
    | some (.ok xs) => (.items xs, s)
    | some (.error e) => (.failed e, s)
  | .signal =>
    match s.signal with
    | none => (.noSignal, s)
    | some d => (.signal { fired := (s.world.arrivals.lookup d).isSome }, s)
  | .setItems name xs => (.ok, s.setReplay name (.items xs))
  | .setBuffered name source =>
    match s.act (build env env.engine scope source) with
    | (.ok stream, s) =>
      let (b, s) := s.act (World.newBuffer stream)
      (.ok, s.setReplay name (.buffered b))
    | (.error e, s) => (.failed e, s)
  | .setRegenerated name source => (.ok, s.setReplay name (.regenerated source scope))
  | .knownSize name => (.size (s.knownSize name), s)

end Session

end LazyXPath
