import LazyXPath.Operator.Cache
import LazyXPath.Function.Registry
import LazyXPath.Stream.Basic

/-!
# The world of an evaluation

Pulling a stream may change its **world**: values arrive, shared buffers fill, operators are resolved
once and kept, and events are recorded. Failures are values and leave the world as it is at that
moment, so that everything recorded before them stays.
-/

namespace LazyXPath

/-- The kinds of callbacks of a host. -/
inductive CallbackRole where
  | map
  | mapAll
  | filter
  | flatMap
  | zip
  | zipOptional
deriving DecidableEq

/-- The spelling of a kind of callbacks. -/
def CallbackRole.display : CallbackRole → String
  | map => "map"
  | mapAll => "map_all"
  | filter => "filter"
  | flatMap => "flat_map"
  | zip => "zip"
  | zipOptional => "zip_opt"

/-- What is recorded. -/
inductive Event where
  | pull (label : String)
  | host (label : String)
  | produce (name : Name)
  | regenerate
  | call (name : Name)
  /-- The call of a callback with the given number. -/
  | callback (role : CallbackRole) (number : Nat)
deriving DecidableEq

/-- The spelling of an event. -/
def Event.display : Event → String
  | pull label => "pull " ++ label
  | host label => "host " ++ label
  | produce x => "produce " ++ x.display
  | regenerate => "regenerate"
  | call f => "call " ++ f.display
  | callback role n => role.display ++ " " ++ toString n

/-- The world of an evaluation. -/
structure World where
  /-- The values that have arrived. -/
  arrivals : List (DeferredId × Except Error (List Item)) := []
  buffers : Array Buffer := #[]
  /-- Sequences of a host that can be read repeatedly, the latest first. -/
  replays : List (String × Replay) := []
  operators : OperatorCache := .empty
  /-- What has been recorded, the latest first. -/
  events : List Event := []
  /-- The identity of the next function. -/
  nextIdentity : Nat := 0

/-- Actions in the world. -/
abbrev Action := StateM World

/-- What does not change during an evaluation: the nodes and the functions. -/
structure Environment where
  forest : Forest
  registry : Registry

namespace World

/-- Records an event. -/
def record (e : Event) : Action Unit := modify fun w => { w with events := e :: w.events }

/-- What has been recorded, in order; it is forgotten afterwards. -/
def takeEvents (w : World) : List Event × World := (w.events.reverse, { w with events := [] })

/-- The value with a name, if it has arrived. -/
def arrival? (d : DeferredId) : Action (Option (Except Error (List Item))) := do
  return (← get).arrivals.lookup d

/-- A new buffer. -/
def newBuffer (s : Stream) : Action BufferId :=
  modifyGet fun w => (w.buffers.size, { w with buffers := w.buffers.push (.start s) })

/-- New buffers for the streams that are there. -/
def newBuffers : List (Option Stream) → Action (List (Option BufferId))
  | [] => return []
  | none :: rest => return none :: (← newBuffers rest)
  | some s :: rest => do
    let b ← newBuffer s
    return some b :: (← newBuffers rest)

/-- What a reader of a buffer finds at a position, or else the source of the buffer. -/
def peekBuffer (b : BufferId) (position : Nat) : Action (Outcome Item ⊕ Stream) := do
  match (← get).buffers[b]? with
  | some buffer => return buffer.peek position
  | none => return .inl .done

/-- Keeps in a buffer what a pull of its source has given. -/
def recordPull (b : BufferId) (o : Outcome Item) (s : Stream) : Action Unit :=
  modify fun w => { w with buffers := w.buffers.modify b (·.record o s) }

/-- A new identity. -/
def newIdentity : Action Nat :=
  modifyGet fun w => (w.nextIdentity, { w with nextIdentity := w.nextIdentity + 1 })

/-- Applies an operator of the cache. -/
def operate {α : Type} (f : OperatorCache → Except Error α × OperatorCache) :
    Action (Except Error α) :=
  modifyGet fun w =>
    let (r, operators) := f w.operators
    (r, { w with operators })

/-- The reading of a sequence of a host that can be read repeatedly. -/
def replay? (name : String) : Action (Option Replay) := do
  return (← get).replays.lookup name

end World

end LazyXPath
