import LazyXPath.Stream.Effect

/-!
# Pulling streams

`Cursor.step` is one step of a cursor and `Stream.step` one pull of a stream, each in an engine. A step
pulls the streams it reads at most once, so that it is structural in the cursor. What is not below the
cursor, namely the source of a shared buffer, a function that is called or a sequence that is read
again, is left to the engine.

`Engine.ofDepth` ties the knot: an engine of some depth leaves all this to the engine below it, and the
engine of depth zero refuses.
-/

namespace LazyXPath

/-- The items of a script from its next step on. -/
def runScript : List (ScriptStep Item) → Action (Outcome Item × List (ScriptStep Item))
  | [] => return (.done, [])
  | .item x :: rest => return (.item x, rest)
  | .await d :: rest => do
    match ← World.arrival? d with
    | some _ => runScript rest
    | none => return (.suspended d, .await d :: rest)
  | .fail e :: rest => return (.failed e, .fail e :: rest)
  | .done :: rest => return (.done, rest)

/-- A step of a script, which is recorded. -/
def scriptStep (label : String) (steps : List (ScriptStep Item)) (claimed : Option Nat) :
    Action (Outcome Item × Cursor) := do
  World.record (.pull label)
  let (o, rest) ← runScript steps
  let claimed := match o with
    | .item _ => claimed.map (· - 1)
    | _ => claimed
  return (o, .script label rest claimed)

/-- A step through the nodes of a list. -/
def candidatesStep (forest : Forest) (principal : NodeKind) (test : NodeTest) (nodes : List NodeId) :
    Outcome Item × Cursor :=
  match nodes.dropWhile fun n => !test.accepts forest principal n with
  | [] => (.done, .candidates [] principal test)
  | n :: rest => (.item (.node n), .candidates rest principal test)

/-- A step through the nodes on a stack and below them. -/
def descendantsStep (forest : Forest) (principal : NodeKind) (test : NodeTest)
    (stack : List NodeId) : Outcome Item × Cursor :=
  match stack with
  | [] => (.done, .descendants [] principal test)
  | n :: rest =>
    let next := .descendants ((forest.node n).children ++ rest) principal test
    if test.accepts forest principal n then (.item (.node n), next) else (.skip, next)

/-- A step of a value that arrives later. -/
def deferredStep (d : DeferredId) (arrived : Option (List Item)) : Action (Outcome Item × Cursor) := do
  match arrived with
  | some xs =>
    let (o, rest) := Step.emit xs
    return (o, .deferred d (some rest))
  | none =>
    match ← World.arrival? d with
    | none => return (.suspended d, .deferred d none)
    | some (.error e) => return (.failed e, .deferred d none)
    | some (.ok xs) => return (.skip, .deferred d (some xs))

/-- A step through a range. -/
def rangeStep (next last : Int) : Outcome Item × Cursor :=
  if next ≤ last then (.item (.ofInt next), .range (next + 1) last) else (.done, .range next last)

/-- A step of a reader of a shared buffer. -/
def readerStep (E : Engine) (b : BufferId) (position : Nat) : Action (Outcome Item × Cursor) := do
  match ← World.peekBuffer b position with
  | .inl o => return (o, .reader b (BufferOf.positionAfter position o))
  | .inr source =>
    let (o, source) ← E.step source
    World.recordPull b o source
    return (o, .reader b (BufferOf.positionAfter position o))

/-- The outcome of an attempt to get a stream, which is forwarded from then on. -/
def forwarding (c : Cursor) : Except Error Stream → Outcome Item × Cursor
  | .ok s => (.skip, .forward s)
  | .error e => (.failed e, c)

/-- The call that complete arguments lead to. -/
def dispatchStep (forest : Forest) (E : Engine) (d : Dispatch) (arguments : List (List Item)) :
    Action (Outcome Item × Cursor) := do
  let stay := Cursor.dispatch d arguments
  match d.select forest arguments with
  | .error e => return (.failed e, stay)
  | .ok (f, converted) => return forwarding stay (← E.call f d.scope (converted.map .ofList))

/-- The outcome of a look ahead for a sequence that ought to be empty, or ought not to be. -/
def presenceOutcome (wantsEmpty : Bool) (r : Outcome Cardinality × Stream) : Outcome Item × Cursor :=
  match r.1 with
  | .item c => (.item (.ofBool ((c = .empty) = wantsEmpty)), .spent r.2)
  | .skip => (.skip, .presence wantsEmpty true r.2)
  | o => (o.pass, .presence wantsEmpty false r.2)

section

variable (env : Environment) (E : Engine)

mutual

/-- A step of a cursor. -/
def Cursor.step (c : Cursor) : Action (Outcome Item × Cursor) :=
  match c with
  | .items xs =>
    let (o, rest) := Step.emit xs
    return (o, .items rest)
  | .candidates nodes principal test => return candidatesStep env.forest principal test nodes
  | .descendants stack principal test => return descendantsStep env.forest principal test stack
  | .script label steps claimed => scriptStep label steps claimed
  | .deferred d arrived => deferredStep d arrived
  | .range next last => return rangeStep next last
  | .reader b position => readerStep E b position
  | .map f input => do
    let (o, f, input) ← Step.map (Mapper.apply env.forest) f (streamStep input)
    return (o, .map f input)
  | .filter f input => do
    let (o, f, input) ← Step.filter (Selector.apply env.forest) f (streamStep input)
    return (o, .filter f input)
  | .collect f seen input => do
    match ← Step.collect (f.apply env.forest) seen (streamStep input) with
    | (o, .inl (seen, input)) => return (o, .collect f seen input)
    | (o, .inr xs) => return (o, .emit xs)
  | .emit xs =>
    let (o, rest) := Step.emit xs
    return (o, .emit rest)
  | .outer f input => do
    match ← Step.outer (Expander.apply env E) f (streamStep input) with
    | (o, f, input, none) => return (o, .outer f input)
    | (o, f, input, some current) => return (o, .inner f input current)
  | .inner f input current => do
    match ← Step.inner (streamStep current) with
    | (o, none) => return (o, .outer f input)
    | (o, some current) => return (o, .inner f input current)
  | .concat first rest => do
    let (o, first, rest) ← Step.concat rest (streamStep first)
    return (o, .concat first rest)
  | .take n input => do
    let (o, n, input) ← Step.take n input (streamStep input)
    return (o, .take n input)
  | .atomize pending input => do
    let (o, pending, input) ← Step.expand (Item.atomize env.forest) pending input (streamStep input)
    return (o.map .atomic, .atomize pending input)
  | .zip f before current found after waiting => do
    match ← Step.zip ⟨before, ⟨current, found⟩, after, waiting⟩ (streamStep current) with
    | (o, .inl r) =>
      return (o, .zip f r.before r.current.input r.current.item r.after r.waiting)
    | (o, .inr found) => return (o, .combine f found)
  | .combine f found => return forwarding (.combine f found) (← f.apply env E found)
  | .forward input => do
    let (o, input) ← streamStep input
    return (o, .forward input)
  | .truth position first input => do
    match ← Step.truth env.forest position first (streamStep input) with
    | (o, .inl (first, input)) => return (o, .truth position first input)
    | (o, .inr input) => return (o, .spent input)
  | .convert c input => do
    let (o, c, input) ← c.step env.forest input (streamStep input)
    return (o, .convert c input)
  | .gather d gathered seen current rest => do
    match ← Step.gather ⟨gathered, seen, current, rest⟩ (streamStep current) with
    | (o, .inl g) => return (o, .gather d g.gathered g.seen g.current g.rest)
    | (o, .inr arguments) => return (o, .dispatch d arguments)
  | .dispatch d arguments => dispatchStep env.forest E d arguments
  | .count seen input => do
    match ← Step.count (measured .count) seen (streamStep input) with
    | (o, seen, some input) => return (o, .count seen input)
    | (o, _, none) => return (o, .emit [])
  | .presence wantsEmpty begun input => do
    match begun, Cardinality.told? (streamHint input) with
    | false, some o => return presenceOutcome wantsEmpty (o, input)
    | _, _ => return presenceOutcome wantsEmpty (← streamLook input)
  | .spent input => return (.done, .spent input)

/-- A pull of a stream. -/
def streamStep (s : StreamOf Item Cursor) : Action (Outcome Item × Stream) :=
  match s with
  | ⟨x :: xs, status⟩ => return (.item x, ⟨xs, status⟩)
  | ⟨[], status⟩ => statusStep status

/-- A pull of a stream that has no items ahead. -/
def statusStep (status : Status Cursor) : Action (Outcome Item × Stream) :=
  match status with
  | .done => return (.done, .empty)
  | .failed e => return (.failed e, .failed e)
  | .running c => do return StreamOf.settle (← c.step)

/-- A look ahead in a stream. -/
def streamLook (s : StreamOf Item Cursor) : Action (Outcome Cardinality × Stream) :=
  match s with
  | ⟨ahead, status⟩ => statusLook ahead status

/-- A look ahead in a stream with some items ahead. -/
def statusLook (ahead : List Item) (status : Status Cursor) :
    Action (Outcome Cardinality × Stream) :=
  if 2 ≤ ahead.length then return (.item .many, ⟨ahead, status⟩)
  else
    match status with
    | .done => return (.item (.ofCount ahead.length), ⟨ahead, .done⟩)
    | .failed e => return (.failed e, ⟨ahead, .failed e⟩)
    | .running c => do return StreamOf.keep ahead (← c.step)

end

theorem streamStep_eq_pull (s : Stream) :
    streamStep env E s = StreamOf.pull (Cursor.step env E) s := by
  obtain ⟨ahead, status⟩ := s
  cases ahead with
  | nil => cases status <;> rfl
  | cons x xs => rfl

theorem streamLook_eq_look (s : Stream) :
    streamLook env E s = StreamOf.look (Cursor.step env E) s := by
  obtain ⟨ahead, status⟩ := s
  cases status <;> rfl

end

/-- The engine of a depth. -/
def Engine.ofDepth (env : Environment) : Nat → Engine
  | 0 => {
      call := fun _ _ _ => return .error .tooDeep
      replay := fun _ => return .failed .tooDeep
      step := fun s => return (.failed .tooDeep, s) }
  | depth + 1 => {
      call := fun f scope arguments => callFunction env (ofDepth env depth) f scope arguments
      replay := fun r => evaluateReplay env (ofDepth env depth) r
      step := fun s => streamStep env (ofDepth env depth) s }

end LazyXPath
