import LazyXPath.Stream.Machine

/-!
# Reading streams

Steps without a report are repeated until there is one: `Engine.advance` gives the next item, the end, a
suspension or an error. On top of it, `Engine.read` reads a number of items, and `Engine.poll` offers a
stream to a consumer that waits for signals by itself and wants to see an error only once.

All loops have fuel; an outcome `skip` says that it was not enough.
-/

namespace LazyXPath

/-- How a reading ends. -/
inductive Ending where
  | done
  /-- As many items as were wanted have been read. -/
  | limit
  | suspended (d : DeferredId)
  | failed (e : Error)
  /-- The fuel is used up. -/
  | unfinished

namespace Engine

variable (E : Engine)

/-- The next report of a stream. -/
def advance (fuel : Nat) (s : Stream) : Action (Outcome Item × Stream) := untilReport E.step fuel s

/-- Reads up to `limit` items after those in `seen`, which are in reverse. -/
def readOnto (fuel : Nat) (seen : List Item) : Nat → Stream → Action ((List Item × Ending) × Stream)
  | 0, s => return ((seen.reverse, .limit), s)
  | limit + 1, s => do
    match ← E.advance fuel s with
    | (.item x, s) => readOnto fuel (x :: seen) limit s
    | (.done, s) => return ((seen.reverse, .done), s)
    | (.suspended d, s) => return ((seen.reverse, .suspended d), s)
    | (.failed e, s) => return ((seen.reverse, .failed e), s)
    | (.skip, s) => return ((seen.reverse, .unfinished), s)

/-- Reads up to `limit` items. -/
def read (fuel limit : Nat) (s : Stream) : Action ((List Item × Ending) × Stream) :=
  E.readOnto fuel [] limit s

end Engine

/-! ### Cardinality -/

/-- The cardinality of a stream: from its hint if this is exact, and otherwise by looking ahead. -/
def cardinality (env : Environment) (E : Engine) (fuel : Nat) (s : Stream) :
    Action (Outcome Cardinality × Stream) :=
  StreamOf.cardinality Cursor.hint (Cursor.step env E) fuel s

/-! ### Polling -/

/-- A signal that a value has arrived. Whether it has fired is known only after a poll. -/
structure Signal where
  fired : Bool
  polled : Bool := false

namespace Signal

/-- Whether the signal is known to have fired. -/
def isReady (s : Signal) : Bool := s.fired && s.polled

/-- Polls the signal. -/
def poll (s : Signal) : Bool × Signal := (s.fired, { s with polled := true })

end Signal

/-- A stream that is polled: the value it waits for, and whether its error has been shown. -/
structure Polled where
  stream : Stream
  waiting : Option DeferredId := none
  errorShown : Bool := false

/-- What a poll shows. -/
inductive PollOutcome where
  | next (r : Except Error Item)
  | ended
  | pending
  /-- The fuel is used up. -/
  | unfinished

namespace Engine

/-- Polls a stream that waits for nothing. -/
def pollReady (E : Engine) (fuel : Nat) (p : Polled) : Action (PollOutcome × Polled) := do
  match ← E.advance fuel p.stream with
  | (.item x, stream) => return (.next (.ok x), { p with stream })
  | (.done, stream) => return (.ended, { p with stream })
  | (.suspended d, stream) => return (.pending, { p with stream, waiting := some d })
  | (.failed e, stream) =>
    if p.errorShown then return (.ended, { p with stream })
    else return (.next (.error e), { p with stream, errorShown := true })
  | (.skip, stream) => return (.unfinished, { p with stream })

/-- Polls a stream. -/
def poll (E : Engine) (fuel : Nat) (p : Polled) : Action (PollOutcome × Polled) := do
  match p.waiting with
  | none => E.pollReady fuel p
  | some d =>
    match ← World.arrival? d with
    | none => return (.pending, p)
    | some _ => E.pollReady fuel { p with waiting := none }

/-- Polls a stream to its end, and gives all that is shown. -/
def pollAll (E : Engine) (fuel : Nat) (seen : List (Except Error Item)) :
    Nat → Polled → Action (List (Except Error Item))
  | 0, _ => return seen.reverse
  | limit + 1, p => do
    match ← E.poll fuel p with
    | (.next r, p) => pollAll E fuel (r :: seen) limit p
    | _ => return seen.reverse

end Engine

/-- The depth of the engine that reads. -/
def readingDepth : Nat := 3000

/-- The fuel of a reading. -/
def readingFuel : Nat := 1000000000

namespace Environment

/-- The engine that reads. -/
def engine (env : Environment) : Engine := .ofDepth env readingDepth

/-- Reads up to `limit` items of a stream. -/
def read (env : Environment) (limit : Nat) (s : Stream) : Action (List Item × Ending) := do
  return (← env.engine.read readingFuel limit s).1

/-- Evaluates an expression in a scope, and reads up to `limit` items of its value. -/
def evaluateAndRead (env : Environment) (scope : Scope) (limit : Nat) (e : Expr) :
    Action (List Item × Ending) := do
  env.read limit (← evaluate env env.engine scope e)

end Environment

end LazyXPath
