import LazyXPath.Error
import LazyXPath.Power

/-!
# Sequences that are pulled

A sequence is produced by a **cursor**, a state with a step function. A step has an **outcome**: the
next item, the end, an error, a value that has to arrive first (`suspended`), or progress without an
item (`skip`). The state after a suspension is one from which the step can be tried again.

A **stream** wraps a cursor. It remembers the end and the first error for good (`StreamOf.pull`), so
that the cursor is never asked again after either, and it can look ahead by at most two items
(`StreamOf.look`) in order to tell an empty sequence, a single item and a longer sequence apart. Steps
without a report are repeated until there is one (`StreamOf.advance`, `StreamOf.cardinality`).
-/

namespace LazyXPath

/-- The name of a value that arrives later. -/
abbrev DeferredId := String

/-- What a step yields. -/
inductive Outcome (α : Type) where
  | item (x : α)
  | done
  /-- The value has to arrive first. -/
  | suspended (d : DeferredId)
  | failed (e : Error)
  /-- Something has been done, but nothing has been found yet. -/
  | skip

namespace Outcome

variable {α β : Type}

/-- An outcome other than an item, as an outcome for other items. -/
def pass : Outcome α → Outcome β
  | item _ => skip
  | done => done
  | suspended d => suspended d
  | failed e => failed e
  | skip => skip

/-- The outcome after a function of the item. -/
def map (f : α → β) : Outcome α → Outcome β
  | item x => item (f x)
  | o => o.pass

end Outcome

/-! ### Size hints -/

/-- Bounds of the number of items still to come: at least `lower`, and at most `upper` if there is such
a bound. Bounds are 64-bit numbers. Nothing keeps the lower one below the upper one. -/
structure SizeHint where
  lower : Nat
  upper : Option Nat
deriving DecidableEq

namespace SizeHint

/-- The greatest bound. -/
def limit : Nat := twoTo 64 - 1

/-- Nothing is known. -/
def unknown : SizeHint := ⟨0, none⟩

/-- Exactly so many items. -/
def exactly (n : Nat) : SizeHint := ⟨n, some n⟩

/-- At most so many items, if the bound is there. -/
def upTo (bound : Option Nat) : SizeHint := ⟨0, bound⟩

/-- The number of items, if the bounds determine it. -/
def size? (h : SizeHint) : Option Nat := if h.upper = some h.lower then some h.lower else none

/-- The sum of two upper bounds, if it is a bound. -/
def addUpper : Option Nat → Option Nat → Option Nat
  | some a, some b => if a + b ≤ limit then some (a + b) else none
  | _, _ => none

/-- An upper bound when `n` more items wait. The sum is neither cut off nor dropped when it is too large,
and the process breaks down instead. -/
def plus (n u : Nat) : Except Error Nat :=
  if n = 0 ∨ u + n ≤ limit then .ok (u + n) else .error .sumOverflow

/-- Bounds for one sequence after another. A lower bound that is too large is cut off, and an upper
bound that is too large is dropped. -/
def append (a b : SizeHint) : SizeHint := ⟨min (a.lower + b.lower) limit, addUpper a.upper b.upper⟩

/-- Bounds for the first `n` items. -/
def take (n : Nat) (h : SizeHint) : SizeHint := ⟨min h.lower n, some (min (h.upper.getD n) n)⟩

end SizeHint

/-! ### Streams -/

/-- What a stream still has to offer besides the items it has looked ahead. -/
inductive Status (κ : Type) where
  | running (c : κ)
  | done
  | failed (e : Error)

/-- A stream over cursors of type `κ`: the items it has looked ahead, and the status after them. -/
structure StreamOf (α κ : Type) where
  ahead : List α
  status : Status κ

/-- How many items there are. -/
inductive Cardinality where
  | empty
  | one
  | many
deriving DecidableEq

/-- The cardinality of a number of items. -/
def Cardinality.ofCount : Nat → Cardinality
  | 0 => empty
  | 1 => one
  | _ => many

/-- What bounds alone tell about the cardinality: the number of items if they determine it, or that they
could not be computed. -/
def Cardinality.told? : Except Error SizeHint → Option (Outcome Cardinality)
  | .ok h => h.size?.map fun n => .item (.ofCount n)
  | .error e => some (.failed e)

namespace StreamOf

variable {W α κ : Type}

/-- A stream that runs a cursor. -/
def run (c : κ) : StreamOf α κ := ⟨[], .running c⟩

/-- The empty stream. -/
def empty : StreamOf α κ := ⟨[], .done⟩

/-- The stream of one item. -/
def one (x : α) : StreamOf α κ := ⟨[x], .done⟩

/-- A stream that has failed. -/
def failed (e : Error) : StreamOf α κ := ⟨[], .failed e⟩

/-- The status of a stream after a step of its cursor: the end and the first error are final. -/
def statusAfter (o : Outcome α) (c : κ) : Status κ :=
  match o with
  | .done => .done
  | .failed e => .failed e
  | _ => .running c

/-- One pull of a stream without items ahead, given a step of its cursor. -/
def settle (r : Outcome α × κ) : Outcome α × StreamOf α κ := (r.1, ⟨[], statusAfter r.1 r.2⟩)

/-- One pull of a stream. -/
def pull (step : κ → StateM W (Outcome α × κ)) (s : StreamOf α κ) :
    StateM W (Outcome α × StreamOf α κ) :=
  match s with
  | ⟨x :: xs, status⟩ => pure (.item x, ⟨xs, status⟩)
  | ⟨[], .done⟩ => pure (.done, s)
  | ⟨[], .failed e⟩ => pure (.failed e, s)
  | ⟨[], .running c⟩ => settle <$> step c

/-- A look ahead by one step of the cursor: an item is kept for later, and nothing is reported yet. -/
def keep (ahead : List α) (r : Outcome α × κ) : Outcome Cardinality × StreamOf α κ :=
  match r.1 with
  | .item x => (.skip, ⟨ahead ++ [x], .running r.2⟩)
  | .done => (.skip, ⟨ahead, .done⟩)
  | o => (o.pass, ⟨ahead, statusAfter o r.2⟩)

/-- One step towards the cardinality of a stream, which is known when two items are ahead or when the
end has been seen. -/
def look (step : κ → StateM W (Outcome α × κ)) (s : StreamOf α κ) :
    StateM W (Outcome Cardinality × StreamOf α κ) :=
  if 2 ≤ s.ahead.length then pure (.item .many, s)
  else
    match s.status with
    | .done => pure (.item (.ofCount s.ahead.length), s)
    | .failed e => pure (.failed e, s)
    | .running c => keep s.ahead <$> step c

/-- The bounds of a stream, given those of its cursor. A failed stream has no upper bound, because its
error is still to be seen. -/
def hint (cursorHint : κ → Except Error SizeHint) (s : StreamOf α κ) : Except Error SizeHint :=
  match s.status with
  | .running c => (cursorHint c).map (·.append (.exactly s.ahead.length))
  | .done => .ok (.exactly s.ahead.length)
  | .failed _ => .ok ⟨s.ahead.length, none⟩

end StreamOf

/-! ### Reports -/

/-- Repeats a step until it reports something; an outcome `skip` says that the fuel was not enough. -/
def untilReport {W α σ : Type} (step : σ → StateM W (Outcome α × σ)) :
    Nat → σ → StateM W (Outcome α × σ)
  | 0, s => return (.skip, s)
  | fuel + 1, s => do
    match ← step s with
    | (.skip, s) => untilReport step fuel s
    | r => return r

namespace StreamOf

variable {W α κ : Type}

/-- The next report of a stream. -/
def advance (step : κ → StateM W (Outcome α × κ)) (fuel : Nat) (s : StreamOf α κ) :
    StateM W (Outcome α × StreamOf α κ) :=
  untilReport (pull step) fuel s

/-- The cardinality of a stream: from its hint if this is exact, and otherwise by looking ahead. -/
def cardinality (cursorHint : κ → Except Error SizeHint) (step : κ → StateM W (Outcome α × κ)) (fuel : Nat)
    (s : StreamOf α κ) : StateM W (Outcome Cardinality × StreamOf α κ) :=
  match Cardinality.told? (s.hint cursorHint) with
  | some o => return (o, s)
  | none => untilReport (look step) fuel s

end StreamOf

end LazyXPath
