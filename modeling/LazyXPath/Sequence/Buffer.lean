import LazyXPath.Sequence.Step

/-!
# Shared buffers

A **buffer** lets several readers read a sequence that can be pulled only once. Each reader has a
position. A reader that has caught up with the buffer pulls the source, and what it finds is kept for
all the others: an item, the end, or an error.
-/

namespace LazyXPath

/-- A buffer over a source with states of type `σ`. The source is absent after its end or an error. -/
structure BufferOf (α σ : Type) where
  items : Array α
  source : Option σ
  error : Option Error

namespace BufferOf

variable {α σ : Type}

/-- A buffer that nobody has read. -/
def start (source : σ) : BufferOf α σ := ⟨#[], some source, none⟩

/-- The number of items, if the source has ended. -/
def knownSize (b : BufferOf α σ) : Option Nat :=
  match b.source with
  | none => some b.items.size
  | some _ => none

/-- What a reader at a position finds without pulling the source, or else the source. -/
def peek (b : BufferOf α σ) (position : Nat) : Outcome α ⊕ σ :=
  match b.items[position]?, b.error, b.source with
  | some x, _, _ => .inl (.item x)
  | none, some e, _ => .inl (.failed e)
  | none, none, none => .inl .done
  | none, none, some s => .inr s

/-- The buffer after a pull of its source. -/
def record (b : BufferOf α σ) (o : Outcome α) (s : σ) : BufferOf α σ :=
  match o with
  | .item x => { b with items := b.items.push x, source := some s }
  | .done => { b with source := none }
  | .failed e => { b with source := none, error := some e }
  | _ => { b with source := some s }

/-- The position of a reader after an outcome. -/
def positionAfter (position : Nat) : Outcome α → Nat
  | .item _ => position + 1
  | _ => position

end BufferOf

end LazyXPath
