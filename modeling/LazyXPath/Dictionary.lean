import LazyXPath.Atomic.Key

/-!
# Dictionaries

A dictionary associates values with atomic keys. It keeps the order in which the keys first came in;
a later entry with the same key replaces the value but neither the key nor its place.
-/

namespace LazyXPath

/-- Entries in the order of their keys. -/
structure Dictionary (α : Type) where
  entries : List (Atomic × α)

namespace Dictionary

variable {α : Type}

/-- Puts an entry among others: it replaces the value of the first entry with the same key, and comes
last if there is none. -/
def putInto (key : Atomic) (value : α) : List (Atomic × α) → List (Atomic × α)
  | [] => [(key, value)]
  | (k, v) :: rest => if k.sameKey key then (k, value) :: rest else (k, v) :: putInto key value rest

/-- Adds an entry. -/
def put (d : Dictionary α) (key : Atomic) (value : α) : Dictionary α :=
  ⟨putInto key value d.entries⟩

/-- The dictionary of the given entries, the later ones taking precedence. -/
def ofEntries (entries : List (Atomic × α)) : Dictionary α :=
  entries.foldl (fun d p => d.put p.1 p.2) ⟨[]⟩

/-- The value of a key. -/
def get? (d : Dictionary α) (key : Atomic) : Option α :=
  (d.entries.find? fun p => p.1.sameKey key).map (·.2)

/-- The keys in order. -/
def keys (d : Dictionary α) : List Atomic := d.entries.map (·.1)

/-- The number of entries. -/
def size (d : Dictionary α) : Nat := d.entries.length

/-- Whether there are no entries. -/
def isEmpty (d : Dictionary α) : Bool := d.entries.isEmpty

end Dictionary

end LazyXPath
