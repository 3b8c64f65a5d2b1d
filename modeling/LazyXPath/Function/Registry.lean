import LazyXPath.Language
import LazyXPath.Text.EditDistance

/-!
# Registries of functions

A **registry** holds for every name the functions that were registered under it, its *overloads*.
Overloads of one name differ in their parameters. A lookup (`Registry.resolve`) finds the overloads
that accept a number of arguments; a name without a namespace is looked up as it is written first, and
then in a default namespace.
-/

namespace LazyXPath

/-- A registry. -/
structure Registry where
  /-- The overloads under each name. -/
  entries : List (Name × List Function) := []

namespace Registry

/-- The registry without functions. -/
def empty : Registry := {}

/-- The number of names. -/
def size (r : Registry) : Nat := r.entries.length

/-- The names. -/
def names (r : Registry) : List Name := r.entries.map (·.1)

/-- The overloads of a name. -/
def overloads? (r : Registry) (name : Name) : Option (List Function) := r.entries.lookup name

/-- Whether two functions have the same parameters. -/
def sameParameters (f g : Function) : Bool :=
  f.signature.params == g.signature.params && f.signature.rest == g.signature.rest

/-- Adds an overload; it replaces one with the same parameters. -/
def addOverload (f : Function) (overloads : List Function) : List Function :=
  overloads.filter (fun g => !sameParameters g f) ++ [f]

/-- Adds a function under a name to a list of entries. -/
def registerIn (name : Name) (f : Function) :
    List (Name × List Function) → List (Name × List Function)
  | [] => [(name, [f])]
  | (n, fs) :: rest =>
    if n = name then (n, addOverload f fs) :: rest else (n, fs) :: registerIn name f rest

/-- Adds a function under a name. -/
def register (r : Registry) (name : Name) (f : Function) : Registry :=
  ⟨registerIn name f r.entries⟩

/-! ### Lookup -/

/-- How far a name may differ from one that is suggested for it. -/
def tolerance (name : Name) : Nat := max (name.localPart.length / 3) 2

/-- The order of suggestions: by distance, then by spelling. -/
def suggestedBefore (a b : Nat × Name) : Bool :=
  a.1 < b.1 || (a.1 == b.1 && a.2.localPart ≤ b.2.localPart)

/-- At most three names that are spelled like a name. -/
def suggestions (r : Registry) (name : Name) : List Name :=
  let rated := r.names.map fun n =>
    (Text.editDistance name.localPart.toList n.localPart.toList, n)
  let near := rated.filter (·.1 ≤ tolerance name)
  ((near.mergeSort suggestedBefore).take 3).map (·.2)

/-- The numbers of parameters of functions that are not variadic, sorted and without repetition. -/
def fixedArities (fs : List Function) : List Nat :=
  let ns := (fs.filter (·.signature.rest.isNone)).map (·.arity)
  (ns.mergeSort (· ≤ ·)).eraseReps

/-- The least number of arguments of a variadic function. -/
def variadicFrom? (fs : List Function) : Option Nat :=
  ((fs.filter (·.signature.rest.isSome)).map (·.arity)).min?

/-- The overloads that accept a number of arguments. -/
def accepting (arity : Nat) (fs : List Function) : List Function :=
  fs.filter (·.signature.accepts arity)

/-- The name under which a function is found, with its overloads: the name as it is written if one of
its overloads accepts the number of arguments, and otherwise the name in the default namespace. -/
def find? (r : Registry) (name : Name) (arity : Nat) (default : Option String) :
    Option (Name × List Function) :=
  let elsewhere := name.resolveIn default
  match (r.overloads? name).filter (fun fs => !(accepting arity fs).isEmpty) with
  | some fs => some (name, fs)
  | none => (r.overloads? elsewhere).map (elsewhere, ·)

/-- All overloads of a name that accept a number of arguments. -/
def resolve (r : Registry) (name : Name) (arity : Nat) (default : Option String) :
    Except Error (List Function) :=
  match r.find? name arity default with
  | none =>
    let elsewhere := name.resolveIn default
    .error (.unknownFunction elsewhere (r.suggestions elsewhere))
  | some (found, fs) =>
    match accepting arity fs with
    | [] => .error (.noSuchArity found (fixedArities fs) (variadicFrom? fs))
    | accepted => .ok accepted

/-- The first overload of a name that accepts a number of arguments. -/
def first (r : Registry) (name : Name) (arity : Nat) (default : Option String) :
    Except Error Function := do
  match ← r.resolve name arity default with
  | f :: _ => return f
  | [] => throw (.noOverloadOfArity name arity)

end Registry

namespace Function

/-- A variadic function as one with a fixed number of parameters. -/
def withArity (f : Function) (identity n : Nat) : Except Error Function :=
  if f.signature.accepts n then
    .ok { f with identity, signature := f.signature.expand n }
  else .error (.arityRefused f.label n)

end Function

/-- The function with a name and a number of parameters. If several overloads have this number, the
choice is left to the call. A function that is made here has the given identity. -/
def Registry.reference (r : Registry) (identity : Nat) (name : Name) (arity : Nat)
    (default : Option String) : Except Error Function := do
  match ← r.resolve name arity default with
  | [f] => if f.signature.rest.isSome then f.withArity identity arity else return f
  | candidates =>
    let display := name.resolveIn default
    return {
      identity
      name := some display
      signature := ⟨List.replicate arity .anything, none, .anything⟩
      callable := .overloaded display candidates }

end LazyXPath
