import LazyXPath.Stream.Conversion
import LazyXPath.World

/-!
# Calls

A call converts the arguments to the types of the parameters and leaves the rest to the function. If
several functions accept the number of arguments, all arguments are read first, and the one function
to whose types they can be converted is called; the call fails if there is none or more than one.

A function can be applied to some of its arguments only. The result has the other parameters, and reads
the given arguments from shared buffers.

Calls and readings take place in an **engine**, which says how a function is called, how a sequence is
read again and how a stream is pulled.
-/

namespace LazyXPath

/-- What calls and readings are made of. -/
structure Engine where
  /-- The result of a function for converted arguments. -/
  call : Function → Scope → List Stream → Action (Except Error Stream)
  /-- Another reading of a sequence. -/
  replay : Replay → Action Stream
  /-- A pull of a stream. -/
  step : Stream → Action (Outcome Item × Stream)

/-- The arguments of a call, each converted to the type of its parameter. -/
def Signature.convertArguments (signature : Signature) (arguments : List Stream) : List Stream :=
  arguments.mapIdx fun i s =>
    match signature.param? i with
    | some type => s.convert type
    | none => s

/-- The complete arguments of a call, each converted to the type of its parameter. -/
def Signature.convertAll (forest : Forest) (signature : Signature) (arguments : List (List Item)) :
    Except Error (List (List Item)) :=
  (arguments.mapIdx fun i xs => ((signature.param? i).getD .anything, xs)).mapM fun (type, xs) =>
    Item.convertAll forest type xs

namespace Dispatch

/-- The candidates that accept complete arguments, with the converted arguments. -/
def accepted (forest : Forest) (d : Dispatch) (arguments : List (List Item)) :
    List (Function × List (List Item)) :=
  d.candidates.filterMap fun f =>
    (f.signature.convertAll forest arguments).toOption.map (f, ·)

/-- The one candidate that accepts complete arguments. -/
def select (forest : Forest) (d : Dispatch) (arguments : List (List Item)) :
    Except Error (Function × List (List Item)) :=
  match d.accepted forest arguments with
  | [] => .error (.noOverloadAccepts d.name)
  | [choice] => .ok choice
  | _ => .error (.overloadsAmbiguous d.name)

/-- The stream of a call whose function is still to be chosen. -/
def stream (d : Dispatch) : List Stream → Stream
  | [] => .run (.dispatch d [])
  | s :: rest => .run (.gather d [] [] s rest)

end Dispatch

namespace Engine

/-- Calls a function. -/
def invoke (E : Engine) (f : Function) (scope : Scope) (arguments : List Stream) :
    Action (Except Error Stream) :=
  if f.signature.accepts arguments.length then
    E.call f scope (f.signature.convertArguments arguments)
  else return .error (.wrongArgumentCount f.label arguments.length)

/-- Calls one of several functions that accept the number of arguments. -/
def invokeAny (E : Engine) (name : Name) (candidates : List Function) (scope : Scope)
    (arguments : List Stream) : Action (Except Error Stream) :=
  match candidates with
  | [] => return .error (.noOverloadOfArity name arguments.length)
  | [f] => E.invoke f scope arguments
  | candidates => return .ok (Dispatch.stream ⟨name, candidates, scope⟩ arguments)

/-- Calls a function of a registry. -/
def callNamed (E : Engine) (registry : Registry) (name : Name) (scope : Scope)
    (arguments : List Stream) : Action (Except Error Stream) :=
  match registry.resolve name arguments.length scope.settings.functionSpace with
  | .ok candidates => E.invokeAny name candidates scope arguments
  | .error e => return .error e

/-- Calls an item: a function with arguments, an array with a position, or a map with a key. -/
def callItem (E : Engine) (forest : Forest) (x : Item) (scope : Scope) (arguments : List Stream) :
    Action (Except Error Stream) :=
  match x, arguments with
  | .function f, arguments => E.invoke f scope arguments
  | .array members, [index] =>
    return .ok ((index.convert ⟨.integer, .one⟩).collect (.member members))
  | .map _ entries, [key] =>
    return .ok ((key.convert ⟨.anyAtomic, .one⟩).collect (.entry entries))
  | .array _, arguments | .map .., arguments =>
    return .error (.lookupArgumentCount (x.kind forest) arguments.length)
  | x, _ => return .error (.notCallable (x.kind forest))

end Engine

/-! ### Partial application -/

namespace Function

/-- The function as one for a fixed number of arguments. -/
def forArguments (f : Function) (identity n : Nat) : Except Error Function :=
  if f.signature.rest.isSome then f.withArity identity n
  else if f.arity = n then .ok f
  else .error (.wrongArgumentCount f.label n)

/-- The types of the parameters that are left open. -/
def openParameters : List SequenceType → List (Option Stream) → List SequenceType
  | type :: types, none :: rest => type :: openParameters types rest
  | _ :: types, some _ :: rest => openParameters types rest
  | _, _ => []

/-- Applies a function to the arguments that are there. -/
def partiallyApply (f : Function) (arguments : List (Option Stream)) :
    Action (Except Error Function) := do
  match f.forArguments (← World.newIdentity) arguments.length with
  | .error e => return .error e
  | .ok target =>
    let signature : Signature :=
      ⟨openParameters target.signature.params arguments, none, target.signature.returns⟩
    return .ok {
      identity := ← World.newIdentity
      name := none
      signature
      callable := .partially target (← World.newBuffers arguments) }

/-- All arguments of a function applied to some of them: those given before are read from buffers. -/
def fillIn : List (Option BufferId) → List Stream → List Stream
  | [], _ => []
  | some b :: bound, supplied => .run (.reader b 0) :: fillIn bound supplied
  | none :: bound, s :: supplied => s :: fillIn bound supplied
  | none :: bound, [] => .empty :: fillIn bound []

end Function

end LazyXPath
