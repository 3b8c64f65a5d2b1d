import LazyXPath.Evaluate

/-!
# The functions themselves

What the functions of the catalog do (`Builtin.apply`), what functions supplied by a host do
(`Body.apply`), and the call of any function with converted arguments (`applyFunction`).
-/

namespace LazyXPath

/-- A measured number as an item; it has to fit into a signed 64-bit integer. -/
def measured (m : Measure) (n : Nat) : Except Error Item :=
  if n < twoTo 63 then .ok (.ofInt n) else .error (.measureOverflow m)

/-- The number of items of a focus, as a stream. It may have to be counted. -/
def contextSize (E : Engine) (scope : Scope) : Action Stream :=
  match scope.focus? with
  | none => return .failed (.absentFocus .size)
  | some f =>
    match f.size, f.sequence with
    | some n, _ =>
      match measured .contextSize n with
      | .ok x => return .one x
      | .error e => return .failed e
    | none, some r => return (← E.replay r).collect .contextSize
    | none, none => return .failed .unknownSize

namespace Builtin

/-- The first argument, or else the context item. -/
def argumentOrFocus (scope : Scope) : List Stream → Except Error Stream
  | s :: _ => .ok s
  | [] => scope.contextItem.map .one

/-- The only argument. -/
def only : List Stream → Except Error Stream
  | [s] => .ok s
  | arguments => .error (.argumentCount 1 arguments.length)

/-- The number of items of a stream: at once if it is known, and otherwise by counting. -/
def countStream (s : Stream) : Except Error Stream := do
  match ← s.exactSize? with
  | some n => (measured .count n).map .one
  | none => .ok (.run (.count 0 s))

/-- The length of the text of the only argument, or else of the string value of the context item. -/
def lengthStream (forest : Forest) (scope : Scope) (arguments : List Stream) :
    Except Error Stream := do
  match arguments with
  | [] =>
    let s ← (← scope.contextItem).stringValue forest
    return Stream.collect .stringLength (.one (.ofString s))
  | arguments => return (← only arguments).collect .stringLength

/-- The context position as a stream. -/
def positionStream (scope : Scope) : Except Error Stream := do
  return .one (← measured .contextPosition (← scope.contextPosition))

/-- The result of a function of the catalog. -/
def apply (env : Environment) (E : Engine) (b : Builtin) (scope : Scope) (arguments : List Stream) :
    Action (Except Error Stream) :=
  let settings := scope.settings
  let offset := some settings.nowOffset
  match b with
  | yes => return .ok (.one (.ofBool true))
  | no => return .ok (.one (.ofBool false))
  | not => return (only arguments).map (·.booleanValue.map .invert)
  | boolean => return (only arguments).map (·.booleanValue)
  | empty => return (only arguments).map (.run <| .presence true false ·)
  | nonempty => return (only arguments).map (.run <| .presence false false ·)
  | count => return (only arguments).bind countStream
  | head => return (only arguments).map (·.take 1)
  | tail => return (only arguments).map (·.filter (.afterFirst false))
  | data => return (argumentOrFocus scope arguments).map (·.atomize)
  | string => return (argumentOrFocus scope arguments).map (·.collect .stringValue)
  | stringLength => return lengthStream env.forest scope arguments
  | concat => return .ok (.zip .concatenate arguments)
  | abs => return (only arguments).map (·.map .absolute)
  | currentDateTime => return .ok (.one (.atomic (.dateTime settings.now offset)))
  | currentDate => return .ok (.one (.atomic (.date settings.now.date offset)))
  | currentTime => return .ok (.one (.atomic (.time settings.now.time offset)))
  | implicitTimezone => return .ok (.one (.atomic (.dayTimeDuration settings.timezoneSeconds)))
  | position => return positionStream scope
  | last => return .ok (← contextSize E scope)
  | construct t => return (only arguments).map (·.map (.construct t))

end Builtin

/-- Binds streams to variables that are named by numbers. -/
def bindNumbered (scope : Scope) (number : Nat) : List Stream → Action Scope
  | [] => return scope
  | s :: rest => do
    let b ← World.newBuffer s
    bindNumbered (.binding scope (.plain (toString number)) (.buffered b)) (number + 1) rest

/-- The result of a function of a host that is called by a name. -/
def applyBody (env : Environment) (E : Engine) (name : Name) (body : BodyOf Item) (scope : Scope)
    (arguments : List Stream) : Action (Except Error Stream) :=
  match body with
  | .const xs => return .ok (.ofList xs)
  | .argument i => return .ok (arguments[i]?.getD .empty)
  | .concat => return .ok (.concat arguments)
  | .argumentCount => return .ok (.one (.ofInt arguments.length))
  | .name => return .ok (.one (.ofString name.display))
  | .fail e => return .error e
  | .failed e => return .ok (.failed e)
  | .describe => return .ok ((Stream.concat arguments).collect .describe)
  | .expr e => do
    let inner ← bindNumbered scope 1 arguments
    return .ok (← evaluate env E inner e)

/-- The result of a function before it is converted. -/
def applyFunction (env : Environment) (E : Engine) (f : Function) (scope : Scope)
    (arguments : List Stream) : Action (Except Error Stream) :=
  match f.callable with
  | .builtin b => b.apply env E scope arguments
  | .hosted body => do
    let name := f.name.getD (.plain "anonymous")
    World.record (.call name)
    applyBody env E name body scope arguments
  | .partially target bound => E.invoke target scope (Function.fillIn bound arguments)
  | .overloaded name candidates => E.invokeAny name candidates scope arguments

/-- The result of a function, converted to the type that it declares. -/
def callFunction (env : Environment) (E : Engine) (f : Function) (scope : Scope)
    (arguments : List Stream) : Action (Except Error Stream) := do
  return (← applyFunction env E f scope arguments).map (·.convert f.signature.returns)

end LazyXPath
