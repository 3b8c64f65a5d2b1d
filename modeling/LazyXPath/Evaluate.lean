import LazyXPath.Function.Call

/-!
# Evaluation of expressions

`evaluate` gives the stream of an expression in a scope. It pulls nothing: work is done when the stream
is pulled. Failures are found in the stream, so that there always is one. Functions are called when a
call is evaluated, and expressions under a condition, a loop or a predicate are evaluated only when
they are reached.

`build` gives the stream that a host describes, or the failure to make one.
-/

namespace LazyXPath

namespace Expr

/-- The constant position that an expression is. -/
def constantPosition? : Expr → Option Int
  | .literal (.integer .integer k) => some k
  | _ => none

end Expr

/-- The nodes that a step along an axis yields. -/
def axisStream (forest : Forest) (axis : Axis) (test : NodeTest) (scope : Scope) :
    Except Error Stream := do
  match ← scope.contextItem with
  | .node n =>
    let node := forest.node n
    let among (ns : List NodeId) : Stream := .run (.candidates ns axis.principalKind test)
    let below (stack : List NodeId) : Stream := .run (.descendants stack axis.principalKind test)
    return match axis with
      | .child => among node.children
      | .attr => among node.attrs
      | .itself => among [n]
      | .parent => among node.parent.toList
      | .descendant => below node.children
      | .descendantOrSelf => below [n]
  | x => throw (.axisFromNonNode (x.kind forest))

/-- An expression with the focus on each item of a stream in turn, which is the value of `base`. If the
number of items is not known, it is found by evaluating `base` again. -/
def forEachFocus (role : FocusRole) (base body : Expr) (scope : Scope) (input : Stream) : Stream :=
  match input.exactSize? with
  | .error e => .failed e
  | .ok size =>
    let sequence := if size.isNone then some (.evaluated base scope) else none
    input.flatMap (.focusEach role body scope size sequence 0)

/-- The item at a constant position. -/
def constantFilter (k : Nat) (input : Stream) : Stream := (input.take k).filter (.only k 0)

/-- A bound of a range. -/
def rangeBound (s : Stream) : Stream := s.convert ⟨.integer, .optional⟩

section

variable (env : Environment) (E : Engine)

mutual

/-- The stream of an expression in a scope. -/
def evaluate (scope : Scope) (e : Expr) : Action Stream :=
  match e with
  | .literal v => return .one (.atomic v)
  | .sequence parts => return .concat (← evaluateAll scope parts)
  | .range first last => do
    let a ← evaluate scope first
    let b ← evaluate scope last
    return .zip .range [rangeBound a, rangeBound b]
  | .contextItem =>
    match scope.contextItem with
    | .ok x => return .one x
    | .error e => return .failed e
  | .varRef x =>
    match scope.value? x with
    | some r => E.replay r
    | none => return .failed (.unboundVariable x)
  | .arithmetic op left right => do
    let a ← evaluate scope left
    let b ← evaluate scope right
    return .zip (.arithmetic op) [a.atomize, b.atomize]
  | .sign op operand => do
    let a ← evaluate scope operand
    return .zip (.sign op) [a.atomize]
  | .comparison op left right => do
    let a ← evaluate scope left
    let b ← evaluate scope right
    return .zip (.comparison op) [a.atomize, b.atomize]
  | .conjunction left right => do
    let a ← evaluate scope left
    return a.booleanValue.flatMap (.decide false right scope)
  | .disjunction left right => do
    let a ← evaluate scope left
    return a.booleanValue.flatMap (.decide true right scope)
  | .conditional condition yes no => do
    let c ← evaluate scope condition
    return c.booleanValue.flatMap (.branch yes no scope)
  | .letIn x value body => do
    let s ← evaluate scope value
    let b ← World.newBuffer s
    evaluate (.binding scope x (.buffered b)) body
  | .forIn x source body => do
    let s ← evaluate scope source
    return s.flatMap (.bindEach x body scope)
  | .simpleMap left right => do
    let s ← evaluate scope left
    return forEachFocus .map left right scope s
  | .filter base predicate =>
    match Expr.constantPosition? predicate with
    | some k =>
      if 0 < k then return constantFilter k.toNat (← evaluate scope base)
      else return .empty
    | none => do
      let s ← evaluate scope base
      return forEachFocus .filter base predicate scope s
  | .path base step => do
    let s ← evaluate scope base
    return (forEachFocus .path base step scope s).collect .documentOrder
  | .axisStep axis test => return .orFailed (axisStream env.forest axis test scope)
  | .call name arguments => do
    if arguments.any (·.isNone) then
      match env.registry.reference (← World.newIdentity) name arguments.length
          scope.settings.functionSpace with
      | .error e => return .failed e
      | .ok f =>
        match ← f.partiallyApply (← evaluateArguments scope arguments) with
        | .ok g => return .one (.function g)
        | .error e => return .failed e
    else
      let streams := (← evaluateArguments scope arguments).filterMap id
      return .orFailed (← E.callNamed env.registry name scope streams)
  | .functionRef name arity => do
    match env.registry.reference (← World.newIdentity) name arity scope.settings.functionSpace with
    | .ok f => return .one (.function f)
    | .error e => return .failed e
  | .dynamicCall target arguments => do
    let t ← evaluate scope target
    return .zip (.call arguments scope) [t.convert ⟨.item, .one⟩]
  | .deferred d => return .run (.deferred d none)
  | .items xs => return .ofList xs
  | .host label source => do
    World.record (.host label)
    return .orFailed (← build scope source)
  | .failing e => return .failed e

/-- The streams of several expressions. -/
def evaluateAll (scope : Scope) : List Expr → Action (List Stream)
  | [] => return []
  | e :: es => do
    let s ← evaluate scope e
    return s :: (← evaluateAll scope es)

/-- The streams of the arguments that are there. -/
def evaluateArguments (scope : Scope) : List (Option Expr) → Action (List (Option Stream))
  | [] => return []
  | a :: rest => do
    let s ← evaluateArgument scope a
    return s :: (← evaluateArguments scope rest)

/-- The stream of an argument if it is there. -/
def evaluateArgument (scope : Scope) : Option Expr → Action (Option Stream)
  | none => return none
  | some e => return some (← evaluate scope e)

/-- The stream that a host describes. -/
def build (scope : Scope) (s : Source) : Action (Except Error Stream) :=
  match s with
  | .empty => return .ok .empty
  | .one x => return .ok (.one x)
  | .items xs => return .ok (.ofList xs)
  | .script label steps claimed => return .ok (.run (.script label steps claimed))
  | .failed e => return .ok (.failed e)
  | .invalid e => return .error e
  | .deferred d => return .ok (.run (.deferred d none))
  | .range first last => return .ok (.range first last)
  | .replay name => do
    match ← World.replay? name with
    | some r => return .ok (← E.replay r)
    | none => return .ok .empty
  | .expr e => return .ok (← evaluate scope e)
  | .invoke name arguments => do
    match ← buildAll scope arguments with
    | .ok streams => E.callNamed env.registry name scope streams
    | .error e => return .error e
  | .map f s => return (← build scope s).map (·.map (.host f))
  | .mapAll f s => return (← build scope s).map (·.collect (.host f))
  | .filter f s => return (← build scope s).map (·.filter (.host f))
  | .flatMap f s => return (← build scope s).map (·.flatMap (.host f))
  | .take n s => return (← build scope s).map (·.take n)
  | .concat parts => return (← buildAll scope parts).map .concat
  | .atomize s => return (← build scope s).map (·.atomize)
  | .zip f parts => return (← buildAll scope parts).map (.zip (.host f))
  | .zipOptional f parts => return (← buildAll scope parts).map (.zip (.hostOptional f))
  | .booleanValue s => return (← build scope s).map (·.booleanValue)
  | .predicateTruth position s => return (← build scope s).map (·.predicateTruth position)
  | .convert type s => return (← build scope s).map (·.convert type)

/-- The streams that a host describes, up to the first failure. -/
def buildAll (scope : Scope) : List Source → Action (Except Error (List Stream))
  | [] => return .ok []
  | s :: rest => do
    match ← build scope s with
    | .error e => return .error e
    | .ok t => return (← buildAll scope rest).map (t :: ·)

end

/-- Another reading of a sequence. -/
def evaluateReplay : Replay → Action Stream
  | .items xs => return .ofList xs
  | .buffered b => return .run (.reader b 0)
  | .evaluated e scope => evaluate env E scope e
  | .regenerated s scope => do
    World.record .regenerate
    return .orFailed (← build env E scope s)
  | .produced x s settings => do
    World.record (.produce x)
    return .orFailed (← build env E (.root settings) s)

end

end LazyXPath
