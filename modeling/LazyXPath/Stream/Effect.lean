import LazyXPath.Function.Builtin

/-!
# What is done with items

The functions that the descriptions in cursors stand for: `Mapper.apply`, `Collector.apply`,
`Selector.apply`, `Expander.apply` and `Combiner.apply`. A callback of a host is counted and recorded
before it does anything.
-/

namespace LazyXPath

namespace Callback

variable {κ : Type}

/-- Counts and records a call of a callback, and fails if it is the one that fails. -/
def begin (role : CallbackRole) (f : Callback κ) : Action (Except Error Unit × Callback κ) := do
  let number := f.calls + 1
  World.record (.callback role number)
  let outcome := if f.failAt = some number then
      .error (.raised (ErrorCode.name .FOER0000) "callback failed")
    else .ok ()
  return (outcome, { f with calls := number })

end Callback

/-! ### Items to items -/

/-- What a callback makes of an item. -/
def MapKind.apply (kind : MapKind) (x : Item) : Action (Except Error Item) :=
  match kind, x with
  | .text, .atomic v => return .ok (.ofString v.lexical)
  | .negate, .atomic v => do
    return (← World.operate (·.unary .minus v)).map .atomic
  | _, x => return .ok x

/-- The absolute value of a number; that of an integer is an `xs:integer`. -/
def Atomic.absolute (v : Atomic) : Except Error Atomic :=
  match v with
  | .decimal d => .ok (.decimal d.abs)
  | .double x => .ok (.double x.abs)
  | .float x => .ok (.float x.abs)
  | .integer _ i => if i.natAbs < twoTo 63 then .ok (.ofInt i.natAbs) else .error .absoluteOverflow
  | v => .error (.absoluteOfNonNumeric v.itemType)

/-- The item that a function makes of an item. -/
def Mapper.apply (forest : Forest) (f : Mapper) (x : Item) : Action (Except Error Item × Mapper) := do
  match f, x with
  | .host f, x =>
    match ← f.begin .map with
    | (.ok (), f) => return (← f.kind.apply x, .host f)
    | (.error e, f) => return (.error e, .host f)
  | .invert, .atomic (.boolean b) => return (.ok (.ofBool !b), .invert)
  | .invert, _ => return (.error .negationOfNonBoolean, .invert)
  | .construct t, .atomic v => return ((v.cast t).map .atomic, .construct t)
  | .construct t, x => return (.error (.constructorOfNonAtomic t (x.kind forest)), .construct t)
  | .absolute, .atomic v => return (v.absolute.map .atomic, .absolute)
  | .absolute, _ => return (.error .absoluteOfNonAtomic, .absolute)

/-! ### Sequences to sequences -/

/-- What a callback makes of a sequence. -/
def MapAllKind.apply (kind : MapAllKind) (xs : List Item) : List Item :=
  match kind with
  | .reverse => xs.reverse
  | .count => [.ofInt xs.length]
  | .same => xs

/-- The type of an item, and its text if it is atomic. -/
def Item.description (forest : Forest) (x : Item) : String :=
  match x with
  | .atomic v => v.itemType.display ++ " " ++ v.lexical
  | x => (x.itemType forest).display

/-- The member of an array at the position that a sequence gives. -/
def memberAt (members : List (List Item)) (xs : List Item) : Except Error (List Item) :=
  let position := ((xs.head?.bind ItemOf.integer?).filter Calendar.fitsLong).getD 0
  match ItemOf.member? members position with
  | some ys => .ok ys
  | none => .error (.indexOutOfBounds position members.length)

/-- The value in a map under the key that a sequence gives. -/
def entryAt (entries : Dictionary (List Item)) : List Item → List Item
  | .atomic k :: _ => (entries.get? k).getD []
  | _ => []

/-- The string value of the first item. -/
def firstString (forest : Forest) : List Item → Except Error String
  | x :: _ => x.stringValue forest
  | [] => .ok ""

/-- The length of the text of the first item. -/
def firstLength : List Item → Nat
  | .atomic v :: _ => (v.text?.map String.length).getD 0
  | _ => 0

/-- The sequence that a function makes of a sequence. -/
def Collector.apply (forest : Forest) (f : Collector) (xs : List Item) :
    Action (Except Error (List Item)) :=
  match f with
  | .host f => do
    match ← f.begin .mapAll with
    | (.ok (), f) => return .ok (f.kind.apply xs)
    | (.error e, _) => return .error e
  | .describe => return .ok [.ofString ("|".intercalate (xs.map (Item.description forest)))]
  | .documentOrder => return Item.inDocumentOrder forest xs
  | .contextSize => return (measured .contextSize xs.length).map ([·])
  | .member members => return memberAt members xs
  | .entry entries => return .ok (entryAt entries xs)
  | .stringValue => return (firstString forest xs).map ([.ofString ·])
  | .stringLength => return (measured .stringLength (firstLength xs)).map ([·])

/-! ### Tests -/

/-- Whether an item passes the test of a callback in the call with a number. -/
def FilterKind.test (forest : Forest) (kind : FilterKind) (number : Nat) (x : Item) : Bool :=
  match kind with
  | .all => true
  | .none => false
  | .odd => number % 2 = 1
  | .numeric => (x.itemType forest).isNumeric

/-- Whether an item passes a test. -/
def Selector.apply (forest : Forest) (f : Selector) (x : Item) :
    Action (Except Error Bool × Selector) := do
  match f with
  | .host f =>
    match ← f.begin .filter with
    | (.ok (), f) => return (.ok (f.kind.test forest f.calls x), .host f)
    | (.error e, f) => return (.error e, .host f)
  | .afterFirst passed => return (.ok passed, .afterFirst true)
  | .only position seen => return (.ok (seen + 1 = position), .only position (seen + 1))

/-! ### Items to streams -/

/-- What a callback makes of an item. -/
def FlatMapKind.apply (kind : FlatMapKind) (x : Item) : Stream :=
  match kind, x with
  | .one, x => .one x
  | .none, _ => .empty
  | .twice, x => .ofList [x, x]
  | .upTo, .atomic (.integer .integer n) => .range 1 n
  | .upTo, x => .one x

section

variable (env : Environment) (E : Engine)

/-- An expression with the focus on an item. -/
def focusOn (role : FocusRole) (body : Expr) (scope : Scope) (x : Item) (position : Nat) :
    Action (Except Error Stream) := do
  match role with
  | .map => return .ok (← evaluate env E scope body)
  | .path =>
    if x.isNode then return .ok (← evaluate env E scope body)
    else return .error (.stepFromNonNode (x.kind env.forest))
  | .filter =>
    let s ← evaluate env E scope body
    return .ok ((s.predicateTruth position).flatMap (.keep x))

/-- The stream that a function makes of an item. -/
def Expander.apply (f : Expander) (x : Item) : Action (Except Error Stream × Expander) := do
  match f with
  | .host f =>
    match ← f.begin .flatMap with
    | (.ok (), f) => return (.ok (f.kind.apply x), .host f)
    | (.error e, f) => return (.error e, .host f)
  | .branch yes no scope => return (.ok (← evaluate env E scope (if x.isTrue then yes else no)), f)
  | .decide deciding right scope =>
    if x.isTrue = deciding then return (.ok (.one x), f)
    else return (.ok (← evaluate env E scope right).booleanValue, f)
  | .bindEach name body scope =>
    let b ← World.newBuffer (.one x)
    return (.ok (← evaluate env E (.binding scope name (.buffered b)) body), f)
  | .focusEach role body scope size sequence position =>
    let inner := scope.withFocus ⟨x, position + 1, size, sequence⟩
    let r ← focusOn env E role body inner x (position + 1)
    return (r, .focusEach role body scope size sequence (position + 1))
  | .keep y => return (.ok (if x.isTrue then .one y else .empty), f)

/-! ### Several items to streams -/

/-- The integers between two items. -/
def rangeBetween : List Item → Except Error Stream
  | xs =>
    match xs.mapM fun x => (x.integer?).filter Calendar.fitsLong with
    | some [first, last] => .ok (if first ≤ last then .range first last else .empty)
    | _ => .error .rangeBoundOutOfRange

/-- A stream of one atomic value. -/
def Stream.oneAtomic (r : Except Error Atomic) : Except Error Stream := r.map fun v => .one (.atomic v)

/-- Calls an item with the values of expressions; an absent one is left open. -/
def callWith (x : Item) (arguments : List (Option Expr)) (scope : Scope) :
    Action (Except Error Stream) := do
  if arguments.any (·.isNone) then
    match x with
    | .function f =>
      return (← f.partiallyApply (← evaluateArguments env E scope arguments)).map
        fun g => .one (.function g)
    | x => return .error (.notPartiallyApplicable (x.kind env.forest))
  else
    let streams := (← evaluateArguments env E scope arguments).filterMap id
    E.callItem env.forest x scope streams

/-- The stream that a function makes of items all of which are there. -/
def Combiner.applyAll (f : Combiner) (xs : List Item) : Action (Except Error Stream) := do
  match f, xs with
  | .host f, xs =>
    match ← f.begin .zip with
    | (.ok (), ⟨.all, _, _⟩) => return .ok (.ofList xs)
    | (.ok (), ⟨.count, _, _⟩) => return .ok (.one (.ofInt xs.length))
    | (.error e, _) => return .error e
  | .range, xs => return rangeBetween xs
  | .arithmetic op, [.atomic a, .atomic b] =>
    return Stream.oneAtomic (← World.operate (·.arithmetic op a b))
  | .comparison op, [.atomic a, .atomic b] =>
    return Stream.oneAtomic ((← World.operate (·.compare op a b)).map .boolean)
  | .sign op, [.atomic a] => return Stream.oneAtomic (← World.operate (·.unary op a))
  | .sign _, _ => return .error .operandNotAtomic
  | .call arguments scope, [x] => callWith env E x arguments scope
  | .call .., _ => return .error .emptyCallTarget
  | _, _ => return .error .operandsNotAtomic

/-- The text of an item that is there and atomic. -/
def optionalText : Option Item → String
  | some (.atomic v) => v.lexical
  | _ => ""

/-- The stream that a function makes of items some of which may be missing. A function that wants all of
them gives the empty stream if one is missing. -/
def Combiner.apply (f : Combiner) (found : List (Option Item)) : Action (Except Error Stream) := do
  match f with
  | .hostOptional f =>
    match ← f.begin .zipOptional with
    | (.ok (), ⟨.mask, _, _⟩) => return .ok (.ofList (found.map fun x => .ofBool x.isSome))
    | (.ok (), ⟨.all, _, _⟩) => return .ok (.ofList (found.filterMap id))
    | (.error e, _) => return .error e
  | .concatenate => return .ok (.one (.ofString (String.join (found.map optionalText))))
  | f =>
    match found.mapM id with
    | some xs => f.applyAll env E xs
    | none => return .ok .empty

end

end LazyXPath
