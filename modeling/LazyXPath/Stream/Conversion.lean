import LazyXPath.Operator.Basic
import LazyXPath.Stream.Basic

/-!
# Conversion to a sequence type, and truth values

Arguments and results of functions are converted to declared sequence types: nodes and arrays become
their typed values, untyped values are cast, numbers are promoted and URIs become strings, and then the
number of items is checked. `Item.convertAll` converts a whole sequence, and `Conversion.step` a
sequence that is pulled. For a type that allows at most one item, the whole input is read before
anything is delivered.

The **truth value** of a sequence is false for an empty one, true if the first item is a node, and
otherwise that of a single atomic value. In a predicate, a number stands for a position.
-/

namespace LazyXPath

namespace Atomic

/-- An atomic value as a value of a target type. -/
def coerce (v : Atomic) (target : ItemType) : Except Error Atomic :=
  let source := v.itemType
  if source.isSubtypeOf target then .ok v
  else if target = .dateTimeStamp && hasDateTimeOffset v then .ok v
  else if source = .untypedAtomic then
    if target = .numeric then v.cast .double
    else if target.isInstantiable then v.cast target
    else .ok v
  else if isPromotion source target || (source = .anyUri && target = .string) then v.cast target
  else .error (.cannotConvert source v.lexical target)
where
  /-- Whether a value is a date and time with an offset. -/
  hasDateTimeOffset : Atomic → Bool
    | .dateTime _ offset => offset.isSome
    | _ => false
  /-- Whether a numeric type is below a floating-point type. -/
  isPromotion (source target : ItemType) : Bool :=
    (target = .float || target = .double) &&
      match NumericKind.ofType? source, NumericKind.ofType? target with
      | some a, some b => a.rank < b.rank
      | _, _ => false

/-- The truth value of an atomic value. -/
def truth (v : Atomic) : Except Error Bool :=
  match v with
  | boolean b => .ok b
  | double x => .ok !(x.isNaN || x == 0)
  | float x => .ok !(x.isNaN || x == 0)
  | decimal d => .ok !d.isZero
  | integer _ i => .ok (i != 0)
  | text _ s => .ok !s.isEmpty
  | _ => .error (.noBooleanValue (.ofType v.itemType))

/-- Whether a number stands for a position; other values do not stand for any. -/
def meansPosition? (v : Atomic) (position : Nat) : Option Bool :=
  let equals (d : Option Decimal) : Bool :=
    match d, Decimal.ofInt? position with
    | some a, some b => a.sameValue b
    | _, _ => false
  match v with
  | double x => some (equals (Decimal.ofDouble? x))
  | float x => some (equals (Decimal.ofFloat? x))
  | decimal d => some (equals (some d))
  | integer _ i => some (i == position)
  | _ => none

/-- The truth value of a first item that is atomic. -/
def predicateTruth (position : Option Nat) (v : Atomic) : Except Error Bool :=
  match position.bind v.meansPosition? with
  | some b => .ok b
  | none => v.truth

end Atomic

namespace Item

/-- An item as items of the item type of a sequence type. -/
def convert (f : Forest) (type : SequenceType) (x : Item) : Except Error (List Item) :=
  if type.item = .item || (itemType f x).isSubtypeOf type.item then .ok [x]
  else if !type.item.isAtomic then .error (.typeMismatch type (.kind (kind f x)))
  else do
    let atoms ← atomize f x
    let values ← atoms.mapM (·.coerce type.item)
    return values.map .atomic

/-- A sequence as a sequence of a sequence type. -/
def convertAll (f : Forest) (type : SequenceType) (xs : List Item) : Except Error (List Item) := do
  let ys := (← xs.mapM (convert f type)).flatten
  if ys.isEmpty && type.occurrence.atLeastOne then throw (.typeMismatch type .emptySequence)
  else if 1 < ys.length && type.occurrence.atMostOne then
    throw (.typeMismatch type (.count ys.length))
  else return ys

end Item

namespace Conversion

variable {W σ : Type}

/-- Delivers the next converted item. -/
def deliver (c : Conversion) : Outcome Item × Conversion :=
  match c.pending with
  | [] => (.done, c)
  | x :: xs => (.item x, { c with pending := xs, emitted := true })

/-- Whether nothing more has to be read before a converted item is delivered. -/
def isReady (c : Conversion) : Bool :=
  if c.type.occurrence.atMostOne then c.checked else !c.pending.isEmpty

/-- Takes up an item of the input. -/
def takeUp (f : Forest) (c : Conversion) (x : Item) : Outcome Item × Conversion :=
  match x.convert f c.type with
  | .error e => (.failed e, c)
  | .ok ys =>
    let pending := c.pending ++ ys
    if c.type.occurrence.atMostOne && 1 < pending.length then
      (.failed (.typeMismatch c.type .moreThanOne), c)
    else (.skip, { c with pending })

/-- The end of the input. -/
def finish (c : Conversion) : Outcome Item × Conversion :=
  if c.pending.isEmpty && !c.emitted && c.type.occurrence.atLeastOne then
    (.failed (.typeMismatch c.type .emptySequence), c)
  else { c with checked := true }.deliver

/-- A step of a conversion, given the input and a pull of it. -/
def step (f : Forest) (c : Conversion) (s : σ) (pull : Step.Pull W Item σ) :
    StateM W (Outcome Item × Conversion × σ) :=
  if c.isReady then
    let (o, c) := c.deliver
    pure (o, c, s)
  else do
    match ← pull with
    | (.item x, s) =>
      let (o, c) := c.takeUp f x
      return (o, c, s)
    | (.done, s) =>
      let (o, c) := c.finish
      return (o, c, s)
    | (o, s) => return (o, c, s)

end Conversion

/-! ### Truth values -/

namespace Step

variable {W σ : Type}

/-- A step towards a truth value, which is delivered at last: `first` is that of a first item that is
atomic. The result is the state of the search, or that of the input when the value is delivered. -/
def truth (f : Forest) (position : Option Nat) (first : Option Bool) (pull : Pull W Item σ) :
    StateM W (Outcome Item × (Option Bool × σ ⊕ σ)) := do
  match ← pull, first with
  | (.done, s), none => return (.item (.ofBool false), .inr s)
  | (.done, s), some b => return (.item (.ofBool b), .inr s)
  | (.item (.node _), s), none => return (.item (.ofBool true), .inr s)
  | (.item (.atomic v), s), none =>
    match v.predicateTruth position with
    | .ok b => return (.skip, .inl (some b, s))
    | .error e => return (.failed e, .inl (none, s))
  | (.item x, s), none => return (.failed (.noBooleanValue (Item.kind f x)), .inl (none, s))
  | (.item _, s), some b => return (.failed .booleanValueOfMany, .inl (some b, s))
  | (o, s), first => return (o, .inl (first, s))

end Step

end LazyXPath
