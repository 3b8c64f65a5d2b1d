import LazyXPath.Scope
import LazyXPath.Sequence.Buffer

/-!
# Streams of items

A **cursor** is a state of producing items; `Cursor` lists all of them. Cursors that read other
sequences hold these as streams and say by a small description, such as `Mapper` or `Expander`, what
they do with the items. A description may hold an expression and the scope in which it is evaluated
later.

The hint of a cursor bounds the number of items still to come (`Stream.hint`). Where a sum in it is too
large for a 64-bit number and is not checked, there is no hint, and the process breaks down.
-/

namespace LazyXPath

/-! ### What is done with items -/

/-- Functions from items to items. -/
inductive Mapper where
  | host (f : Callback MapKind)
  /-- The negation of a boolean. -/
  | invert
  | construct (target : ItemType)
  | absolute

/-- Functions from whole sequences to sequences. -/
inductive Collector where
  | host (f : Callback MapAllKind)
  /-- A description of the items. -/
  | describe
  | documentOrder
  /-- The number of items in a focus. -/
  | contextSize
  /-- The member of an array whose position is given. -/
  | member (members : List (List Item))
  /-- The value in a map whose key is given. -/
  | entry (entries : Dictionary (List Item))
  | stringValue
  | stringLength

/-- Tests of items. -/
inductive Selector where
  | host (f : Callback FilterKind)
  /-- All items but the first. -/
  | afterFirst (passed : Bool)
  /-- The item with a position. -/
  | only (position seen : Nat)

/-- What is evaluated for each item of a sequence. -/
inductive FocusRole where
  /-- An expression whose value is delivered. -/
  | map
  /-- The same, but items that are not nodes are refused. -/
  | path
  /-- A predicate that decides whether the item is delivered. -/
  | filter
deriving DecidableEq

/-- Functions from items to sequences. -/
inductive Expander where
  | host (f : Callback FlatMapKind)
  /-- One of two expressions, depending on a truth value. -/
  | branch (yes no : Expr) (scope : Scope)
  /-- A truth value if it is the given one, or else the truth value of an expression. -/
  | decide (deciding : Bool) (right : Expr) (scope : Scope)
  /-- An expression with a variable bound to the item. -/
  | bindEach (name : Name) (body : Expr) (scope : Scope)
  /-- An expression with the focus on the item, after the items up to `position`. -/
  | focusEach (role : FocusRole) (body : Expr) (scope : Scope) (size : Option Nat)
      (sequence : Option Replay) (position : Nat)
  /-- An item, depending on a truth value. -/
  | keep (x : Item)

/-- Functions of at most one item from each of several sequences. -/
inductive Combiner where
  | host (f : Callback ZipKind)
  | hostOptional (f : Callback ZipOptionalKind)
  | range
  | arithmetic (op : ArithmeticOp)
  | sign (op : UnaryOp)
  | comparison (op : ComparisonOp)
  /-- A call of the item; an argument that is absent is left open. -/
  | call (arguments : List (Option Expr)) (scope : Scope)
  /-- The texts of the items one after the other. -/
  | concatenate

/-- The state of a conversion to a sequence type: the converted items still to be delivered, whether any
have been delivered, and whether all of the input has been read. -/
structure Conversion where
  type : SequenceType
  pending : List Item := []
  emitted : Bool := false
  checked : Bool := false

/-- A call whose function is still to be chosen among several. -/
structure Dispatch where
  name : Name
  candidates : List Function
  scope : Scope

/-! ### Cursors -/

/-- The states of producing items. -/
inductive Cursor where
  /-- Items at hand. -/
  | items (xs : List Item)
  /-- The nodes of a list that pass a test. -/
  | candidates (nodes : List NodeId) (principal : NodeKind) (test : NodeTest)
  /-- The nodes on a stack and below them that pass a test. -/
  | descendants (stack : List NodeId) (principal : NodeKind) (test : NodeTest)
  /-- The steps of a script; the number of items is claimed if it is given. -/
  | script (label : String) (steps : List (ScriptStep Item)) (claimed : Option Nat)
  /-- The items of a value that arrives later. -/
  | deferred (d : DeferredId) (arrived : Option (List Item))
  | range (next last : Int)
  /-- A reader of a shared buffer. -/
  | reader (buffer : BufferId) (position : Nat)
  | map (f : Mapper) (input : StreamOf Item Cursor)
  | filter (f : Selector) (input : StreamOf Item Cursor)
  | collect (f : Collector) (seen : List Item) (input : StreamOf Item Cursor)
  /-- Items that have been computed; their number is not told. -/
  | emit (xs : List Item)
  | outer (f : Expander) (input : StreamOf Item Cursor)
  | inner (f : Expander) (input current : StreamOf Item Cursor)
  | concat (first : StreamOf Item Cursor) (rest : List (StreamOf Item Cursor))
  | take (n : Nat) (input : StreamOf Item Cursor)
  | atomize (pending : List Atomic) (input : StreamOf Item Cursor)
  | zip (f : Combiner) (before : List (Step.Slot Item (StreamOf Item Cursor)))
      (current : StreamOf Item Cursor) (found : Option Item)
      (after : List (Step.Slot Item (StreamOf Item Cursor))) (waiting : Option DeferredId)
  /-- At most one item from each of several sequences, about to be combined. -/
  | combine (f : Combiner) (found : List (Option Item))
  | forward (input : StreamOf Item Cursor)
  /-- The truth value of a sequence, at a position if it is a predicate; `first` is that of a first
  item that is atomic. -/
  | truth (position : Option Nat) (first : Option Bool) (input : StreamOf Item Cursor)
  | convert (c : Conversion) (input : StreamOf Item Cursor)
  | gather (d : Dispatch) (gathered : List (List Item)) (seen : List Item)
      (current : StreamOf Item Cursor) (rest : List (StreamOf Item Cursor))
  /-- A call whose arguments are complete. -/
  | dispatch (d : Dispatch) (arguments : List (List Item))
  | count (seen : Nat) (input : StreamOf Item Cursor)
  /-- Whether a sequence is empty, or whether it is not; `begun` tells whether the hint has been
  consulted since the last suspension. -/
  | presence (wantsEmpty : Bool) (begun : Bool) (input : StreamOf Item Cursor)
  /-- Everything has been delivered, and what has been read of the input is still held. -/
  | spent (input : StreamOf Item Cursor)

/-- Streams of items. -/
abbrev Stream := StreamOf Item Cursor

/-- Shared buffers of items. -/
abbrev Buffer := BufferOf Item Stream

namespace Stream

/-- The stream of items at hand. -/
def ofList (xs : List Item) : Stream := .run (.items xs)

/-- The integers between two bounds. -/
def range (first last : Int) : Stream := .run (.range first last)

/-- Several streams one after the other. -/
def concat : List Stream → Stream
  | [] => ofList []
  | s :: rest => .run (.concat s rest)

/-- At most one item from each of several streams. -/
def zip (f : Combiner) : List Stream → Stream
  | [] => .run (.combine f [])
  | s :: rest => .run (.zip f [] s none (rest.map (⟨·, none⟩)) none)

/-- The typed values of the items. -/
def atomize (s : Stream) : Stream := .run (.atomize [] s)

/-- The truth value of a stream. -/
def booleanValue (s : Stream) : Stream := .run (.truth none none s)

/-- The truth value of a predicate at a position. -/
def predicateTruth (position : Nat) (s : Stream) : Stream := .run (.truth (some position) none s)

/-- The conversion to a sequence type. -/
def convert (type : SequenceType) (s : Stream) : Stream :=
  if type.isAnything then s else .run (.convert { type } s)

/-- The items that pass a test. -/
def filter (f : Selector) (s : Stream) : Stream := .run (.filter f s)

/-- The items after a function. -/
def map (f : Mapper) (s : Stream) : Stream := .run (.map f s)

/-- The result of a function of the whole sequence. -/
def collect (f : Collector) (s : Stream) : Stream := .run (.collect f [] s)

/-- The sequences that a function makes of the items. -/
def flatMap (f : Expander) (s : Stream) : Stream := .run (.outer f s)

/-- The first items. -/
def take (n : Nat) (s : Stream) : Stream := .run (.take n s)

/-- A stream, or one that has failed. -/
def orFailed : Except Error Stream → Stream
  | .ok s => s
  | .error e => .failed e

end Stream

/-! ### Hints -/

/-- Bounds for the integers between two bounds. -/
def rangeHint (next last : Int) : SizeHint :=
  if next > last then .exactly 0
  else if last - next + 1 ≤ SizeHint.limit then .exactly (last - next + 1).toNat
  else ⟨SizeHint.limit, none⟩

mutual

/-- The bounds of a cursor. -/
def Cursor.hint : Cursor → Except Error SizeHint
  | .items xs => .ok (.exactly xs.length)
  | .candidates nodes _ _ => .ok (.upTo (some nodes.length))
  | .script _ _ (some n) => .ok (.exactly n)
  | .range next last => .ok (rangeHint next last)
  | .map _ input => streamHint input
  | .filter _ input => (streamHint input).map (.upTo ·.upper)
  | .concat first rest => do return (← streamHint first).append (← streamsHint rest)
  | .take n input => (streamHint input).map (.take n)
  | .convert c input =>
    if c.type.item = .item then do
      return .upTo (← (← streamHint input).upper.mapM (SizeHint.plus c.pending.length))
    else .ok .unknown
  | _ => .ok .unknown

/-- The bounds of a stream. -/
def streamHint : StreamOf Item Cursor → Except Error SizeHint
  | ⟨ahead, status⟩ => statusHint ahead.length status

/-- The bounds of a stream with so many items ahead. -/
def statusHint (ahead : Nat) : Status Cursor → Except Error SizeHint
  | .running c => c.hint.map (·.append (.exactly ahead))
  | .done => .ok (.exactly ahead)
  | .failed _ => .ok ⟨ahead, none⟩

/-- The bounds of several streams one after the other. -/
def streamsHint : List (StreamOf Item Cursor) → Except Error SizeHint
  | [] => .ok (.exactly 0)
  | s :: rest => do return (← streamHint s).append (← streamsHint rest)

end

namespace Stream

/-- The bounds of a stream. -/
def hint (s : Stream) : Except Error SizeHint := streamHint s

theorem hint_eq (s : Stream) : s.hint = StreamOf.hint Cursor.hint s := by
  obtain ⟨ahead, status⟩ := s
  cases status <;> rfl

/-- The number of items of a stream, if its bounds determine it. -/
def exactSize? (s : Stream) : Except Error (Option Nat) := s.hint.map (·.size?)

end Stream

end LazyXPath
