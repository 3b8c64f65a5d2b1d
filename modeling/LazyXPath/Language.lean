import LazyXPath.Dictionary
import LazyXPath.Operator.Basic
import LazyXPath.Sequence.Outcome
import LazyXPath.Tree.Order

/-!
# Items, expressions and functions

An **item** is a node, an atomic value, a map, an array or a function. An **expression** describes a
sequence of items by way of a context. A **source** describes a sequence that a host application
supplies: items at hand, items that arrive step by step or only later, and sequences derived from
other ones. A **function** has a signature and a way of being called.

Items contain functions, functions contain expressions, and expressions contain items. The types of
expressions and sources are therefore defined over an arbitrary type of items, and the type of items
over an arbitrary type of functions; `Function` ties the knot.
-/

namespace LazyXPath

/-! ### Items -/

/-- Items over a type of functions. Maps have an identity: two maps are the same object only if it is
the same. -/
inductive ItemOf (φ : Type) where
  | node (id : NodeId)
  | atomic (value : Atomic)
  | map (identity : Nat) (entries : Dictionary (List (ItemOf φ)))
  | array (members : List (List (ItemOf φ)))
  | function (f : φ)

/-! ### Callbacks of a host -/

/-- A callback of a host: what it does, how often it has been called, and the call that fails if
there is one. -/
structure Callback (κ : Type) where
  kind : κ
  failAt : Option Nat := none
  calls : Nat := 0

/-- Functions from items to items. -/
inductive MapKind where
  /-- The text of an atomic value. -/
  | text
  /-- An atomic value with the opposite sign. -/
  | negate
  | same
deriving DecidableEq

/-- Functions from whole sequences to sequences. -/
inductive MapAllKind where
  | reverse
  | count
  | same
deriving DecidableEq

/-- Tests of items. -/
inductive FilterKind where
  | all
  | none
  /-- Every other item, from the first one on. -/
  | odd
  | numeric
deriving DecidableEq

/-- Functions from items to sequences. -/
inductive FlatMapKind where
  | one
  | none
  | twice
  /-- The integers from one up to an integer. -/
  | upTo
deriving DecidableEq

/-- Functions of one item from each of several sequences. -/
inductive ZipKind where
  | all
  | count
deriving DecidableEq

/-- Functions of at most one item from each of several sequences. -/
inductive ZipOptionalKind where
  /-- Which of the items are there. -/
  | mask
  /-- The items that are there. -/
  | all
deriving DecidableEq

/-- A step of a scripted source. -/
inductive ScriptStep (ι : Type) where
  | item (x : ι)
  /-- Nothing happens before the value has arrived. -/
  | await (d : DeferredId)
  | fail (e : Error)
  | done

/-! ### Expressions and sources -/

mutual

/-- Expressions over a type of items. -/
inductive ExprOf (ι : Type) where
  | literal (value : Atomic)
  | sequence (parts : List (ExprOf ι))
  | range (first last : ExprOf ι)
  | contextItem
  | varRef (name : Name)
  | arithmetic (op : ArithmeticOp) (left right : ExprOf ι)
  | sign (op : UnaryOp) (operand : ExprOf ι)
  | comparison (op : ComparisonOp) (left right : ExprOf ι)
  | conjunction (left right : ExprOf ι)
  | disjunction (left right : ExprOf ι)
  | conditional (condition yes no : ExprOf ι)
  | letIn (name : Name) (value body : ExprOf ι)
  | forIn (name : Name) (source body : ExprOf ι)
  | simpleMap (left right : ExprOf ι)
  | filter (base predicate : ExprOf ι)
  | path (base step : ExprOf ι)
  | axisStep (axis : Axis) (test : NodeTest)
  /-- An argument that is absent is left open. -/
  | call (name : Name) (arguments : List (Option (ExprOf ι)))
  | functionRef (name : Name) (arity : Nat)
  | dynamicCall (target : ExprOf ι) (arguments : List (Option (ExprOf ι)))
  /-- A value that arrives later. -/
  | deferred (d : DeferredId)
  | items (xs : List ι)
  /-- A sequence supplied by a host; its evaluation is recorded under the label. -/
  | host (label : String) (source : SourceOf ι)
  | failing (e : Error)

/-- Sources over a type of items. -/
inductive SourceOf (ι : Type) where
  | empty
  | one (x : ι)
  | items (xs : List ι)
  /-- Items step by step; each step is recorded under the label. The length is known in advance if it
  is given. -/
  | script (label : String) (steps : List (ScriptStep ι)) (length : Option Nat)
  /-- A sequence that has failed. -/
  | failed (e : Error)
  /-- A description of which no sequence can be made. -/
  | invalid (e : Error)
  | deferred (d : DeferredId)
  | range (first last : Int)
  /-- Another reading of a sequence that can be read repeatedly. -/
  | replay (name : String)
  | expr (e : ExprOf ι)
  | invoke (name : Name) (arguments : List (SourceOf ι))
  | map (f : Callback MapKind) (s : SourceOf ι)
  | mapAll (f : Callback MapAllKind) (s : SourceOf ι)
  | filter (f : Callback FilterKind) (s : SourceOf ι)
  | flatMap (f : Callback FlatMapKind) (s : SourceOf ι)
  | take (n : Nat) (s : SourceOf ι)
  | concat (parts : List (SourceOf ι))
  | atomize (s : SourceOf ι)
  | zip (f : Callback ZipKind) (parts : List (SourceOf ι))
  | zipOptional (f : Callback ZipOptionalKind) (parts : List (SourceOf ι))
  | booleanValue (s : SourceOf ι)
  | predicateTruth (position : Nat) (s : SourceOf ι)
  | convert (type : SequenceType) (s : SourceOf ι)

end

/-! ### Functions -/

/-- The functions of the catalog. -/
inductive Builtin where
  | yes
  | no
  | not
  | boolean
  | empty
  | nonempty
  | count
  | head
  | tail
  | data
  | string
  | stringLength
  | concat
  | abs
  | currentDateTime
  | currentDate
  | currentTime
  | implicitTimezone
  | position
  | last
  | construct (target : ItemType)
deriving DecidableEq

/-- What a function supplied by a host does. -/
inductive BodyOf (ι : Type) where
  | const (xs : List ι)
  | argument (index : Nat)
  | concat
  | argumentCount
  | name
  | fail (e : Error)
  | failed (e : Error)
  /-- One string that describes all items of all arguments. -/
  | describe
  /-- An expression in the context of the caller, with the arguments as variables `1`, `2`, … -/
  | expr (e : ExprOf ι)

/-- The ways of being called. -/
inductive CallableOf (ι φ : Type) where
  | builtin (b : Builtin)
  | hosted (body : BodyOf ι)
  /-- A function some of whose arguments are fixed; they are read from numbered buffers. -/
  | partially (target : φ) (bound : List (Option Nat))
  /-- A choice among functions that is made when the arguments are known. -/
  | overloaded (name : Name) (candidates : List φ)

/-- A function. Two functions are the same object only if their identity is the same. -/
structure Function where
  identity : Nat
  name : Option Name
  signature : Signature
  callable : CallableOf (ItemOf Function) Function

/-- Items. -/
abbrev Item := ItemOf Function

/-- Expressions. -/
abbrev Expr := ExprOf Item

/-- Sources. -/
abbrev Source := SourceOf Item

instance : Inhabited Item := ⟨.node 0⟩

instance : Inhabited Expr := ⟨.contextItem⟩

instance : Inhabited Source := ⟨.empty⟩

namespace Function

/-- The number of declared parameters. -/
def arity (f : Function) : Nat := f.signature.arity

/-- How the function is mentioned in texts. -/
def label (f : Function) : FunctionLabel := ⟨f.name, f.arity⟩

end Function

end LazyXPath
