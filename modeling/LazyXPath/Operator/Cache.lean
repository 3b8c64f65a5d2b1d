import LazyXPath.Operator.Resolve

/-!
# The operator cache

A cache remembers the functions that were built for operators, by operator and operand types. Entries
are kept in the order in which they came in and are never removed; a resolution that fails leaves the
cache as it was.

Each function is built at a place of its own. The place tells it from every other one, even from one that
was built for the same operator and computes the same (`Built`).
-/

namespace LazyXPath

/-- An operator with the types of its operands. -/
inductive OperatorKey where
  | arithmetic (op : ArithmeticOp) (left right : ItemType)
  | unary (op : UnaryOp) (operand : ItemType)
  | comparison (op : ComparisonOp) (left right : ItemType)
deriving DecidableEq

/-- What a function that is built for an operator computes. -/
inductive Operator where
  | arithmetic (rule : ArithmeticRule)
  | unary (rule : UnaryRule)
  | comparison (rule : ComparisonRule)
deriving DecidableEq

/-- What a function for an operator has to compute. -/
def OperatorKey.resolve : OperatorKey → Except Error Operator
  | arithmetic op l r => return .arithmetic (← ArithmeticRule.resolve op l r)
  | unary op t => .ok (.unary (.resolve op t))
  | comparison op l r => return .comparison (← ComparisonRule.resolve op l r)

/-- A function that was built, and the place that it has been given. -/
structure Built (α : Type) where
  place : Nat
  rule : α
deriving DecidableEq

/-- The operators resolved so far. -/
structure OperatorCache where
  entries : List (OperatorKey × Built Operator) := []
  /-- How many functions have been built; the next one is given this place. -/
  built : Nat := 0
deriving Inhabited

namespace OperatorCache

/-- The empty cache. -/
def empty : OperatorCache := {}

/-- The number of entries. -/
def size (c : OperatorCache) : Nat := c.entries.length

/-- Whether there are no entries. -/
def isEmpty (c : OperatorCache) : Bool := c.entries.isEmpty

/-- The function remembered for a key. -/
def find? (c : OperatorCache) (key : OperatorKey) : Option (Built Operator) := c.entries.lookup key

/-- Adds an entry with a function that is built for it. -/
def insert (c : OperatorCache) (key : OperatorKey) (op : Operator) : OperatorCache :=
  ⟨c.entries ++ [(key, ⟨c.built, op⟩)], c.built + 1⟩

/-- Resolves an operator through the cache: the function that was built for it before, or else a new one. -/
def resolve (c : OperatorCache) (key : OperatorKey) : Except Error (Built Operator) × OperatorCache :=
  match c.find? key with
  | some f => (.ok f, c)
  | none =>
    match key.resolve with
    | .ok op => (.ok ⟨c.built, op⟩, c.insert key op)
    | .error e => (.error e, c)

/-- Resolves an arithmetic operator through the cache. -/
def resolveArithmetic (c : OperatorCache) (op : ArithmeticOp) (l r : ItemType) :
    Except Error (Built ArithmeticRule) × OperatorCache :=
  match c.resolve (.arithmetic op l r) with
  | (.ok ⟨place, .arithmetic rule⟩, c) => (.ok ⟨place, rule⟩, c)
  | (.ok _, c) => (.error .operatorEntryMismatch, c)
  | (.error e, c) => (.error e, c)

/-- Resolves a sign through the cache. -/
def resolveUnary (c : OperatorCache) (op : UnaryOp) (t : ItemType) :
    Except Error (Built UnaryRule) × OperatorCache :=
  match c.resolve (.unary op t) with
  | (.ok ⟨place, .unary rule⟩, c) => (.ok ⟨place, rule⟩, c)
  | (.ok _, c) => (.error .operatorEntryMismatch, c)
  | (.error e, c) => (.error e, c)

/-- Resolves a comparison through the cache. -/
def resolveComparison (c : OperatorCache) (op : ComparisonOp) (l r : ItemType) :
    Except Error (Built ComparisonRule) × OperatorCache :=
  match c.resolve (.comparison op l r) with
  | (.ok ⟨place, .comparison rule⟩, c) => (.ok ⟨place, rule⟩, c)
  | (.ok _, c) => (.error .operatorEntryMismatch, c)
  | (.error e, c) => (.error e, c)

/-- Resolves an arithmetic operator for two values and applies it. -/
def arithmetic (c : OperatorCache) (op : ArithmeticOp) (a b : Atomic) :
    Except Error Atomic × OperatorCache :=
  let (f, c) := c.resolveArithmetic op a.itemType b.itemType
  (f.bind (·.rule.apply a b), c)

/-- Resolves a sign for a value and applies it. -/
def unary (c : OperatorCache) (op : UnaryOp) (a : Atomic) : Except Error Atomic × OperatorCache :=
  let (f, c) := c.resolveUnary op a.itemType
  (f.bind (·.rule.apply a), c)

/-- Resolves a comparison for two values and applies it. -/
def compare (c : OperatorCache) (op : ComparisonOp) (a b : Atomic) :
    Except Error Bool × OperatorCache :=
  let (f, c) := c.resolveComparison op a.itemType b.itemType
  (f.bind (·.rule.apply a b), c)

end OperatorCache

end LazyXPath
