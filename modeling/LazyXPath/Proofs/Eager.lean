import LazyXPath.Evaluate
import Mathlib.Data.List.Forall2

/-!
# Eager evaluation

`eager` evaluates an expression to a complete list in one go: every subexpression to a list, from left
to right, and nothing at all if one of them fails. There are no streams, no buffers, no cache and no
suspensions. Values that arrive later are given as if they had arrived.

* Truth values decide conjunctions, disjunctions, conditionals and predicates (`Item.truth?`). Both sides
  of a conjunction or disjunction are evaluated, and of a conditional the branch that is taken.
* Operands of operators are sequences of at most one atomic value (`operand?`). If one is missing, the
  result is empty.
* Bindings are lists, and a focus is an item with its position counted from one.

Calls of functions are not among the expressions that are evaluated.
-/

namespace LazyXPath

/-- What an expression sees of its surroundings. -/
structure Context where
  value? : Name → Option (List Item)
  /-- The context item and its position. -/
  focus : Option (Item × Nat)

namespace Context

/-- Binds a variable. -/
def bind (ctx : Context) (x : Name) (xs : List Item) : Context :=
  { ctx with value? := fun y => if x = y then some xs else ctx.value? y }

/-- Puts the focus on an item. -/
def focusOn (ctx : Context) (x : Item) (position : Nat) : Context :=
  { ctx with focus := some (x, position) }

end Context

/-! ### Truth values and operands -/

/-- The truth value of a sequence, at a position if it is that of a predicate. -/
def Item.truth? (position : Option Nat) : List Item → Option Bool
  | [] => some false
  | .node _ :: _ => some true
  | [.atomic v] => (v.predicateTruth position).toOption
  | _ => none

/-- The item of a sequence of at most one item. -/
def single? {α : Type} : List α → Option (Option α)
  | [] => some none
  | [x] => some (some x)
  | _ => none

/-- What a function makes of two operands, one of which may be missing. -/
def ofBoth {α : Type} (f : α → α → Option (List Item)) : Option α → Option α → Option (List Item)
  | some a, some b => f a b
  | _, _ => some []

/-- The integers between two bounds. -/
def integersBetween (first last : Int) : List Item :=
  (List.range (last + 1 - first).toNat).map fun (i : Nat) => .ofInt (first + i)

/-- The integers between two items. -/
def integers? (a b : Item) : Option (List Item) := do
  let first ← a.integer?.filter Calendar.fitsLong
  let last ← b.integer?.filter Calendar.fitsLong
  return integersBetween first last

/-- The result of an arithmetic operator. -/
def arithmetic? (op : ArithmeticOp) (a b : Atomic) : Option (List Item) := do
  let rule ← (ArithmeticRule.resolve op a.itemType b.itemType).toOption
  let v ← (rule.apply a b).toOption
  return [.atomic v]

/-- The result of a comparison. -/
def comparison? (op : ComparisonOp) (a b : Atomic) : Option (List Item) := do
  let rule ← (ComparisonRule.resolve op a.itemType b.itemType).toOption
  let v ← (rule.apply a b).toOption
  return [.ofBool v]

/-- The result of a sign. -/
def sign? (op : UnaryOp) (a : Atomic) : Option (List Item) := do
  let v ← ((UnaryRule.resolve op a.itemType).apply a).toOption
  return [.atomic v]

/-- The results of a function for the items of a list, one after the other. -/
def forEach {α : Type} (xs : List α) (f : α → Option (List Item)) : Option (List Item) :=
  (xs.mapM f).map List.flatten

/-! ### Axes -/

/-- The nodes below a node, in document order. -/
def Forest.descendants (f : Forest) (n : NodeId) : List NodeId :=
  (f.node n).children.flatMap fun c => if _h : c < n then c :: descendants f c else []
termination_by n

/-- The nodes that an axis leads to. -/
def Axis.nodes (axis : Axis) (f : Forest) (n : NodeId) : List NodeId :=
  match axis with
  | child => (f.node n).children
  | attr => (f.node n).attrs
  | itself => [n]
  | parent => (f.node n).parent.toList
  | descendant => f.descendants n
  | descendantOrSelf => n :: f.descendants n

/-- The nodes that a step leads to. -/
def Axis.step (axis : Axis) (f : Forest) (test : NodeTest) (n : NodeId) : List Item :=
  ((axis.nodes f n).filter (test.accepts f axis.principalKind)).map .node

/-! ### Expressions -/

section

variable (forest : Forest) (values : List (DeferredId × Except Error (List Item)))

/-- The operand that a sequence is. -/
def operand? (xs : List Item) : Option (Option Atomic) := do
  let vs ← (Item.atomizeAll forest xs).toOption
  single? vs

/-- The bound of a range that a sequence is. -/
def bound? (xs : List Item) : Option (Option Item) := do
  let ys ← (Item.convertAll forest ⟨.integer, .optional⟩ xs).toOption
  single? ys

mutual

/-- The value of an expression in a context. -/
def eager (ctx : Context) (e : Expr) : Option (List Item) :=
  match e with
  | .literal v => some [.atomic v]
  | .sequence parts => eagerAll ctx parts
  | .range first last => do
    let xs ← eager ctx first
    let ys ← eager ctx last
    ofBoth integers? (← bound? forest xs) (← bound? forest ys)
  | .contextItem => ctx.focus.map fun (x, _) => [x]
  | .varRef x => ctx.value? x
  | .arithmetic op left right => do
    let xs ← eager ctx left
    let ys ← eager ctx right
    ofBoth (arithmetic? op) (← operand? forest xs) (← operand? forest ys)
  | .sign op operand => do
    match ← operand? forest (← eager ctx operand) with
    | some a => sign? op a
    | none => some []
  | .comparison op left right => do
    let xs ← eager ctx left
    let ys ← eager ctx right
    ofBoth (comparison? op) (← operand? forest xs) (← operand? forest ys)
  | .conjunction left right => do
    let a ← Item.truth? none (← eager ctx left)
    let b ← Item.truth? none (← eager ctx right)
    return [.ofBool (a && b)]
  | .disjunction left right => do
    let a ← Item.truth? none (← eager ctx left)
    let b ← Item.truth? none (← eager ctx right)
    return [.ofBool (a || b)]
  | .conditional condition yes no => do
    if ← Item.truth? none (← eager ctx condition) then eager ctx yes else eager ctx no
  | .letIn x value body => do
    let xs ← eager ctx value
    eager (ctx.bind x xs) body
  | .forIn x source body => do
    let xs ← eager ctx source
    forEach xs fun y => eager (ctx.bind x [y]) body
  | .simpleMap left right => do
    let xs ← eager ctx left
    forEach (xs.zipIdx 1) fun (x, i) => eager (ctx.focusOn x i) right
  | .filter base predicate => do
    let xs ← eager ctx base
    forEach (xs.zipIdx 1) fun (x, i) => do
      let b ← Item.truth? (some i) (← eager (ctx.focusOn x i) predicate)
      return if b then [x] else []
  | .path base step => do
    let xs ← eager ctx base
    let ys ← forEach (xs.zipIdx 1) fun (x, i) =>
      if x.isNode then eager (ctx.focusOn x i) step else none
    (Item.inDocumentOrder forest ys).toOption
  | .axisStep axis test =>
    match ctx.focus with
    | some (.node n, _) => some (axis.step forest test n)
    | _ => none
  | .deferred d | .host _ (.deferred d) => (values.lookup d).bind Except.toOption
  | .items xs => some xs
  | _ => none

/-- The values of several expressions, one after the other. -/
def eagerAll (ctx : Context) : List Expr → Option (List Item)
  | [] => some []
  | e :: es => do
    let xs ← eager ctx e
    let ys ← eagerAll ctx es
    return xs ++ ys

end

variable {forest values}

private theorem eagerAll_eq_some {ctx : Context} {es : List Expr} {xs : List Item}
    (h : eagerAll forest values ctx es = some xs) : ∃ xss,
      List.Forall₂ (fun e xs => eager forest values ctx e = some xs) es xss ∧ xss.flatten = xs := by
  induction es generalizing xs with
  | nil =>
    rw [eagerAll] at h
    cases h
    exact ⟨[], .nil, rfl⟩
  | cons e es ih =>
    rw [eagerAll] at h
    obtain ⟨ys, hys, h⟩ := Option.bind_eq_some_iff.mp h
    obtain ⟨zs, hzs, h⟩ := Option.bind_eq_some_iff.mp h
    cases h
    obtain ⟨zss, hall, rfl⟩ := ih hzs
    exact ⟨ys :: zss, .cons hys hall, rfl⟩

/-- The value of a sequence of expressions consists of their values. -/
theorem eager_sequence_eq_some {ctx : Context} {parts : List Expr} {xs : List Item}
    (h : eager forest values ctx (.sequence parts) = some xs) : ∃ xss,
      List.Forall₂ (fun e xs => eager forest values ctx e = some xs) parts xss ∧ xss.flatten = xs := by
  rw [eager] at h
  exact eagerAll_eq_some h

end

end LazyXPath
