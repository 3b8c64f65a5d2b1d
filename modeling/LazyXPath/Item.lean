import LazyXPath.Language

/-!
# Items

The dynamic type of an item, its typed value (`Item.atomize`), the string that the function
`fn:string` makes of it, and identity of items. Nodes are looked up in a forest.
-/

namespace LazyXPath

namespace Forest

/-- The typed value of a node: text for comments, processing instructions and namespaces, untyped for
all others. -/
def typedValue (f : Forest) (n : NodeId) : Atomic :=
  match f.kind n with
  | .comment | .instruction | .space => .text .string (f.stringValue n)
  | _ => .text .untypedAtomic (f.stringValue n)

end Forest

namespace ItemOf

/-- An integer item. -/
def ofInt {φ : Type} (i : Int) : ItemOf φ := .atomic (.ofInt i)

/-- A string item. -/
def ofString {φ : Type} (s : String) : ItemOf φ := .atomic (.ofString s)

/-- A boolean item. -/
def ofBool {φ : Type} (b : Bool) : ItemOf φ := .atomic (.boolean b)

/-- Whether an item is the boolean `true`. -/
def isTrue {φ : Type} : ItemOf φ → Bool
  | .atomic (.boolean b) => b
  | _ => false

/-- Whether an item is a node. -/
def isNode {φ : Type} : ItemOf φ → Bool
  | .node _ => true
  | _ => false

/-- The integer that an item is. -/
def integer? {φ : Type} : ItemOf φ → Option Int
  | .atomic a => a.integer?
  | _ => none

/-- The member of an array at a position, counted from one. -/
def member? {α : Type} (members : List α) (position : Int) : Option α :=
  if 1 ≤ position then members[position.toNat - 1]? else none

end ItemOf

namespace Item

/-- The dynamic type of an item. -/
def itemType (f : Forest) : Item → ItemType
  | .node n => (f.kind n).itemType
  | .atomic a => a.itemType
  | .map .. => .map
  | .array _ => .array
  | .function _ => .function

/-- The kind of an item. -/
def kind (f : Forest) : Item → ItemKind
  | .function g => .function g.label
  | x => .ofType (itemType f x)

mutual

/-- The typed value of an item: arrays are flattened, and maps and functions have none. -/
def atomize (f : Forest) : Item → Except Error (List Atomic)
  | .atomic a => .ok [a]
  | .node n => .ok [f.typedValue n]
  | .array members => atomizeMembers f members
  | .map .. => .error .mapAtomized
  | .function g => .error (.functionAtomized g.label)

/-- The typed values of the members of an array. -/
def atomizeMembers (f : Forest) : List (List Item) → Except Error (List Atomic)
  | [] => .ok []
  | m :: ms => do
    let as ← atomizeAll f m
    let bs ← atomizeMembers f ms
    return as ++ bs

/-- The typed values of several items. -/
def atomizeAll (f : Forest) : List Item → Except Error (List Atomic)
  | [] => .ok []
  | x :: xs => do
    let as ← atomize f x
    let bs ← atomizeAll f xs
    return as ++ bs

end

/-- The string value of an item. -/
def stringValue (f : Forest) : Item → Except Error String
  | .node n => .ok (f.stringValue n)
  | .atomic a => .ok a.lexical
  | _ => .error .stringOfNonString

mutual

/-- Whether two items are the same: nodes and functions by identity, atomic values by type and
payload, arrays by their members, and maps by identity. -/
def identical : Item → Item → Bool
  | .node a, .node b => a == b
  | .atomic a, .atomic b => a.identical b
  | .map i _, .map j _ => i == j
  | .array as, .array bs => identicalMembers as bs
  | .function g, .function h => g.identity == h.identity
  | _, _ => false

/-- Whether the members of two arrays are the same. -/
def identicalMembers : List (List Item) → List (List Item) → Bool
  | [], [] => true
  | a :: as, b :: bs => identicalAll a b && identicalMembers as bs
  | _, _ => false

/-- Whether the items of two sequences are the same. -/
def identicalAll : List Item → List Item → Bool
  | [], [] => true
  | a :: as, b :: bs => identical a b && identicalAll as bs
  | _, _ => false

end

/-- A short description of an item other than a function. -/
def display : Item → String
  | .node _ => "<node>"
  | .atomic a => a.lexical
  | .map _ d => "map\x7b" ++ toString d.size ++ " entries\x7d"
  | .array members => "array\x7b" ++ toString members.length ++ " members\x7d"
  | .function g => g.label.display

/-- The nodes of a sequence, if all of its items are nodes. -/
def nodes? : List Item → Option (List NodeId)
  | [] => some []
  | .node n :: rest => (nodes? rest).map (n :: ·)
  | _ :: _ => none

/-- The result of a path in document order: a sequence without nodes stays as it is, nodes of one tree
are sorted and repetitions dropped, and anything else is an error. -/
def inDocumentOrder (f : Forest) (xs : List Item) : Except Error (List Item) :=
  if !xs.any (·.isNode) then .ok xs
  else
    match nodes? xs with
    | none => .error .mixedPath
    | some ns => (f.sorted ns).map (·.map .node)

end Item

end LazyXPath
