import LazyXPath.Sort.Drift
import LazyXPath.Tree.Forest

/-!
# Document order and axes

Nodes of one tree are in **document order**: an ancestor comes before its descendants, and otherwise
the order is that of the two branches at the last common ancestor, where attributes come before
namespaces and namespaces before children. Nodes of different trees have no order.

An **axis** leads from a node to other nodes, of which a **node test** keeps some.
-/

namespace LazyXPath

namespace Forest

/-- The number of positions from the front at which two lists agree. -/
def commonLength : List NodeId → List NodeId → Nat
  | a :: as, b :: bs => if a = b then commonLength as bs + 1 else 0
  | _, _ => 0

/-- The order of two nodes attached to the same node. -/
def compareSiblings (f : Forest) (parent a b : NodeId) : Ordering :=
  let siblings := (f.node parent).attached
  match siblings.idxOf? a, siblings.idxOf? b with
  | some i, some j => Ord.compare i j
  | _, _ => .eq

/-- The document order of two nodes. -/
def compareOrder (f : Forest) (a b : NodeId) : Except Error Ordering :=
  if a = b then .ok .eq
  else
    let p := f.ancestry a
    let q := f.ancestry b
    let n := commonLength p q
    if n = min p.length q.length then .ok (Ord.compare p.length q.length)
    else
      match n, p[n]?, q[n]? with
      | k + 1, some x, some y => .ok (f.compareSiblings (p[k]?.getD a) x y)
      | _, _, _ => .error .unrelatedNodes

/-- The root of the tree of a node. -/
def root (f : Forest) (n : NodeId) : NodeId := (f.ancestry n).headD n

/-- Drops each node that is equal to the one before it. -/
def dropRepeated : List NodeId → List NodeId
  | a :: b :: rest => if a = b then dropRepeated (b :: rest) else a :: dropRepeated (b :: rest)
  | ns => ns

/-- The nodes of one tree in document order, each once. The sort learns that nodes belong to different trees when it
asks about two of them, which it then takes for equal. -/
def sorted (f : Forest) (ns : List NodeId) : Except Error (List NodeId) :=
  match (Drift.sort ns).record f.compareOrder none with
  | (none, _) => .error .noTotalOrder
  | (some _, some e) => .error e
  | (some ms, none) => .ok (dropRepeated ms)

end Forest

/-! ### Axes -/

/-- The axes. -/
inductive Axis where
  | child
  | attr
  | itself
  | parent
  | descendant
  | descendantOrSelf
deriving DecidableEq, Inhabited

/-- The kind of the nodes that names and wildcards speak of. -/
def Axis.principalKind : Axis → NodeKind
  | attr => .attr
  | _ => .element

/-- The node tests. -/
inductive NodeTest where
  | any
  | kind (k : NodeKind)
  | wildcard
  | localName (localPart : String)
  | name (n : Name)
deriving DecidableEq, Inhabited

/-- Whether a node passes a test on an axis with the given principal kind. -/
def NodeTest.accepts (f : Forest) (principal : NodeKind) (test : NodeTest) (n : NodeId) : Bool :=
  let node := f.node n
  match test with
  | any => true
  | kind k => node.kind == k
  | wildcard => node.kind == principal
  | localName l => node.kind == principal && node.name.any (·.localPart == l)
  | name q =>
    node.kind == principal && node.name.any fun m => m.localPart == q.localPart && m.space == q.space

end LazyXPath
