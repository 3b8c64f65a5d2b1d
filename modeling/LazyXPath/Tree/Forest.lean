import LazyXPath.Error

/-!
# Forests of nodes

Nodes live in a **forest** and are known by their number. A node is built after everything that is
attached to it, so the nodes attached to a node have smaller numbers and its parent has a greater one;
this is what the recursions below go by. A node may be attached more than once, but its parent is the
first node that it was attached to.

`Forest.stringValue` is the text below an element or a document, and the value of any other node.
-/

namespace LazyXPath

/-- The kinds of nodes. -/
inductive NodeKind where
  | document
  | element
  | attr
  | text
  | comment
  | instruction
  | space
deriving DecidableEq, Inhabited

/-- The item type of a kind of nodes. -/
def NodeKind.itemType : NodeKind → ItemType
  | document => .documentNode
  | element => .elementNode
  | attr => .attributeNode
  | text => .textNode
  | comment => .commentNode
  | instruction => .instructionNode
  | space => .namespaceNode

/-- The name of a node, as it is written. -/
structure NodeName where
  mark : Option String
  localPart : String
  space : Option String
deriving DecidableEq, Inhabited

/-- The number of a node in its forest. -/
abbrev NodeId := Nat

/-- A node. -/
structure Node where
  kind : NodeKind
  name : Option NodeName := none
  value : Option String := none
  attrs : List NodeId := []
  spaces : List NodeId := []
  children : List NodeId := []
  parent : Option NodeId := none
deriving Inhabited

namespace Node

/-- The nodes attached to a node: attributes, then namespaces, then children. -/
def attached (n : Node) : List NodeId := n.attrs ++ n.spaces ++ n.children

end Node

/-- Nodes by number. -/
structure Forest where
  nodes : Array Node := #[]
deriving Inhabited

namespace Forest

/-- The number of nodes. -/
def size (f : Forest) : Nat := f.nodes.size

/-- The node with a number. -/
def node (f : Forest) (n : NodeId) : Node := f.nodes[n]?.getD default

/-- The kind of a node. -/
def kind (f : Forest) (n : NodeId) : NodeKind := (f.node n).kind

/-- Makes a node the parent of another one that has none yet. -/
def adopt (parent : NodeId) (f : Forest) (child : NodeId) : Forest :=
  ⟨f.nodes.modify child fun n => { n with parent := n.parent.or (some parent) }⟩

/-- Adds a node and becomes the parent of what is attached to it. -/
def add (f : Forest) (n : Node) : NodeId × Forest :=
  let id := f.size
  (id, n.attached.foldl (adopt id) ⟨f.nodes.push n⟩)

/-! ### Views -/

/-- The texts of the text nodes below a node, going down through elements only. -/
def textBelow (f : Forest) (n : NodeId) : List String :=
  (f.node n).children.flatMap fun c =>
    match f.kind c with
    | .text => [(f.node c).value.getD ""]
    | .element => if _h : c < n then textBelow f c else []
    | _ => []
termination_by n

/-- The string value of a node. -/
def stringValue (f : Forest) (n : NodeId) : String :=
  match f.kind n with
  | .element | .document => String.join (f.textBelow n)
  | _ => (f.node n).value.getD ""

/-- The nodes from a root down to a node. -/
def ancestry (f : Forest) (n : NodeId) : List NodeId :=
  match (f.node n).parent with
  | none => [n]
  | some p => if _h : n < p ∧ p < f.size then ancestry f p ++ [n] else [n]
termination_by f.size - n
decreasing_by exact Nat.sub_lt_sub_left (Nat.lt_trans _h.1 _h.2) _h.1

/-- The URI that a prefix stands for at a node: the namespace nodes of the node come first, then those
of its ancestors. -/
def lookupSpace (f : Forest) (n : NodeId) (mark : String) : Option String :=
  (f.ancestry n).reverse.findSome? fun a =>
    ((f.node a).spaces.find? fun s => ((f.node s).name.bind (·.mark)) == some mark).bind
      fun s => (f.node s).value

/-- The nodes of a tree, each with its address, in the order of a walk: a node, its attributes, its
namespaces, its children. -/
def walk (f : Forest) (n : NodeId) (address : String) : List (NodeId × String) :=
  let below (mark : String) (ids : List NodeId) : List (NodeId × String) :=
    ids.zipIdx.flatMap fun (c, i) =>
      if _h : c < n then walk f c (address ++ "/" ++ mark ++ toString i) else []
  (n, address) ::
    (below "@" (f.node n).attrs ++ below "\x23" (f.node n).spaces ++ below "" (f.node n).children)
termination_by n

/-- The nodes of the given trees with their addresses; a node that is met again keeps its first
address. -/
def addresses (f : Forest) (roots : List NodeId) : List (NodeId × String) :=
  let all := roots.zipIdx.flatMap fun (r, i) => f.walk r (toString i)
  (all.foldl (fun kept p => if kept.any (·.1 == p.1) then kept else p :: kept) []).reverse

end Forest

/-! ### Building forests -/

/-- A description of a tree. -/
inductive Tree where
  | document (children : List Tree)
  | element (name : String) (attrs spaces : List (String × String)) (children : List Tree)
  | attr (name value : String)
  | space (mark uri : String)
  | text (value : String)
  | comment (value : String)
  /-- The root of an earlier tree. -/
  | shared (index : Nat)

instance : Inhabited Tree := ⟨.document []⟩

namespace Forest

/-- A name in no namespace. -/
def simpleName (s : String) : NodeName := ⟨none, s, none⟩

/-- An attribute. -/
def addAttr (f : Forest) (p : String × String) : NodeId × Forest :=
  f.add { kind := .attr, name := some (simpleName p.1), value := some p.2 }

/-- A namespace. -/
def addSpace (f : Forest) (p : String × String) : NodeId × Forest :=
  f.add { kind := .space, name := some ⟨some p.1, p.1, none⟩, value := some p.2 }

/-- Adds nodes one after the other. -/
def addEach {α : Type} (add : Forest → α → NodeId × Forest) (f : Forest) : List α → List NodeId × Forest
  | [] => ([], f)
  | a :: as =>
    let (id, f) := add f a
    let (ids, f) := addEach add f as
    (id :: ids, f)

mutual

/-- Builds a tree; `roots` are the roots of the earlier trees. -/
def build (roots : List NodeId) (f : Forest) : Tree → NodeId × Forest
  | .document children =>
    let (ids, f) := buildEach roots f children
    f.add { kind := .document, children := ids }
  | .element name attrs spaces children =>
    let (attrs, f) := addEach addAttr f attrs
    let (spaces, f) := addEach addSpace f spaces
    let (children, f) := buildEach roots f children
    f.add { kind := .element, name := some (simpleName name), attrs, spaces, children }
  | .attr name value => f.addAttr (name, value)
  | .space mark uri => f.addSpace (mark, uri)
  | .text value => f.add { kind := .text, value := some value }
  | .comment value => f.add { kind := .comment, value := some value }
  | .shared index => (roots[index]?.getD 0, f)

/-- Builds trees one after the other. -/
def buildEach (roots : List NodeId) (f : Forest) : List Tree → List NodeId × Forest
  | [] => ([], f)
  | t :: ts =>
    let (id, f) := build roots f t
    let (ids, f) := buildEach roots f ts
    (id :: ids, f)

end

/-- The forest of the given trees, with their roots. -/
def ofTrees (trees : List Tree) : Forest × List NodeId :=
  trees.foldl (fun (f, roots) t =>
    let (id, f) := build roots f t
    (f, roots ++ [id])) ({}, [])

end Forest

end LazyXPath
