import LazyXPath.Tree.Forest

/-!
# Remembered texts

The text below an element or a document is put together when it is asked for the first time. The node keeps it and
hands it out from then on. Nodes may be added in between: what is attached to a node is given when it is built, so the
text below it stays what it was.

This module stands beside the evaluation of expressions, which reads `Forest.stringValue` and remembers nothing. The two
give the same texts along every history of a forest, which is shown in `LazyXPath.Proofs.StringValue`.
-/

namespace LazyXPath

/-- A forest whose nodes remember the texts below them. -/
structure TextMemo where
  forest : Forest := {}
  /-- For each node the text below it, once it has been asked for. -/
  texts : Array (Option String) := #[]
deriving Inhabited

namespace TextMemo

/-- A forest in which nothing has been asked for. -/
def ofForest (f : Forest) : TextMemo := ⟨f, Array.replicate f.size none⟩

/-- Adds a node, which remembers nothing yet. -/
def add (r : TextMemo) (m : Node) : NodeId × TextMemo :=
  let (id, f) := r.forest.add m
  (id, ⟨f, r.texts.push none⟩)

/-- The string value of a node: the remembered text of an element or a document, if there is one. -/
def ask (r : TextMemo) (n : NodeId) : String × TextMemo :=
  match r.forest.kind n with
  | .element | .document =>
    match r.texts[n]?.join with
    | some text => (text, r)
    | none =>
      let text := String.join (r.forest.textBelow n)
      (text, { r with texts := r.texts.setIfInBounds n (some text) })
  | _ => ((r.forest.node n).value.getD "", r)

end TextMemo

end LazyXPath
