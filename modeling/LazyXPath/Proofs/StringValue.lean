import LazyXPath.Proofs.AxisSteps
import LazyXPath.Tree.Memo

/-!
# String values

The string value of an element or a document is put together by going down through the elements. Below a node without
documents this goes to all text nodes: whatever else is met on the way has nothing attached
(`Forest.Bare.textBelow_eq`). The texts are therefore those of the text nodes on the descendant axis.

What a node remembers is its string value (`TextMemo.Fresh`). This lasts when a string value is asked for, and when
a node is added, since that leaves alone what is attached to the nodes that are there (`Forest.stringValue_add`). The
histories of a forest are all sequences of the two (`TextMemo.History`).
-/

namespace LazyXPath

namespace Forest

variable {f : Forest} {m : Node} {n : NodeId}

/-! ### Texts and descendants -/

/-- Only elements and documents have nodes attached. -/
def Bare (f : Forest) : Prop :=
  ∀ n, (f.node n).attached = [] ∨ f.kind n = .element ∨ f.kind n = .document

/-- Nothing is below a node that is neither an element nor a document. -/
private theorem Bare.children_eq_nil (hf : f.Bare) (helement : f.kind n ≠ .element)
    (hdocument : f.kind n ≠ .document) :
    (f.node n).children = [] := by
  obtain hnil | hkind | hkind := hf n
  · exact (List.append_eq_nil_iff.mp hnil).2
  · exact absurd hkind helement
  · exact absurd hkind hdocument

/-- The values of the text nodes among the given ones. -/
def textValues (f : Forest) (ns : List NodeId) : List String :=
  (ns.filter fun n => f.kind n = .text).map fun n => (f.node n).value.getD ""

/-- Texts are collected branch by branch. -/
private theorem textValues_flatMap (f : Forest) (g : NodeId → List NodeId) (ns : List NodeId) :
    f.textValues (ns.flatMap g) = ns.flatMap fun n => f.textValues (g n) := by
  rw [textValues, List.filter_flatMap, List.map_flatMap]
  rfl

/-- Below a node without documents, the texts are those of the text nodes on the descendant axis. -/
theorem Bare.textBelow_eq (hf : f.Bare) (hg : f.Grounded)
    (hdocument : ∀ d ∈ f.descendants n, f.kind d ≠ .document) :
    f.textBelow n = f.textValues (f.descendants n) := by
  induction n using Nat.strong_induction_on with
  | _ n ih =>
    rw [textBelow, hg.descendants_eq_flatMap, textValues_flatMap]
    refine List.flatMap_congr fun c hc => ?_
    have hbelow : ∀ d ∈ c :: f.descendants c, d ∈ f.descendants n := fun d hd => by
      rw [hg.descendants_eq_flatMap]
      exact List.mem_flatMap.mpr ⟨c, hc, hd⟩
    have hchild := hdocument c (hbelow c List.mem_cons_self)
    by_cases helement : f.kind c = .element
    · have hc' := ih c (hg n c hc) fun d hd => hdocument d (hbelow d (List.mem_cons_of_mem c hd))
      simp [helement, hg n c hc, hc', textValues]
    · -- nothing is below the child, and it counts if it is a text node
      have hleaf : f.descendants c = [] := by
        rw [hg.descendants_eq_flatMap, hf.children_eq_nil helement hchild, List.flatMap_nil]
      cases hkind : f.kind c <;> simp_all [textValues]

/-- The string value of an element or a document is made of the texts on its descendant axis. -/
private theorem Bare.stringValue_eq (hf : f.Bare) (hg : f.Grounded)
    (hkind : f.kind n = .element ∨ f.kind n = .document)
    (hdocument : ∀ d ∈ f.descendants n, f.kind d ≠ .document) :
    f.stringValue n = String.join (f.textValues (f.descendants n)) := by
  rw [← hf.textBelow_eq hg hdocument]
  obtain hkind | hkind := hkind <;> simp only [stringValue, hkind]

/-! ### Added nodes -/

/-- A new node does not change the kinds of those that are there. -/
private theorem kind_add (hm : f.Accepts m) (n : NodeId) :
    (f.add m).2.kind n = if n = f.size then m.kind else f.kind n := by
  rw [kind, node_add hm.attached]
  split
  · rfl
  · split <;> rfl

private theorem value_add (hm : f.Accepts m) (hn : n < f.size) : ((f.add m).2.node n).value = (f.node n).value := by
  rw [node_add hm.attached, if_neg (Nat.ne_of_lt hn)]
  split <;> rfl

private theorem children_add (hm : f.Accepts m) (hn : n < f.size) :
    ((f.add m).2.node n).children = (f.node n).children := by
  rw [node_add hm.attached, if_neg (Nat.ne_of_lt hn)]
  split <;> rfl

/-- A node that may be added keeps a forest bare. -/
private theorem Bare.add (hf : f.Bare) (hm : f.Accepts m) : (f.add m).2.Bare := by
  intro n
  rw [attached_add hm.attached, kind_add hm]
  split
  · exact hm.bare
  · exact hf n

/-- The texts below a node stay what they were when a node is added. -/
theorem textBelow_add (hg : f.Grounded) (hm : f.Accepts m) (hn : n < f.size) :
    (f.add m).2.textBelow n = f.textBelow n := by
  induction n using Nat.strong_induction_on with
  | _ n ih =>
    rw [textBelow, textBelow, children_add hm hn]
    refine List.flatMap_congr fun c hc => ?_
    have hcn := hg n c hc
    have hlt := hcn.trans hn
    simp only [kind_add hm, if_neg (Nat.ne_of_lt hlt), value_add hm hlt, ih c hcn hlt]

theorem stringValue_add (hg : f.Grounded) (hm : f.Accepts m) (hn : n < f.size) :
    (f.add m).2.stringValue n = f.stringValue n := by
  simp only [stringValue, kind_add hm, if_neg (Nat.ne_of_lt hn), value_add hm hn, textBelow_add hg hm hn]

end Forest

namespace TextMemo

variable {r : TextMemo} {m : Node} {n : NodeId}

/-! ### What is remembered -/

/-- Each node has a place for its text, and a text that is there is the string value of the node. -/
structure Fresh (r : TextMemo) : Prop where
  size : r.texts.size = r.forest.size
  text : ∀ {n t}, r.texts[n]? = some (some t) → t = r.forest.stringValue n

/-- At first nothing is remembered. -/
private theorem fresh_ofForest (f : Forest) : (ofForest f).Fresh where
  size := Array.size_replicate
  text h := by simp [ofForest, Array.getElem?_replicate] at h

/-- What is remembered of the nodes that are there stays right, and of the new one there is nothing. -/
private theorem Fresh.add (hr : r.Fresh) (hg : r.forest.Grounded) (hm : r.forest.Accepts m) :
    (r.add m).2.Fresh where
  size := by simp [TextMemo.add, Forest.size_add, hr.size]
  text {n t} h := by
    simp only [TextMemo.add, Array.getElem?_push] at h
    split at h
    case isTrue => cases h
    case isFalse =>
      have hn : n < r.forest.size := hr.size ▸ (Array.getElem?_eq_some_iff.mp h).1
      exact (hr.text h).trans (Forest.stringValue_add hg hm hn).symm

/-- What asking can do: a text that is remembered is handed out, and otherwise the string value, which may be remembered
from then on. -/
theorem ask_cases (r : TextMemo) (n : NodeId) :
    (∃ t, r.texts[n]? = some (some t) ∧ r.ask n = (t, r)) ∨
      r.ask n = (r.forest.stringValue n, r) ∨
      r.ask n = (r.forest.stringValue n,
        { r with texts := r.texts.setIfInBounds n (some (r.forest.stringValue n)) }) := by
  cases hkind : r.forest.kind n with
  | element | document =>
    simp only [ask, Forest.stringValue, hkind]
    split
    case h_1 t ht => exact .inl ⟨t, Option.join_eq_some_iff.mp ht, rfl⟩
    case h_2 => exact .inr (.inr rfl)
  | attr | text | comment | instruction | space =>
    exact .inr (.inl (by simp only [ask, Forest.stringValue, hkind]))

@[simp] theorem forest_ask (r : TextMemo) (n : NodeId) : (r.ask n).2.forest = r.forest := by
  obtain ⟨t, -, h⟩ | h | h := r.ask_cases n <;> rw [h]

namespace Fresh

/-- The answer is the string value, remembered or not. -/
private theorem ask_eq (hr : r.Fresh) (n : NodeId) : (r.ask n).1 = r.forest.stringValue n := by
  obtain ⟨t, ht, h⟩ | h | h := r.ask_cases n
  · rw [h]
    exact hr.text ht
  · rw [h]
  · rw [h]

/-- What is remembered after an answer is that answer. -/
private theorem ask (hr : r.Fresh) (n : NodeId) : (r.ask n).2.Fresh := by
  obtain ⟨t, -, h⟩ | h | h := r.ask_cases n
  · rwa [h]
  · rwa [h]
  · rw [h]
    refine ⟨Array.size_setIfInBounds.trans hr.size, fun {k t} hk => ?_⟩
    rw [Array.getElem?_setIfInBounds] at hk
    split at hk
    case isTrue heq =>
      split at hk
      case isTrue =>
        cases hk
        rw [heq]
      case isFalse => cases hk
    case isFalse => exact hr.text hk

end Fresh

/-! ### Histories -/

/-- What can become of a forest that is built node by node, with string values asked for at any time, and the answers
so far. -/
inductive History : TextMemo → List (NodeId × String) → Prop
  | empty : History {} []
  | add {r : TextMemo} {m : Node} {answers : List (NodeId × String)} :
      History r answers → r.forest.Accepts m → History (r.add m).2 answers
  | ask {r : TextMemo} {n : NodeId} {answers : List (NodeId × String)} :
      History r answers → n < r.forest.size → History (r.ask n).2 (answers ++ [(n, (r.ask n).1)])

/-- What holds throughout a history. -/
structure Consistent (r : TextMemo) (answers : List (NodeId × String)) : Prop where
  built : r.forest.Built
  bare : r.forest.Bare
  fresh : r.Fresh
  answered : ∀ {n t}, (n, t) ∈ answers → n < r.forest.size ∧ t = r.forest.stringValue n

variable {answers : List (NodeId × String)}

/-- Everything that holds of a history holds after a node is added. -/
private theorem Consistent.add (h : r.Consistent answers) (hm : r.forest.Accepts m) :
    (r.add m).2.Consistent answers where
  built := h.built.add hm.parent hm.attached
  bare := h.bare.add hm
  fresh := h.fresh.add h.built.grounded hm
  answered hmem := by
    obtain ⟨hn, ht⟩ := h.answered hmem
    refine ⟨?_, ht.trans (Forest.stringValue_add h.built.grounded hm hn).symm⟩
    exact (Nat.lt_succ_of_lt hn).trans_eq (Forest.size_add m).symm

/-- And after an answer, which is the string value of the node from then on. -/
private theorem Consistent.ask (h : r.Consistent answers) (hn : n < r.forest.size) :
    (r.ask n).2.Consistent (answers ++ [(n, (r.ask n).1)]) where
  built := by rw [forest_ask]; exact h.built
  bare := by rw [forest_ask]; exact h.bare
  fresh := h.fresh.ask n
  answered hmem := by
    rw [forest_ask]
    obtain hmem | hmem := List.mem_append.mp hmem
    · exact h.answered hmem
    · cases List.mem_singleton.mp hmem
      exact ⟨hn, h.fresh.ask_eq n⟩

/-- By induction on the history. -/
private theorem History.consistent (h : r.History answers) : r.Consistent answers := by
  induction h with
  | empty =>
    refine ⟨.empty, fun n => .inl (Forest.attached_of_size_le (Nat.zero_le n)), ?_, fun hmem => nomatch hmem⟩
    exact fresh_ofForest {}
  | add _ hm ih => exact ih.add hm
  | ask _ hn ih => exact ih.ask hn

/-- A history goes on with the answer that the forest has for a node. -/
theorem History.answered (h : r.History answers) (f : Forest) (n : NodeId) (hr : r.forest = f) (hn : n < f.size) :
    ∃ r' : TextMemo, r'.History (answers ++ [(n, f.stringValue n)]) ∧ r'.forest = f := by
  subst hr
  refine ⟨(r.ask n).2, ?_, forest_ask r n⟩
  rw [← h.consistent.fresh.ask_eq n]
  exact h.ask hn

/-- Where nothing has been asked for, a node that is added leaves it so. -/
private theorem add_ofForest (f : Forest) (m : Node) : ((ofForest f).add m).2 = ofForest (f.add m).2 := by
  simp [TextMemo.add, ofForest, Forest.size_add, Array.replicate_succ]

/-- The forests of described trees have a history. -/
theorem History.ofTrees (trees : List Tree)
    (hshares : ∀ i (hi : i < trees.length), (trees.get ⟨i, hi⟩).SharesBelow i) :
    History (ofForest (Forest.ofTrees trees).1) [] := by
  refine Forest.Lasts.ofTrees (P := fun f => History (ofForest f) []) (fun f m hf hm => ?_) .empty trees hshares
  have hadd := hf.add hm
  rwa [add_ofForest] at hadd

/-- **The string value** of an element or a document without documents below it is what the text nodes on its
descendant axis say, in the order in which a step along this axis shows them. It does not matter when it is asked for
and how often: all answers are the string values of the nodes, now and after nodes have been added. -/
theorem stringValue_semantics {r : TextMemo} {answers : List (NodeId × String)} (h : r.History answers) :
    (∀ n t, (n, t) ∈ answers → t = r.forest.stringValue n) ∧
    (∀ n, (r.ask n).1 = r.forest.stringValue n) ∧
    ∀ n, (r.forest.kind n = .element ∨ r.forest.kind n = .document) →
      let ns := Axis.descendant.nodes r.forest n
      (∀ d ∈ ns, r.forest.kind d ≠ .document) →
      r.forest.stringValue n = String.join (r.forest.textValues ns) ∧
      ∀ (env : Environment) (scope : Scope) (depth : Nat) (w : World),
        env.forest = r.forest → scope.contextItem = .ok (.node n) →
        ∃ s, evaluate env (.ofDepth env (depth + 1)) scope (.axisStep .descendant .any) w = (s, w) ∧
          (∀ moves, (Run.complete (ns.map .node)).Allows
            (play (Engine.ofDepth env (depth + 1)).step moves s w).1) ∧
          ∀ moves : Nat → World → World, ∃ k, (play (Engine.ofDepth env (depth + 1)).step
            ((List.range k).map moves) s w).1.filter Outcome.isReport =
              ns.map (fun d => .item (.node d)) ++ [.done] := by
  obtain ⟨hbuilt, hbare, hfresh, hanswered⟩ := h.consistent
  refine ⟨fun n t hmem => (hanswered hmem).2, hfresh.ask_eq, ?_⟩
  intro n hkind ns hdocument
  refine ⟨hbare.stringValue_eq hbuilt.grounded hkind hdocument, fun env scope depth w henv hn => ?_⟩
  obtain ⟨forest, registry⟩ := env
  subst henv
  have hall : ns.filter (NodeTest.any.accepts r.forest Axis.descendant.principalKind) = ns :=
    List.filter_eq_self.mpr fun _ _ => rfl
  have hshows := axisStep_shows ⟨r.forest, registry⟩ scope hbuilt.grounded hn .descendant .any depth w
  rwa [hall] at hshows

/-- A document over an element with texts, a comment and an element that is attached twice. -/
def textTrees : List Tree :=
  [.element "b" [] [] [.text "2"],
    .document [.element "a" [("k", "v")] [] [.text "1", .shared 0, .comment "c", .text "3", .shared 0]]]

theorem stringValue_semantics_shared :
    let f := (Forest.ofTrees textTrees).1
    let scope := (Scope.root default).withFocus (.single (.node 7))
    ∃ (r : TextMemo) (answers : List (NodeId × String)), r.History answers ∧ r.forest = f ∧
      answers = [(1, "2"), (7, "1232"), (7, "1232"), (4, "c")] ∧
      (∀ n t, (n, t) ∈ answers → t = f.stringValue n) ∧
      f.kind 7 = .document ∧ (∀ d ∈ [6, 3, 1, 0, 4, 5, 1, 0], f.kind d ≠ .document) ∧
      f.stringValue 7 = String.join (f.textValues [6, 3, 1, 0, 4, 5, 1, 0]) ∧
      scope.contextItem = .ok (.node 7) ∧
      ∃ s, evaluate ⟨f, {}⟩ (.ofDepth ⟨f, {}⟩ 1) scope (.axisStep .descendant .any) {} = (s, {}) ∧
        ∃ k, (play (Engine.ofDepth ⟨f, {}⟩ 1).step ((List.range k).map fun _ => id) s {}).1.filter
          Outcome.isReport = [6, 3, 1, 0, 4, 5, 1, 0].map (fun d => .item (.node d)) ++ [.done] := by
  intro f scope
  have hbuilt : History (ofForest f) [] := by
    refine History.ofTrees textTrees fun i hi => ?_
    match i, hi with
    | 0, _ | 1, _ => simp [textTrees, Tree.SharesBelow, sharesBelow]
  have hsize : f.size = 8 := by decide +kernel
  obtain ⟨r₁, h₁, hr₁⟩ := hbuilt.answered f 1 rfl (hsize ▸ by decide)
  obtain ⟨r₂, h₂, hr₂⟩ := h₁.answered f 7 hr₁ (hsize ▸ by decide)
  obtain ⟨r₃, h₃, hr₃⟩ := h₂.answered f 7 hr₂ (hsize ▸ by decide)
  obtain ⟨r₄, h₄, hr₄⟩ := h₃.answered f 4 hr₃ (hsize ▸ by decide)
  obtain ⟨hanswers, -, hvalue⟩ := stringValue_semantics h₄
  rw [hr₄] at hanswers hvalue
  have hnodes : Axis.descendant.nodes f 7 = [6, 3, 1, 0, 4, 5, 1, 0] := by decide +kernel
  have hkind : f.kind 7 = .document := by decide +kernel
  have hdocument : ∀ d ∈ [6, 3, 1, 0, 4, 5, 1, 0], f.kind d ≠ .document := by decide +kernel
  obtain ⟨hjoin, hshows⟩ := hvalue 7 (.inr hkind) (by rwa [hnodes])
  obtain ⟨s, hs, -, ends⟩ := hshows ⟨f, {}⟩ scope 0 {} rfl rfl
  rw [hnodes] at hjoin ends
  exact ⟨r₄, _, h₄, hr₄, by decide +kernel, hanswers, hkind, hdocument, hjoin, rfl, s, hs, ends fun _ => id⟩

end TextMemo

end LazyXPath
