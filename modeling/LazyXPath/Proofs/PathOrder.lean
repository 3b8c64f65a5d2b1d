import LazyXPath.Item
import LazyXPath.Proofs.DocumentOrder
import LazyXPath.Proofs.IntegerArithmetic
import LazyXPath.Proofs.Sort.Drift

/-!
# Results of paths

The nodes that a path gives are sorted by a comparison that fails for nodes of different trees. Within a tree nothing
fails, and the result is the increasing sequence of the nodes (`Forest.Built.sorted_of_root_eq`). Nodes of different
trees are always noticed, since a sort asks about two of them (`Inquiry.Sorts.exists_asked_apart`). Yet a failure counts
as equality until the sort is over, and such answers belong to no order: a sort of more than twenty nodes may break off
before it can report the failure.
-/

namespace LazyXPath

/-! ### Dropping repetitions -/

namespace Forest

variable {f : Forest} {a b n : NodeId} {ms ns : List NodeId}

/-- Only repetitions are dropped. -/
private theorem mem_dropRepeated : n ∈ dropRepeated ns ↔ n ∈ ns := by
  induction ns using dropRepeated.induct with
  | case1 a rest ih =>
    rw [dropRepeated, if_pos rfl, ih]
    exact ⟨List.mem_cons_of_mem a, fun h => (List.mem_cons.mp h).elim (fun h => h ▸ List.mem_cons_self) id⟩
  | case2 a b rest hne ih => rw [dropRepeated, if_neg hne, List.mem_cons, ih, ← List.mem_cons]
  | case3 ns hshort => rw [dropRepeated.eq_2 ns hshort]

/-- In strictly ascending document order. -/
def Increasing (f : Forest) (ns : List NodeId) : Prop := ns.Pairwise fun a b => f.compareOrder a b = .ok .lt

/-! ### Comparisons as answers -/

/-- Whether one node comes before another one, for all that a sort is told. -/
def precedes (f : Forest) (a b : NodeId) : Bool := Inquiry.isLess (f.compareOrder a b)

namespace Built

/-- Within a tree, a sort is told the order of places. -/
private theorem precedes_of_root_eq (hf : f.Built) (h : f.root a = f.root b) :
    f.precedes a b = decide (f.position a < f.position b) := by
  rw [precedes, hf.compareOrder_of_root_eq h]
  rcases lt_trichotomy (f.position a) (f.position b) with hlt | heq | hgt
  · rw [Nat.compare_eq_lt.mpr hlt, decide_eq_true hlt]
    rfl
  · rw [Nat.compare_eq_eq.mpr heq, decide_eq_false heq.not_lt]
    rfl
  · rw [Nat.compare_eq_gt.mpr hgt, decide_eq_false hgt.not_gt]
    rfl

/-- A comparison fails exactly between trees. -/
private theorem failure?_compareOrder (hf : f.Built) :
    Inquiry.failure? (f.compareOrder a b) = if f.root a = f.root b then none else some .unrelatedNodes := by
  split
  case isTrue h => rw [hf.compareOrder_of_root_eq h, Inquiry.failure?]
  case isFalse h => rw [compareOrder_of_root_ne h, Inquiry.failure?]

/-- What a sort is told about nodes fails if one of its questions is about two trees, and only then. -/
theorem record_compareOrder (hf : f.Built) {β : Type} (p : Inquiry NodeId β) :
    p.record f.compareOrder none = (p.answer f.precedes,
      if ∀ q ∈ p.asked f.precedes, f.root q.1 = f.root q.2 then none else some .unrelatedNodes) := by
  have hfind : ∀ l : List (NodeId × NodeId), (l.findSome? fun q => Inquiry.failure? (f.compareOrder q.1 q.2)) =
      if ∀ q ∈ l, f.root q.1 = f.root q.2 then none else some .unrelatedNodes := by
    intro l
    induction l with
    | nil => simp
    | cons q l ih =>
      rw [List.findSome?_cons, ih, hf.failure?_compareOrder]
      by_cases hq : f.root q.1 = f.root q.2 <;>
        simp only [List.forall_mem_cons, hq, if_true, if_false, true_and, false_and]
  exact Prod.ext Inquiry.record_fst (Inquiry.record_snd.trans (hfind _))

/-- In ascending order equal nodes are neighbours, so that what is left is strictly ascending. -/
theorem increasing_dropRepeated (hf : f.Built) (hroot : ∀ a ∈ ns, ∀ b ∈ ns, f.root a = f.root b)
    (h : Inquiry.Ascending f.position ns) : f.Increasing (dropRepeated ns) := by
  induction ns using dropRepeated.induct with
  | case1 a rest ih =>
    rw [dropRepeated, if_pos rfl]
    exact ih (fun c hc d hd => hroot c (List.mem_cons_of_mem a hc) d (List.mem_cons_of_mem a hd)) h.of_cons
  | case2 a b rest hne ih =>
    obtain ⟨ha, hrest⟩ := List.pairwise_cons.mp h
    rw [dropRepeated, if_neg hne]
    refine List.pairwise_cons.mpr ⟨fun c hc => ?_, ih (fun c hc d hd =>
      hroot c (List.mem_cons_of_mem a hc) d (List.mem_cons_of_mem a hd)) hrest⟩
    have hc := mem_dropRepeated.mp hc
    have hab : f.position a ≠ f.position b := mt (hf.position_inj (hroot a (by simp) b (by simp))).mp hne
    have hbc : f.position b ≤ f.position c := by
      obtain rfl | hc := List.mem_cons.mp hc
      · exact le_rfl
      · exact (List.pairwise_cons.mp hrest).1 c hc
    have hlt : f.position a < f.position c := by
      have := ha b List.mem_cons_self
      omega
    rw [hf.compareOrder_of_root_eq (hroot a (by simp) c (List.mem_cons_of_mem a hc)), Nat.compare_eq_lt.mpr hlt]
  | case3 ns hshort =>
    rw [dropRepeated.eq_2 ns hshort]
    match ns, hshort with
    | [], _ => exact .nil
    | [a], _ => exact List.pairwise_singleton _ a
    | a :: b :: rest, hshort => exact absurd rfl (hshort a b rest)

/-- What is known to come before something else is in the same tree. -/
private theorem root_eq_of_lt (h : f.compareOrder a b = .ok .lt) : f.root a = f.root b := by
  by_contra hne
  rw [compareOrder_of_root_ne hne] at h
  cases h

/-- And it has an earlier place there. -/
private theorem position_lt_of_lt (hf : f.Built) (h : f.compareOrder a b = .ok .lt) :
    f.position a < f.position b := by
  rw [hf.compareOrder_of_root_eq (root_eq_of_lt h), Except.ok.injEq] at h
  exact Nat.compare_eq_lt.mp h

/-- Nodes in strictly ascending order are determined by the set of them. -/
theorem eq_of_increasing (hf : f.Built) (hms : f.Increasing ms) (hns : f.Increasing ns)
    (h : ∀ n, n ∈ ms ↔ n ∈ ns) : ms = ns := by
  have hnodup : ∀ {l}, f.Increasing l → l.Nodup := fun hl => hl.imp fun hlt heq => by
    exact absurd (hf.position_lt_of_lt hlt) (heq ▸ lt_irrefl _)
  have hperm : ms.Perm ns := (List.perm_ext_iff_of_nodup (hnodup hms) (hnodup hns)).mpr h
  refine hperm.eq_of_pairwise (fun a b _ _ hab hba => ?_) hms hns
  exact absurd (hf.position_lt_of_lt hab) (hf.position_lt_of_lt hba).asymm

/-- **Nodes of one tree are sorted**, each once. -/
theorem sorted_of_root_eq (hf : f.Built) (hroot : ∀ a ∈ ns, ∀ b ∈ ns, f.root a = f.root b) :
    ∃ ms, f.sorted ns = .ok ms ∧ f.Increasing ms ∧ ∀ n, n ∈ ms ↔ n ∈ ns := by
  have hless : ∀ a ∈ {n | n ∈ ns}, ∀ b ∈ {n | n ∈ ns}, f.precedes a b = decide (f.position a < f.position b) :=
    fun a ha b hb => hf.precedes_of_root_eq (hroot a ha b hb)
  obtain ⟨⟨ms, hms, hperm, hasc⟩, hasked⟩ :=
    (Drift.sort_sorts ns {n | n ∈ ns} f.position fun n hn => hn).answer hless
  refine ⟨dropRepeated ms, ?_, hf.increasing_dropRepeated (fun a ha b hb =>
    hroot a (hperm.mem_iff.mp ha) b (hperm.mem_iff.mp hb)) hasc, fun n => mem_dropRepeated.trans hperm.mem_iff⟩
  have hsame : ∀ q ∈ (Drift.sort ns).asked f.precedes, f.root q.1 = f.root q.2 := fun q hq =>
    hroot _ (hasked q hq).1 _ (hasked q hq).2
  rw [sorted, hf.record_compareOrder, hms, if_pos hsame]

/-- **Nodes of different trees are noticed**, if the sort does not break off. -/
theorem sorted_of_root_ne (hf : f.Built) (ha : a ∈ ns) (hb : b ∈ ns) (hab : f.root a ≠ f.root b) :
    f.sorted ns = .error (if ((Drift.sort ns).answer f.precedes).isSome then .unrelatedNodes else .noTotalOrder) := by
  have hless : ∀ a b, f.root a = f.root b → f.precedes a b = decide (f.position a < f.position b) :=
    fun a b => hf.precedes_of_root_eq
  obtain ⟨q, hq, hapart⟩ := (Drift.sort_sorts ns).exists_asked_apart hless ha hb hab
  rw [sorted, hf.record_compareOrder, if_neg fun hsame => hapart (hsame q hq)]
  cases (Drift.sort ns).answer f.precedes <;> rfl

/-- Up to twenty nodes are sorted by insertion, which does not break off, so that the failure is reported. -/
private theorem sorted_of_root_ne_short (hf : f.Built) (hlength : ns.length ≤ 20) (ha : a ∈ ns) (hb : b ∈ ns)
    (hab : f.root a ≠ f.root b) : f.sorted ns = .error .unrelatedNodes := by
  have hshort : Drift.sort ns = Drift.insertAll [] ns := if_pos hlength
  obtain ⟨zs, hzs⟩ := Drift.exists_answer_insertAll f.precedes ns []
  rw [hf.sorted_of_root_ne ha hb hab, hshort, hzs]
  rfl

end Built

end Forest

/-! ### Sequences of items -/

namespace Item

variable {f : Forest} {xs : List Item} {ns : List NodeId}

private theorem nodes?_map_node (ns : List NodeId) : nodes? (ns.map .node) = some ns := by
  induction ns with
  | nil => rfl
  | cons n ns ih => rw [List.map_cons, nodes?, ih, Option.map_some]

private theorem nodes?_eq_none (h : ∃ x ∈ xs, x.isNode = false) : nodes? xs = none := by
  induction xs with
  | nil => simp at h
  | cons x xs ih =>
    cases x with
    | node n =>
      rw [nodes?, ih (by simpa [ItemOf.isNode] using h), Option.map_none]
    | _ => rfl

/-- A sequence of nodes is sorted. -/
private theorem inDocumentOrder_nodes (ns : List NodeId) :
    inDocumentOrder f (ns.map .node) = (f.sorted ns).map (·.map .node) := by
  cases ns with
  | nil => rfl
  | cons n ns => rw [inDocumentOrder, nodes?_map_node]; rfl

/-- A sequence without nodes is left as it is. -/
private theorem inDocumentOrder_of_not_isNode (h : ∀ x ∈ xs, x.isNode = false) : inDocumentOrder f xs = .ok xs := by
  have hnone : xs.any (·.isNode) = false := by simpa using h
  rw [inDocumentOrder, hnone]
  rfl

/-- Nodes among other items are refused before anything is sorted. -/
private theorem inDocumentOrder_mixed (h : ∃ x ∈ xs, x.isNode = true) (h' : ∃ x ∈ xs, x.isNode = false) :
    inDocumentOrder f xs = .error .mixedPath := by
  have hany : xs.any (·.isNode) = true := List.any_eq_true.mpr h
  rw [inDocumentOrder, hany, nodes?_eq_none h']
  rfl

end Item

/-- **Results of paths are sorted sets.** A sequence without nodes stays as it is, and nodes and other items do not mix.
Nodes of one tree become the strictly increasing sequence of the nodes, which depends on the set of them only and is in
order already. Nodes of different trees are an error: the one for such nodes, unless the sort breaks off, for which it
takes more than twenty nodes. -/
theorem inDocumentOrder_laws {f : Forest} (hf : f.Built) (xs : List Item) :
    ((∀ x ∈ xs, x.isNode = false) → Item.inDocumentOrder f xs = .ok xs) ∧
    ((∃ x ∈ xs, x.isNode = true) → (∃ x ∈ xs, x.isNode = false) →
      FailsWith .XPTY0018 (Item.inDocumentOrder f xs)) ∧
    (∀ ns : List NodeId, xs = ns.map .node → (∃ a ∈ ns, ∃ b ∈ ns, f.root a ≠ f.root b) →
      FailsWith .FOER0000 (Item.inDocumentOrder f xs) ∨
        (Drift.sort ns).answer f.precedes = none ∧ 20 < ns.length ∧
          Item.inDocumentOrder f xs = .error .noTotalOrder) ∧
    (∀ ns : List NodeId, xs = ns.map .node → (∀ a ∈ ns, ∀ b ∈ ns, f.root a = f.root b) →
      ∃ ms : List NodeId, Item.inDocumentOrder f xs = .ok (ms.map .node) ∧
        f.Increasing ms ∧ (∀ n, n ∈ ms ↔ n ∈ ns) ∧
        Item.inDocumentOrder f (ms.map .node) = .ok (ms.map .node) ∧
        ∀ ns' : List NodeId, (∀ n, n ∈ ns' ↔ n ∈ ns) →
          Item.inDocumentOrder f (ns'.map .node) = .ok (ms.map .node)) := by
  refine ⟨Item.inDocumentOrder_of_not_isNode, fun h h' => ?_, ?_, ?_⟩
  · rw [Item.inDocumentOrder_mixed h h']
    exact ⟨_, rfl, rfl⟩
  · rintro ns rfl ⟨a, ha, b, hb, hab⟩
    rw [Item.inDocumentOrder_nodes]
    by_cases hlength : ns.length ≤ 20
    · rw [hf.sorted_of_root_ne_short hlength ha hb hab]
      exact .inl ⟨_, rfl, rfl⟩
    · rw [hf.sorted_of_root_ne ha hb hab]
      cases hanswer : (Drift.sort ns).answer f.precedes with
      | some ms => exact .inl ⟨_, rfl, rfl⟩
      | none => exact .inr ⟨rfl, not_le.mp hlength, rfl⟩
  · rintro ns rfl hroot
    obtain ⟨ms, hms, hincreasing, hmem⟩ := hf.sorted_of_root_eq hroot
    have hset : ∀ ns' : List NodeId, (∀ n, n ∈ ns' ↔ n ∈ ns) →
        Item.inDocumentOrder f (ns'.map .node) = .ok (ms.map .node) := by
      intro ns' hns'
      obtain ⟨ms', hms', hincreasing', hmem'⟩ := hf.sorted_of_root_eq fun a ha b hb =>
        hroot a ((hns' a).mp ha) b ((hns' b).mp hb)
      obtain rfl := hf.eq_of_increasing hincreasing' hincreasing fun n => (hmem' n).trans ((hns' n).trans (hmem n).symm)
      rw [Item.inDocumentOrder_nodes, hms']
      rfl
    exact ⟨ms, hset ns fun n => Iff.rfl, hincreasing, hmem, hset ms hmem, hset⟩

/-- A tree with two texts and a tree with twenty. -/
def twoTrees : List Tree :=
  [.element "a" [] [] (List.replicate 2 (.text "x")), .element "c" [] [] (List.replicate 20 (.text "y"))]

/-- Neither tree shares anything. -/
private theorem built_twoTrees : (Forest.ofTrees twoTrees).1.Built := by
  refine Forest.built_ofTrees twoTrees fun i hi => ?_
  match i, hi with
  | 0, _ | 1, _ => simp [twoTrees, Tree.SharesBelow, sharesBelow]

theorem inDocumentOrder_laws_twoTrees :
    let f := (Forest.ofTrees twoTrees).1
    f.Built ∧ FailsWith .XPTY0018 (Item.inDocumentOrder f [.node 1, .ofInt 7]) ∧
      FailsWith .FOER0000 (Item.inDocumentOrder f ([1, 4, 0].map .node)) ∧
      ∃ ms : List NodeId, Item.inDocumentOrder f ([4, 3, 4].map .node) = .ok (ms.map .node) ∧ f.Increasing ms ∧
        ∀ n, n ∈ ms ↔ n ∈ [4, 3, 4] := by
  intro f
  have hf : f.Built := built_twoTrees
  have hroots : f.root 3 = f.root 4 := by decide +kernel
  have happart : f.root 1 ≠ f.root 4 := by decide +kernel
  obtain ⟨-, hmixed, -, -⟩ := inDocumentOrder_laws hf [.node 1, .ofInt 7]
  obtain ⟨-, -, htrees, -⟩ := inDocumentOrder_laws hf ([1, 4, 0].map .node)
  obtain ⟨-, -, -, htree⟩ := inDocumentOrder_laws hf ([4, 3, 4].map .node)
  obtain ⟨ms, hms, hincreasing, hmem, -⟩ := htree [4, 3, 4] rfl (by simp [hroots])
  refine ⟨hf, hmixed ⟨_, List.mem_cons_self, rfl⟩ ⟨.ofInt 7, by simp, rfl⟩, ?_, ms, hms, hincreasing, hmem⟩
  obtain hfails | ⟨-, hlength, -⟩ := htrees [1, 4, 0] rfl ⟨1, by simp, 4, by simp, happart⟩
  · exact hfails
  · simp at hlength

/-- The texts of the small tree out of order, each before texts of the other tree: the two halves meet nowhere. -/
theorem inDocumentOrder_twoTrees_broken :
    let f := (Forest.ofTrees twoTrees).1
    let ns : List NodeId := [1, 4, 3, 5, 6, 7, 8, 9, 10, 11, 12, 0, 13, 14, 15, 16, 17, 18, 19, 20, 21, 22]
    f.root 0 ≠ f.root 3 ∧ Item.inDocumentOrder f (ns.map .node) = .error .noTotalOrder := by
  intro f ns
  have hroot : f.root 0 ≠ f.root 3 := by decide +kernel
  have hbroken : ((Drift.sort ns).answer f.precedes).isSome = false := by decide +kernel
  refine ⟨hroot, ?_⟩
  rw [Item.inDocumentOrder_nodes, Forest.Built.sorted_of_root_ne built_twoTrees (by decide) (by decide) hroot, hbroken]
  rfl

end LazyXPath
