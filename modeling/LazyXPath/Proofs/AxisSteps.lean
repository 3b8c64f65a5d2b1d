import LazyXPath.Proofs.Evaluation
import LazyXPath.Proofs.PathOrder
import Mathlib.Data.List.Flatten
import Mathlib.Logic.Relation

/-!
# Axis steps

Where each node is attached once, the walk of a tree meets whatever is attached to a node, so that the branches of a
node are the nodes attached to it (`Forest.Built.branches_eq`). The recursive walk along the children is then a part of
the walk of the tree (`Forest.Built.walk_sublist`), and what any axis leads to is in document order
(`Axis.increasing_nodes`).

The cursors of a step do not look at the world: one goes along a list, and the other one keeps a stack of nodes to visit,
onto which it puts the children of the node that it takes. They deliver the same nodes in any circumstances, also if
everything changes between two steps (`Delivers.free_shows`).
-/

namespace LazyXPath

open scoped List

/-! ### What an axis leads to -/

/-- Whether an axis leads from a node to another one. -/
def Axis.Leads (axis : Axis) (f : Forest) (n m : NodeId) : Prop :=
  match axis with
  | child => m ∈ (f.node n).children
  | attr => m ∈ (f.node n).attrs
  | itself => m = n
  | parent => (f.node n).parent = some m
  | descendant => Relation.TransGen (fun p c => c ∈ (f.node p).children) n m
  | descendantOrSelf => Relation.ReflTransGen (fun p c => c ∈ (f.node p).children) n m

namespace Forest

variable {f : Forest} {n m r : NodeId}

/-- What is attached to a node of the tree with the given root is attached there once and nowhere else. -/
def AttachedOnce (f : Forest) (r : NodeId) : Prop :=
  ∀ p, f.root p = r → (f.node p).attached.Nodup ∧
    ∀ c ∈ (f.node p).attached, ∀ q, c ∈ (f.node q).attached → q = p

theorem Built.grounded (hf : f.Built) : f.Grounded :=
  fun _ _ hc => hf.lt_of_mem_attached (List.mem_append_right _ hc)

/-- The recursion of the walk along the children. -/
theorem Grounded.descendants_eq_flatMap (hg : f.Grounded) (n : NodeId) :
    f.descendants n = (f.node n).children.flatMap fun c => c :: f.descendants c :=
  hg.descendants_eq n

/-- The walk along the children meets the nodes that are reached by child links. -/
theorem Grounded.mem_descendants_iff (hg : f.Grounded) :
    m ∈ f.descendants n ↔ Relation.TransGen (fun p c => c ∈ (f.node p).children) n m := by
  induction n using Nat.strong_induction_on with
  | _ n ih =>
    rw [hg.descendants_eq_flatMap, List.mem_flatMap, Relation.TransGen.head'_iff]
    refine exists_congr fun c => and_congr_right fun hc => ?_
    rw [List.mem_cons, Relation.reflTransGen_iff_eq_or_transGen, ih c (hg n c hc)]

end Forest

/-- What an axis leads to, as a list and as a relation. -/
theorem Axis.mem_nodes_iff {f : Forest} (hg : f.Grounded) (axis : Axis) {n m : NodeId} :
    m ∈ axis.nodes f n ↔ axis.Leads f n m := by
  cases axis with
  | child | attr => rfl
  | itself => exact List.mem_singleton
  | parent => simp [nodes, Leads]
  | descendant => exact hg.mem_descendants_iff
  | descendantOrSelf =>
    rw [nodes, Leads, List.mem_cons, Relation.reflTransGen_iff_eq_or_transGen, hg.mem_descendants_iff]

/-! ### Document order -/

private theorem eraseDups_eq_self_of_nodup {l : List NodeId} (h : l.Nodup) : l.eraseDups = l := by
  induction l with
  | nil => rfl
  | cons a l ih =>
    obtain ⟨ha, hl⟩ := List.nodup_cons.mp h
    have hfilter : (l.filter fun b => !(b == a)) = l := List.filter_eq_self.mpr fun b hb => by
      have hne : b ≠ a := fun hba => ha (hba ▸ hb)
      simpa using hne
    rw [List.eraseDups_cons, hfilter, ih hl]

namespace Forest

variable {f : Forest} {n c : NodeId}

namespace AttachedOnce

variable (hone : f.AttachedOnce (f.root n)) (hf : f.Built)

include hone hf

private theorem parent_eq (hc : c ∈ (f.node n).attached) : (f.node c).parent = some n := by
  refine hf.parent_eq_some_iff.mpr ⟨hc, fun q hq hcq => ?_⟩
  exact hq.ne ((hone n rfl).2 c hc q hcq)

private theorem root_eq (hc : c ∈ (f.node n).attached) : f.root c = f.root n :=
  hf.root_of_parent (hone.parent_eq hf hc)

private theorem branches_eq : f.branches n = (f.node n).attached := by
  have hfilter : ((f.node n).attached.filter fun c => (f.node c).parent = some n) = (f.node n).attached :=
    List.filter_eq_self.mpr fun c hc => decide_eq_true (hone.parent_eq hf hc)
  rw [branches, hfilter, eraseDups_eq_self_of_nodup (hone n rfl).1]

private theorem attached_sublist : (f.node n).attached.Sublist (f.preorder n) := by
  rw [hf.preorder_eq, hone.branches_eq hf]
  refine .cons n ?_
  calc (f.node n).attached
    _ = (f.node n).attached.flatMap fun c => [c] := by simp
    _ <+ (f.node n).attached.flatMap f.preorder := List.Sublist.flatMap_right _ fun c _ =>
      List.singleton_sublist.mpr (hf.self_mem_preorder c)

end AttachedOnce

/-- The walk along the children is a part of the walk of the tree. -/
theorem AttachedOnce.walk_sublist (hone : f.AttachedOnce (f.root n)) (hf : f.Built) :
    (n :: f.descendants n).Sublist (f.preorder n) := by
  induction n using Nat.strong_induction_on with
  | _ n ih =>
    rw [hf.preorder_eq, hone.branches_eq hf, hf.grounded.descendants_eq_flatMap]
    refine .cons_cons n ?_
    calc (f.node n).children.flatMap (fun c => c :: f.descendants c)
      _ <+ (f.node n).attached.flatMap (fun c => c :: f.descendants c) :=
        (List.sublist_append_right _ _).flatMap _
      _ <+ (f.node n).attached.flatMap f.preorder := List.Sublist.flatMap_right _ fun c hc =>
        ih c (hf.lt_of_mem_attached hc) (by rwa [hone.root_eq hf hc])

private theorem Built.increasing_of_sublist (hf : f.Built) {ns : List NodeId} (h : ns.Sublist (f.preorder n)) :
    f.Increasing ns :=
  ((hf.pairwise_preorder n).sublist h).imp And.left

private theorem Increasing.nodup {ns : List NodeId} (h : f.Increasing ns) : ns.Nodup := by
  refine List.Pairwise.imp ?_ h
  rintro a b hab rfl
  rw [compareOrder_self] at hab
  cases hab

end Forest

/-- What an axis leads to is in document order. -/
theorem Axis.increasing_nodes {f : Forest} (hf : f.Built) {n : NodeId} (hone : f.AttachedOnce (f.root n))
    (axis : Axis) : f.Increasing (axis.nodes f n) := by
  cases axis with
  | child => exact hf.increasing_of_sublist ((List.sublist_append_right _ _).trans (hone.attached_sublist hf))
  | attr =>
    refine hf.increasing_of_sublist (.trans ?_ (hone.attached_sublist hf))
    exact (List.sublist_append_left _ _).trans (List.sublist_append_left _ _)
  | itself => exact List.pairwise_singleton _ _
  | parent =>
    rw [nodes]
    cases (f.node n).parent with
    | none => exact .nil
    | some p => exact List.pairwise_singleton _ _
  | descendant => exact hf.increasing_of_sublist ((List.sublist_cons_self _ _).trans (hone.walk_sublist hf))
  | descendantOrSelf => exact hf.increasing_of_sublist (hone.walk_sublist hf)

/-! ### Whatever happens in between -/

/-- Anything may happen at any time, and steps change nothing. -/
def Regime.free (W : Type) : Regime W where
  Situation := W
  world := id
  Valid _ := True
  evolves _ _ := True
  drift _ _ := True
  effect := Eq
  settled _ := True
  evolves_refl _ := trivial
  evolves_trans _ _ := trivial
  drift_trans _ _ := trivial
  effect_trans := Eq.trans
  evolves_of_drift _ := trivial
  evolves_of_effect _ := trivial
  drift_of_valid _ := trivial
  drift_of_effect _ := trivial
  effect_of_drift _ := rfl
  valid_of_drift _ _ := trivial
  settled_of_evolves _ _ := trivial

private theorem Regime.free_permits {W : Type} (m : W → W) : (Regime.free W).Permits m :=
  fun w _ => ⟨m w, trivial, rfl⟩

/-- What is delivered in any circumstances is shown under every schedule. -/
theorem Delivers.free_shows {env : Environment} {s : Stream} {xs : List Item} {w : World} {depth : Nat}
    (h : Delivers (Regime.free (World × Nat)) (streamPull env) (w, depth) s xs) :
    (∀ moves, (Run.complete xs).Allows (play (Engine.ofDepth env (depth + 1)).step moves s w).1) ∧
      ∀ moves : Nat → World → World, ∃ k, (play (Engine.ofDepth env (depth + 1)).step
        ((List.range k).map moves) s w).1.filter Outcome.isReport = xs.map Outcome.item ++ [.done] := by
  have allows (moves : List (World → World)) :
      (Run.complete xs).Allows (play (Engine.ofDepth env (depth + 1)).step moves s w).1 := by
    rw [play_step_eq]
    exact (h.delivering trivial).play_allows fun m _ => Regime.free_permits m
  refine ⟨allows, fun moves => ?_⟩
  obtain ⟨k, hdone⟩ := h.play_ends trivial trivial fun i => Regime.free_permits fun p => (moves i p.1, p.2)
  obtain ⟨m, os, hos, hno⟩ := exists_first_done hdone
  have hshown := allows ((List.range m).map moves)
  have hmoves : (play (Engine.ofDepth env (depth + 1)).step ((List.range m).map moves) s w).1 = os ++ [.done] := by
    rw [play_step_eq, List.map_map]
    exact hos
  rw [hmoves] at hshown
  exact ⟨m, hmoves ▸ hshown.filter_isReport hno⟩

/-! ### Steps -/

/-- A step shows what its axis leads to, whatever happens in between, and evaluating it changes nothing. -/
theorem axisStep_shows (env : Environment) (scope : Scope) {n : NodeId} (hg : env.forest.Grounded)
    (hn : scope.contextItem = .ok (.node n)) (axis : Axis) (test : NodeTest) (depth : Nat) (w : World) :
    let ns := (axis.nodes env.forest n).filter (test.accepts env.forest axis.principalKind)
    ∃ s, evaluate env (.ofDepth env (depth + 1)) scope (.axisStep axis test) w = (s, w) ∧
      (∀ moves, (Run.complete (ns.map .node)).Allows
        (play (Engine.ofDepth env (depth + 1)).step moves s w).1) ∧
      ∀ moves : Nat → World → World, ∃ k, (play (Engine.ofDepth env (depth + 1)).step
        ((List.range k).map moves) s w).1.filter Outcome.isReport =
          ns.map (fun m => .item (.node m)) ++ [.done] := by
  obtain ⟨s, hs, hd⟩ := axisStream_delivers hg axis test hn (F := Regime.free (World × Nat)) (w, depth)
  obtain ⟨allows, ends⟩ := hd.free_shows
  refine ⟨s, ?_, allows, fun moves => ?_⟩
  · simp only [evaluate, hs]
    rfl
  · obtain ⟨k, hk⟩ := ends moves
    exact ⟨k, by rw [hk, Axis.step, List.map_map]; rfl⟩

/-- **A step enumerates its axis.** Let the context item be a node of a tree in which each node is attached once. Then
the step along an axis shows, whatever happens in between, the nodes that the axis leads to and that pass the test, each
once and in strictly ascending document order, and then the end. Evaluating it changes nothing. Below a node, the walk
with a stack shows what the recursive walk along the children gives. -/
theorem axisStep_enumerates (env : Environment) (scope : Scope) {n : NodeId} (hf : env.forest.Built)
    (hone : env.forest.AttachedOnce (env.forest.root n)) (hn : scope.contextItem = .ok (.node n)) (axis : Axis)
    (test : NodeTest) :
    let ns := (axis.nodes env.forest n).filter (test.accepts env.forest axis.principalKind)
    (∀ m, m ∈ ns ↔ axis.Leads env.forest n m ∧ test.accepts env.forest axis.principalKind m = true) ∧
      ns.Nodup ∧ env.forest.Increasing ns ∧
      (∀ m, env.forest.descendants m =
        (env.forest.node m).children.flatMap fun c => c :: env.forest.descendants c) ∧
      ∀ depth w, ∃ s, evaluate env (.ofDepth env (depth + 1)) scope (.axisStep axis test) w = (s, w) ∧
        (∀ moves, (Run.complete (ns.map .node)).Allows
          (play (Engine.ofDepth env (depth + 1)).step moves s w).1) ∧
        ∀ moves : Nat → World → World, ∃ k, (play (Engine.ofDepth env (depth + 1)).step
          ((List.range k).map moves) s w).1.filter Outcome.isReport =
            ns.map (fun m => .item (.node m)) ++ [.done] := by
  intro ns
  have hg : env.forest.Grounded := hf.grounded
  have hincreasing : env.forest.Increasing ns := (axis.increasing_nodes hf hone).sublist List.filter_sublist
  refine ⟨fun m => ?_, hincreasing.nodup, hincreasing, hg.descendants_eq_flatMap,
    axisStep_shows env scope hg hn axis test⟩
  rw [List.mem_filter, axis.mem_nodes_iff hg]

/-- A document with an element that has an attribute, a namespace and children of two kinds. -/
def documentTrees : List Tree :=
  [.document [.element "a" [("k", "v")] [("p", "u")] [.text "x", .element "b" [] [] [.comment "c"]]]]

theorem axisStep_enumerates_document :
    let f := (Forest.ofTrees documentTrees).1
    let scope := (Scope.root default).withFocus (.single (.node 6))
    f.Built ∧ f.AttachedOnce (f.root 6) ∧ scope.contextItem = .ok (.node 6) ∧
      f.Increasing [6, 5, 2, 4, 3] ∧
      ∃ s, evaluate ⟨f, {}⟩ (.ofDepth ⟨f, {}⟩ 1) scope (.axisStep .descendantOrSelf .any) {} = (s, {}) ∧
        ∃ k, (play (Engine.ofDepth ⟨f, {}⟩ 1).step ((List.range k).map fun _ => id) s {}).1.filter
          Outcome.isReport = [6, 5, 2, 4, 3].map (fun m => .item (.node m)) ++ [.done] := by
  intro f scope
  have hf : f.Built := by
    refine Forest.built_ofTrees documentTrees fun i hi => ?_
    obtain rfl := Nat.lt_one_iff.mp hi
    simp [documentTrees, Tree.SharesBelow, sharesBelow]
  have hone : f.AttachedOnce (f.root 6) := by
    intro p _
    -- nothing is attached to numbers that are not given to nodes
    have hsize : f.size = 7 := by decide +kernel
    have few : ∀ p < 7, (f.node p).attached.Nodup ∧
        ∀ c ∈ (f.node p).attached, ∀ q < 7, c ∈ (f.node q).attached → q = p := by decide +kernel
    by_cases hp : p < 7
    · refine ⟨(few p hp).1, fun c hc q hcq => ?_⟩
      by_cases hq : q < 7
      · exact (few p hp).2 c hc q hq hcq
      · rw [Forest.attached_of_size_le (hsize ▸ Nat.le_of_not_lt hq)] at hcq
        cases hcq
    · rw [Forest.attached_of_size_le (hsize ▸ Nat.le_of_not_lt hp)]
      exact ⟨.nil, fun c hc => absurd hc List.not_mem_nil⟩
  have hnodes : (Axis.descendantOrSelf.nodes f 6).filter
      (NodeTest.any.accepts f Axis.descendantOrSelf.principalKind) = [6, 5, 2, 4, 3] := by decide +kernel
  obtain ⟨-, -, hincreasing, -, hsteps⟩ :=
    axisStep_enumerates ⟨f, {}⟩ scope hf hone rfl .descendantOrSelf .any
  obtain ⟨s, hs, -, ends⟩ := hsteps 0 {}
  rw [hnodes] at hincreasing ends
  exact ⟨hf, hone, rfl, hincreasing, s, hs, ends fun _ => id⟩

end LazyXPath
