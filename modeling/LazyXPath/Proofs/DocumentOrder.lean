import LazyXPath.Tree.Order
import Mathlib.Data.List.Basic
import Mathlib.Data.List.Find
import Mathlib.Order.Compare

/-!
# Document order is preorder

A forest is **built** by adding nodes one after the other, each above nodes that are there already.
The parent of a node is then the first node that it was attached to (`Built.parent_eq_some_iff`), and
the parent links cut the forest into trees even where a node is attached in several places. The nodes
below a node, in the order of the attachment lists, each at its first place, are its `branches`, and
`preorder` walks a tree along them.

The order of two nodes is computed from their two paths alone. `Built.pairwise_preorder` says that it
agrees with every walk: whatever comes later on a walk comes later in document order. That a node has
one place on the walk of its tree, and that the order is total there, is read off this.
-/

namespace LazyXPath

/-! ### First places in a list -/

/-- The first place of an element comes before the first place of another one. -/
def FirstBefore (l : List NodeId) (c d : NodeId) : Prop :=
  ∃ i j, l.idxOf? c = some i ∧ l.idxOf? d = some j ∧ i < j

/-- An element is not before itself. -/
private theorem FirstBefore.ne {l : List NodeId} {c d : NodeId} (h : FirstBefore l c d) : c ≠ d := by
  rintro rfl
  obtain ⟨i, j, hi, hj, hij⟩ := h
  exact absurd (Option.some.inj (hi.symm.trans hj)) (Nat.ne_of_lt hij)

/-- The first element is before all others. -/
private theorem FirstBefore.head {l : List NodeId} {c d : NodeId} (hne : c ≠ d) (hd : d ∈ l) :
    FirstBefore (c :: l) c d := by
  obtain ⟨j, hj⟩ := Option.isSome_iff_exists.mp (List.isSome_idxOf?.mpr hd)
  exact ⟨0, j + 1, by simp [List.idxOf?_cons], by simp [List.idxOf?_cons, hne, hj], j.succ_pos⟩

/-- Something else in front does not matter. -/
private theorem FirstBefore.cons {l : List NodeId} {a c d : NodeId} (hc : c ≠ a) (hd : d ≠ a)
    (h : FirstBefore l c d) : FirstBefore (a :: l) c d := by
  obtain ⟨i, j, hi, hj, hij⟩ := h
  refine ⟨i + 1, j + 1, ?_, ?_, Nat.succ_lt_succ hij⟩
  · simp [List.idxOf?_cons, hc.symm, hi]
  · simp [List.idxOf?_cons, hd.symm, hj]

/-- Dropping repetitions keeps what is left in the order of the first places. -/
theorem pairwise_firstBefore_eraseDups (l : List NodeId) (p : NodeId → Bool) :
    (l.filter p).eraseDups.Pairwise (FirstBefore l) := by
  induction l generalizing p with
  | nil => simp
  | cons a l ih =>
    -- an element that is kept further down is not the head, whether the head is kept or not
    have tail : ∀ q : NodeId → Bool, (∀ c, q c → c ≠ a) →
        (l.filter q).eraseDups.Pairwise (FirstBefore (a :: l)) := by
      intro q hq
      refine (ih q).imp_of_mem fun {c d} hc hd h => h.cons ?_ ?_
      · exact hq c (List.mem_filter.mp (List.mem_eraseDups.mp hc)).2
      · exact hq d (List.mem_filter.mp (List.mem_eraseDups.mp hd)).2
    by_cases hp : p a
    · rw [List.filter_cons_of_pos hp, List.eraseDups_cons, List.filter_filter, List.pairwise_cons]
      refine ⟨fun d hd => ?_, tail _ fun c hc => by simpa using (Bool.and_eq_true_iff.mp hc).1⟩
      simp only [List.mem_eraseDups, List.mem_filter, Bool.and_eq_true, Bool.not_eq_true',
        beq_eq_false_iff_ne] at hd
      exact .head hd.2.1.symm hd.1
    · rw [List.filter_cons_of_neg hp]
      exact tail p fun c hc hca => hp (hca ▸ hc)

namespace Forest

variable {f : Forest} {a b c n p : NodeId}

/-! ### Two paths and the order they give -/

/-- A common beginning adds to the common length. -/
private theorem commonLength_append (l s t : List NodeId) :
    commonLength (l ++ s) (l ++ t) = l.length + commonLength s t := by
  induction l with
  | nil => simp
  | cons x l ih => simp [commonLength, ih, Nat.add_right_comm]

/-- A node is in the same place as itself, also in a forest that is not built. -/
theorem compareOrder_self (f : Forest) (a : NodeId) : f.compareOrder a a = .ok .eq :=
  if_pos rfl

/-- A node comes before another one whose path goes on from its own. -/
theorem compareOrder_of_extends {x : NodeId} {s : List NodeId}
    (h : f.ancestry b = f.ancestry a ++ x :: s) :
    f.compareOrder a b = .ok .lt ∧ f.compareOrder b a = .ok .gt := by
  have hlen : (f.ancestry b).length = (f.ancestry a).length + (s.length + 1) := by simp [h]
  have hne : a ≠ b := by
    rintro rfl
    omega
  have hab : commonLength (f.ancestry a) (f.ancestry b) = (f.ancestry a).length := by
    simpa [h, commonLength] using commonLength_append (f.ancestry a) [] (x :: s)
  have hba : commonLength (f.ancestry b) (f.ancestry a) = (f.ancestry a).length := by
    simpa [h, commonLength] using commonLength_append (f.ancestry a) (x :: s) []
  constructor
  · simp only [compareOrder, if_neg hne, hab, hlen, Nat.min_eq_left (Nat.le_add_right _ _), if_pos]
    rw [Nat.compare_eq_lt.mpr (by omega)]
  · simp only [compareOrder, if_neg hne.symm, hba, hlen, Nat.min_eq_right (Nat.le_add_right _ _),
      if_pos]
    rw [Nat.compare_eq_gt.mpr (by omega)]

/-- Nodes whose paths part below a node are ordered as the two branches there. -/
theorem compareOrder_of_part {x y : NodeId} {l s t : List NodeId} (hxy : x ≠ y)
    (ha : f.ancestry a = l ++ n :: x :: s) (hb : f.ancestry b = l ++ n :: y :: t) :
    f.compareOrder a b = .ok (f.compareSiblings n x y) := by
  have hne : a ≠ b := by
    rintro rfl
    rw [ha] at hb
    simp [hxy] at hb
  have hcommon : commonLength (l ++ n :: x :: s) (l ++ n :: y :: t) = l.length + 1 := by
    rw [commonLength_append]
    simp [commonLength, hxy]
  simp [compareOrder, hne, ha, hb, hcommon]

/-- Nodes whose paths begin differently have no order. -/
theorem compareOrder_of_apart {x y : NodeId} {s t : List NodeId} (hxy : x ≠ y)
    (ha : f.ancestry a = x :: s) (hb : f.ancestry b = y :: t) :
    f.compareOrder a b = .error .unrelatedNodes := by
  have hne : a ≠ b := by
    rintro rfl
    rw [ha] at hb
    exact hxy (List.cons.inj hb).1
  simp [compareOrder, hne, ha, hb, commonLength, hxy]

/-- A branch that is attached first comes first. -/
theorem compareSiblings_of_firstBefore {x y : NodeId}
    (h : FirstBefore (f.node n).attached x y) :
    f.compareSiblings n x y = .lt ∧ f.compareSiblings n y x = .gt := by
  obtain ⟨i, j, hi, hj, hij⟩ := h
  simp only [compareSiblings, hi, hj]
  exact ⟨Nat.compare_eq_lt.mpr hij, Nat.compare_eq_gt.mpr hij⟩

/-! ### Built forests -/

/-- The forests that are built by adding nodes one after the other, each above nodes that are there
already and itself without a parent. -/
inductive Built : Forest → Prop
  | empty : Built {}
  | add {f : Forest} {m : Node} (hf : Built f) (hparent : m.parent = none)
      (hattached : ∀ c ∈ m.attached, c < f.size) : Built (f.add m).2

/-- Nothing is attached to a node that is not there. -/
theorem attached_of_size_le (h : f.size ≤ n) : (f.node n).attached = [] := by
  rw [node, Array.getElem?_eq_none h]
  rfl

private theorem parent_of_size_le (h : f.size ≤ n) : (f.node n).parent = none := by
  rw [node, Array.getElem?_eq_none h]
  rfl

/-- A node is put behind all others. -/
private theorem node_push (m : Node) (n : NodeId) :
    node ⟨f.nodes.push m⟩ n = if n = f.size then m else f.node n := by
  by_cases h : n = f.size
  · simp [node, h, size]
  · have h' : ¬ n = f.nodes.size := h
    simp [node, h, h', Array.getElem?_push]

@[simp] theorem size_adopt : (adopt p f c).size = f.size := by
  simp [adopt, size]

/-- Adoption touches one node, and of it only the parent. -/
theorem node_adopt (hc : c < f.size) (n : NodeId) :
    (adopt p f c).node n =
      if n = c then { f.node n with parent := (f.node n).parent.or (some p) } else f.node n := by
  by_cases h : n = c
  · subst h
    have hc' : n < f.nodes.size := hc
    simp only [node, adopt, Array.getElem?_modify, Array.getElem?_eq_getElem hc', Option.map_some,
      Option.getD_some, if_true]
  · simp [node, adopt, Array.getElem?_modify, h, Ne.symm h]

/-- Adopting several nodes gives the parent to each of them that has none. -/
theorem node_foldl_adopt (cs : List NodeId) (hcs : ∀ c ∈ cs, c < f.size) (n : NodeId) :
    (cs.foldl (adopt p) f).node n =
      if n ∈ cs then { f.node n with parent := (f.node n).parent.or (some p) } else f.node n := by
  induction cs generalizing f with
  | nil => simp
  | cons c cs ih =>
    have hc : c < f.size := hcs c List.mem_cons_self
    rw [List.foldl_cons, ih fun d hd => by simpa using hcs d (List.mem_cons_of_mem _ hd),
      node_adopt hc]
    by_cases h : n = c <;> by_cases h' : n ∈ cs <;> simp [h, h']

/-- Adoption makes no nodes. -/
private theorem size_foldl_adopt (cs : List NodeId) : (cs.foldl (adopt p) f).size = f.size := by
  induction cs generalizing f with
  | nil => rfl
  | cons c cs ih => rw [List.foldl_cons, ih, size_adopt]

theorem size_add (m : Node) : (f.add m).2.size = f.size + 1 := by
  rw [add, size_foldl_adopt]
  simp [size]

/-- A new node becomes the parent of the nodes attached to it that have none yet. Everything else stays. -/
theorem node_add {m : Node} (hm : ∀ c ∈ m.attached, c < f.size) (n : NodeId) :
    (f.add m).2.node n =
      if n = f.size then m
      else if n ∈ m.attached then { f.node n with parent := (f.node n).parent.or (some f.size) }
      else f.node n := by
  rw [add, node_foldl_adopt _ fun c hc => ?_, node_push]
  · by_cases hn : n = f.size
    · have : n ∉ m.attached := fun hmem => Nat.lt_irrefl _ (hn ▸ hm n hmem)
      simp [hn ▸ this, hn]
    · simp [hn]
  · simpa [size] using Nat.lt_succ_of_lt (hm c hc)

/-- Attachments are made once, when a node is added. -/
theorem attached_add {m : Node} (hm : ∀ c ∈ m.attached, c < f.size) (n : NodeId) :
    ((f.add m).2.node n).attached = if n = f.size then m.attached else (f.node n).attached := by
  rw [node_add hm]
  split
  · rfl
  · split <;> rfl

/-- The parent of a node is the first one that it is attached to. -/
private theorem parent_add {m : Node} (hparent : m.parent = none) (hm : ∀ c ∈ m.attached, c < f.size)
    (n : NodeId) : ((f.add m).2.node n).parent =
      if n ∈ m.attached then (f.node n).parent.or (some f.size) else (f.node n).parent := by
  rw [node_add hm]
  by_cases hn : n = f.size
  · have : f.size ∉ m.attached := fun hmem => Nat.lt_irrefl _ (hm _ hmem)
    rw [hn, if_pos rfl, if_neg this, hparent, parent_of_size_le (Nat.le_refl _)]
  · rw [if_neg hn]
    split <;> rfl

namespace Built

/-- Nodes are attached to later ones. -/
theorem lt_of_mem_attached (hf : f.Built) (h : c ∈ (f.node n).attached) : c < n := by
  induction hf with
  | empty => simp [attached_of_size_le (f := {}) (Nat.zero_le n)] at h
  | @add f m hf _ hm ih =>
    rw [attached_add hm] at h
    split at h
    case isTrue hn => exact hn ▸ hm c h
    case isFalse => exact ih h

/-- The parent of a node is the first node that it was attached to. -/
theorem parent_eq_find? (hf : f.Built) (c : NodeId) :
    (f.node c).parent = (List.range f.size).find? fun p => c ∈ (f.node p).attached := by
  induction hf with
  | empty => exact parent_of_size_le (Nat.zero_le c)
  | @add f m hf hparent hm ih =>
    -- the earlier nodes hold what they held, and the new one is asked last
    have earlier : ((List.range f.size).find? fun p => c ∈ ((f.add m).2.node p).attached) =
        (List.range f.size).find? fun p => c ∈ (f.node p).attached := by
      refine List.find?_congr fun p hp => ?_
      rw [attached_add hm, if_neg (List.mem_range.mp hp).ne]
    rw [parent_add hparent hm, size_add, List.range_succ, List.find?_append, earlier, ← ih]
    by_cases hc : c ∈ m.attached <;> simp [attached_add hm, hc]

/-- In a built forest the parent of a node is the first node that it is attached to. -/
theorem parent_eq_some_iff (hf : f.Built) {c p : NodeId} :
    (f.node c).parent = some p ↔
      c ∈ (f.node p).attached ∧ ∀ q < p, c ∉ (f.node q).attached := by
  rw [hf.parent_eq_find?, List.find?_range_eq_some]
  simp only [decide_eq_true_eq, List.mem_range, Bool.not_eq_true', decide_eq_false_iff_not]
  refine ⟨fun h => ⟨h.1, h.2.2⟩, fun h => ⟨h.1, ?_, h.2⟩⟩
  by_contra hp
  rw [attached_of_size_le (Nat.le_of_not_lt hp)] at h
  exact List.not_mem_nil h.1

/-- A parent is a node of the forest and comes after its branches. -/
theorem parent_bounds (hf : f.Built) (h : (f.node c).parent = some p) : c < p ∧ p < f.size := by
  obtain ⟨hmem, -⟩ := hf.parent_eq_some_iff.mp h
  refine ⟨hf.lt_of_mem_attached hmem, ?_⟩
  by_contra hp
  rw [attached_of_size_le (Nat.le_of_not_lt hp)] at hmem
  exact List.not_mem_nil hmem

/-- The path to a node goes through its parent. -/
private theorem ancestry_of_parent (hf : f.Built) (h : (f.node c).parent = some p) :
    f.ancestry c = f.ancestry p ++ [c] := by
  rw [ancestry, h]
  exact dif_pos (hf.parent_bounds h)

end Built

/-- The path to a node ends with it. -/
private theorem ancestry_eq_append_self (f : Forest) (n : NodeId) : ∃ l, f.ancestry n = l ++ [n] := by
  rw [ancestry]
  split
  · exact ⟨[], rfl⟩
  · split
    · exact ⟨_, rfl⟩
    · exact ⟨[], rfl⟩

/-- A path begins with the root. -/
theorem ancestry_eq_cons_root (f : Forest) (n : NodeId) : ∃ s, f.ancestry n = f.root n :: s := by
  obtain ⟨l, hl⟩ := f.ancestry_eq_append_self n
  cases l with
  | nil => exact ⟨[], by simp [root, hl]⟩
  | cons x l => exact ⟨l ++ [n], by simp [root, hl]⟩

/-- The path to a root is the root. -/
private theorem ancestry_of_root (h : (f.node n).parent = none) : f.ancestry n = [n] := by
  rw [ancestry, h]

/-- Induction from a root down along the parent links. -/
theorem Built.induction_on_parent (hf : f.Built) {motive : NodeId → Prop}
    (root : ∀ n, (f.node n).parent = none → motive n)
    (branch : ∀ c p, (f.node c).parent = some p → motive p → motive c) (n : NodeId) : motive n := by
  cases h : (f.node n).parent with
  | none => exact root n h
  | some p => exact branch n p h (induction_on_parent hf root branch p)
termination_by f.size - n
decreasing_by
  obtain ⟨h₁, h₂⟩ := hf.parent_bounds h
  exact Nat.sub_lt_sub_left (h₁.trans h₂) h₁

/-! ### The walk of a tree -/

/-- The nodes below a node in its tree: those attached to it that have it as their parent, each at its
first place. -/
def branches (f : Forest) (n : NodeId) : List NodeId :=
  ((f.node n).attached.filter fun c => (f.node c).parent = some n).eraseDups

/-- The nodes of the tree below a node in preorder. -/
def preorder (f : Forest) (n : NodeId) : List NodeId :=
  n :: (f.branches n).flatMap fun c => if _h : c < n then preorder f c else []
termination_by n

/-- The place of a node on the walk of its tree. -/
def position (f : Forest) (n : NodeId) : Nat := (f.preorder (f.root n)).idxOf n

namespace Built

/-- The branches of a node are the nodes whose parent it is. -/
private theorem mem_branches (hf : f.Built) : c ∈ f.branches n ↔ (f.node c).parent = some n := by
  simp only [branches, List.mem_eraseDups, List.mem_filter, decide_eq_true_eq, and_iff_right_iff_imp]
  exact fun h => (hf.parent_eq_some_iff.mp h).1

/-- The walk without its guard: branches are below their node in a built forest. -/
theorem preorder_eq (hf : f.Built) (n : NodeId) :
    f.preorder n = n :: (f.branches n).flatMap f.preorder := by
  rw [preorder]
  congr 1
  refine List.flatMap_congr fun c hc => ?_
  rw [dif_pos (hf.parent_bounds (hf.mem_branches.mp hc)).1]

/-- A walk meets its node and what the walks of the branches meet. -/
private theorem mem_preorder_iff (hf : f.Built) :
    a ∈ f.preorder n ↔ a = n ∨ ∃ c, (f.node c).parent = some n ∧ a ∈ f.preorder c := by
  rw [hf.preorder_eq]
  simp only [List.mem_cons, List.mem_flatMap, hf.mem_branches]

theorem self_mem_preorder (hf : f.Built) (n : NodeId) : n ∈ f.preorder n :=
  hf.mem_preorder_iff.mpr (.inl rfl)

/-- The path of a node on a walk goes on from the path of the node where the walk began. -/
theorem ancestry_of_mem_preorder (hf : f.Built) {n a : NodeId} (h : a ∈ f.preorder n) :
    ∃ s, f.ancestry a = f.ancestry n ++ s := by
  induction n using Nat.strong_induction_on generalizing a with
  | _ n ih =>
    obtain rfl | ⟨c, hc, ha⟩ := hf.mem_preorder_iff.mp h
    · exact ⟨[], by simp⟩
    · obtain ⟨s, hs⟩ := ih c (hf.parent_bounds hc).1 ha
      exact ⟨c :: s, by rw [hs, hf.ancestry_of_parent hc, List.append_assoc]; rfl⟩

/-- A walk that meets a node meets the branches of the node. -/
theorem branch_mem_preorder (hf : f.Built) {n p c : NodeId} (hc : (f.node c).parent = some p)
    (h : p ∈ f.preorder n) : c ∈ f.preorder n := by
  induction n using Nat.strong_induction_on with
  | _ n ih =>
    obtain rfl | ⟨d, hd, hp⟩ := hf.mem_preorder_iff.mp h
    · exact hf.mem_preorder_iff.mpr (.inr ⟨c, hc, hf.self_mem_preorder c⟩)
    · exact hf.mem_preorder_iff.mpr (.inr ⟨d, hd, ih d (hf.parent_bounds hd).1 hp⟩)

/-- What comes later on a walk comes later in document order, and the reverse comparison says so too. -/
theorem pairwise_preorder (hf : f.Built) (n : NodeId) :
    (f.preorder n).Pairwise fun a b =>
      f.compareOrder a b = .ok .lt ∧ f.compareOrder b a = .ok .gt := by
  induction n using Nat.strong_induction_on with
  | _ n ih =>
    -- the path of what is met below the branch `c`
    have path : ∀ {c a}, c ∈ f.branches n → a ∈ f.preorder c →
        ∃ s, f.ancestry a = f.ancestry n ++ c :: s := by
      intro c a hc ha
      obtain ⟨s, hs⟩ := hf.ancestry_of_mem_preorder ha
      exact ⟨s, by rw [hs, hf.ancestry_of_parent (hf.mem_branches.mp hc), List.append_assoc]; rfl⟩
    obtain ⟨l, hl⟩ := f.ancestry_eq_append_self n
    rw [hf.preorder_eq, List.pairwise_cons, List.pairwise_flatMap]
    refine ⟨fun a ha => ?_, fun c hc => ?_, ?_⟩
    · obtain ⟨c, hc, ha⟩ := List.mem_flatMap.mp ha
      obtain ⟨s, hs⟩ := path hc ha
      exact compareOrder_of_extends hs
    · exact ih c (hf.parent_bounds (hf.mem_branches.mp hc)).1
    · refine (pairwise_firstBefore_eraseDups _ _).imp_of_mem fun {c d} hc hd hcd a ha b hb => ?_
      obtain ⟨s, hs⟩ := path hc ha
      obtain ⟨t, ht⟩ := path hd hb
      rw [hl, List.append_assoc] at hs ht
      rw [compareOrder_of_part hcd.ne hs ht, compareOrder_of_part hcd.ne.symm ht hs]
      obtain ⟨hlt, hgt⟩ := compareSiblings_of_firstBefore hcd
      exact ⟨congrArg _ hlt, congrArg _ hgt⟩

/-- A node has one place on a walk, as its parent is one. -/
private theorem nodup_preorder (hf : f.Built) (n : NodeId) : (f.preorder n).Nodup := by
  refine (hf.pairwise_preorder n).imp fun {a b} h hab => ?_
  rw [hab, compareOrder_self] at h
  exact nomatch h.1

/-- A node is in the tree of its parent. -/
theorem root_of_parent (hf : f.Built) (h : (f.node c).parent = some p) : f.root c = f.root p := by
  obtain ⟨s, hs⟩ := f.ancestry_eq_cons_root p
  rw [root, hf.ancestry_of_parent h, hs]
  rfl

/-- A root has no parent. -/
theorem parent_root (hf : f.Built) (n : NodeId) : (f.node (f.root n)).parent = none := by
  induction n using hf.induction_on_parent with
  | root n h =>
    have : f.root n = n := by simp [Forest.root, ancestry_of_root h]
    rw [this, h]
  | branch c p h ih => rw [hf.root_of_parent h, ih]

/-- The walk from a root meets the nodes with this root. -/
theorem mem_preorder_root_iff (hf : f.Built) : a ∈ f.preorder (f.root b) ↔ f.root a = f.root b := by
  constructor
  · intro h
    obtain ⟨s, hs⟩ := hf.ancestry_of_mem_preorder h
    rw [root, hs, ancestry_of_root (hf.parent_root b)]
    rfl
  · intro h
    rw [← h]
    induction a using hf.induction_on_parent generalizing b with
    | root n hn =>
      have : f.root n = n := by simp [Forest.root, ancestry_of_root hn]
      rw [this]
      exact hf.self_mem_preorder n
    | branch c p hc ih =>
      rw [hf.root_of_parent hc]
      exact hf.branch_mem_preorder hc (ih rfl)

/-- Nodes of different trees are not compared. -/
theorem compareOrder_of_root_ne (h : f.root a ≠ f.root b) :
    f.compareOrder a b = .error .unrelatedNodes := by
  obtain ⟨s, hs⟩ := f.ancestry_eq_cons_root a
  obtain ⟨t, ht⟩ := f.ancestry_eq_cons_root b
  exact compareOrder_of_apart h hs ht

/-- Within a tree the order is that of the places on the walk. -/
theorem compareOrder_of_root_eq (hf : f.Built) (h : f.root a = f.root b) :
    f.compareOrder a b = .ok (compare (f.position a) (f.position b)) := by
  have ha : a ∈ f.preorder (f.root b) := hf.mem_preorder_root_iff.mpr h
  have hb : b ∈ f.preorder (f.root b) := hf.mem_preorder_root_iff.mpr rfl
  rw [position, position, h]
  have before := List.pairwise_iff_getElem.mp (hf.pairwise_preorder (f.root b))
  obtain hlt | heq | hgt := Nat.lt_trichotomy
      ((f.preorder (f.root b)).idxOf a) ((f.preorder (f.root b)).idxOf b)
  · have := before _ _ (List.idxOf_lt_length_of_mem ha) (List.idxOf_lt_length_of_mem hb) hlt
    simp only [List.getElem_idxOf] at this
    rw [this.1, Nat.compare_eq_lt.mpr hlt]
  · obtain rfl : a = b := (List.idxOf_inj ha).mp heq
    simp [compareOrder_self]
  · have := before _ _ (List.idxOf_lt_length_of_mem hb) (List.idxOf_lt_length_of_mem ha) hgt
    simp only [List.getElem_idxOf] at this
    rw [this.2, Nat.compare_eq_gt.mpr hgt]

/-- Nodes of one tree are told apart by their places. -/
theorem position_inj (hf : f.Built) (h : f.root a = f.root b) :
    f.position a = f.position b ↔ a = b := by
  rw [position, position, h]
  exact List.idxOf_inj (hf.mem_preorder_root_iff.mpr h)

end Built

/-! ### Forests of described trees -/

end Forest

mutual

/-- Every tree that is shared is among the first `k` ones. -/
def Tree.SharesBelow (k : Nat) : Tree → Prop
  | .document children => sharesBelow k children
  | .element _ _ _ children => sharesBelow k children
  | .shared index => index < k
  | .attr .. | .space .. | .text _ | .comment _ => True

/-- `Tree.SharesBelow` of several trees. -/
def sharesBelow (k : Nat) : List Tree → Prop
  | [] => True
  | t :: ts => t.SharesBelow k ∧ sharesBelow k ts

end

namespace Forest

/-- A node that can be added to a forest: it has no parent yet, and only elements and documents have nodes attached. -/
structure Accepts (f : Forest) (m : Node) : Prop where
  parent : m.parent = none
  attached : ∀ c ∈ m.attached, c < f.size
  bare : m.attached = [] ∨ m.kind = .element ∨ m.kind = .document

/-- The property of a forest lasts when a node is added. -/
def Lasts (P : Forest → Prop) : Prop := ∀ ⦃f m⦄, P f → f.Accepts m → P (f.add m).2

/-- A forest that is grown from another one, has a property, and has the given nodes. -/
structure Grown (P : Forest → Prop) (f g : Forest) (ids : List NodeId) : Prop where
  holds : P g
  le : f.size ≤ g.size
  lt : ∀ c ∈ ids, c < g.size

namespace Grown

variable {P : Forest → Prop} {f g h : Forest} {ids ids' : List NodeId}

/-- Nothing is added. -/
private theorem refl (hf : P f) : Grown P f f [] := ⟨hf, Nat.le_refl _, by simp⟩

/-- More is added to what has been added. -/
private theorem trans (hg : Grown P f g ids) (hh : Grown P g h ids') : Grown P f h (ids ++ ids') where
  holds := hh.holds
  le := hg.le.trans hh.le
  lt c hc := by
    obtain hc | hc := List.mem_append.mp hc
    · exact (hg.lt c hc).trans_le hh.le
    · exact hh.lt c hc

/-- A node is added above what has been added before. -/
private theorem add (hP : Lasts P) (hg : Grown P f g ids) {m : Node} (hparent : m.parent = none)
    (hm : m.attached = ids) (hbare : m.attached = [] ∨ m.kind = .element ∨ m.kind = .document) :
    Grown P f (g.add m).2 [(g.add m).1] where
  holds := hP hg.holds ⟨hparent, hm ▸ hg.lt, hbare⟩
  le := hg.le.trans (by rw [size_add]; exact Nat.le_succ _)
  lt c hc := by
    rw [List.mem_singleton.mp hc, size_add]
    exact Nat.lt_succ_self _

/-- Several descriptions are added one after the other. -/
private theorem addEach {α : Type} {add : Forest → α → NodeId × Forest}
    (hadd : ∀ {f : Forest}, P f → ∀ x, Grown P f (add f x).2 [(add f x).1]) (hf : P f) (xs : List α) :
    Grown P f (Forest.addEach add f xs).2 (Forest.addEach add f xs).1 := by
  induction xs generalizing f with
  | nil => exact refl hf
  | cons x xs ih => exact (hadd hf x).trans (ih (hadd hf x).holds)

/-- Attributes are added as nodes without attachments. -/
private theorem addAttr (hP : Lasts P) (hf : P f) (q : String × String) :
    Grown P f (f.addAttr q).2 [(f.addAttr q).1] :=
  add hP (refl hf) rfl rfl (.inl rfl)

/-- So are namespaces. -/
private theorem addSpace (hP : Lasts P) (hf : P f) (q : String × String) :
    Grown P f (f.addSpace q).2 [(f.addSpace q).1] :=
  add hP (refl hf) rfl rfl (.inl rfl)

mutual

/-- A described tree is added from below, its shared parts being there already. -/
theorem build (hP : Lasts P) {roots : List NodeId} : ∀ {f : Forest}, P f → (∀ r ∈ roots, r < f.size) →
    ∀ t : Tree, t.SharesBelow roots.length →
      Grown P f (Forest.build roots f t).2 [(Forest.build roots f t).1]
  | _, hf, hroots, .document children, ht => add hP (buildEach hP hf hroots children ht) rfl rfl (.inr (.inr rfl))
  | _, hf, hroots, .element name attrs spaces children, ht => by
    have h₁ := addEach (addAttr hP) hf attrs
    have h₂ := h₁.trans (addEach (addSpace hP) h₁.holds spaces)
    have h₃ := buildEach hP h₂.holds (fun r hr => (hroots r hr).trans_le h₂.le) children ht
    exact add hP (h₂.trans h₃) rfl rfl (.inr (.inl rfl))
  | _, hf, _, .attr name value, _ => addAttr hP hf _
  | _, hf, _, .space mark uri, _ => addSpace hP hf _
  | _, hf, _, .text value, _ => add hP (refl hf) rfl rfl (.inl rfl)
  | _, hf, _, .comment value, _ => add hP (refl hf) rfl rfl (.inl rfl)
  | _, hf, hroots, .shared index, ht => by
    have hindex : index < roots.length := ht
    refine ⟨hf, Nat.le_refl _, fun c hc => ?_⟩
    rw [List.mem_singleton.mp hc, Forest.build, List.getElem?_eq_getElem hindex]
    exact hroots _ (List.getElem_mem hindex)

/-- The same of several described trees. -/
theorem buildEach (hP : Lasts P) {roots : List NodeId} : ∀ {f : Forest}, P f → (∀ r ∈ roots, r < f.size) →
    ∀ ts : List Tree, sharesBelow roots.length ts →
      Grown P f (Forest.buildEach roots f ts).2 (Forest.buildEach roots f ts).1
  | _, hf, _, [], _ => refl hf
  | _, hf, hroots, t :: ts, hts => by
    have h := build hP hf hroots t hts.1
    exact h.trans (buildEach hP h.holds (fun r hr => (hroots r hr).trans_le h.le) ts hts.2)

end

end Grown

/-- What lasts when a node is added holds of the forest of described trees, if each tree shares only trees before it. -/
theorem Lasts.ofTrees {P : Forest → Prop} (hP : Lasts P) (hempty : P {})
    (trees : List Tree) (hshares : ∀ i (hi : i < trees.length), (trees.get ⟨i, hi⟩).SharesBelow i) :
    P (ofTrees trees).1 := by
  -- the roots so far count the trees so far, and all of them are there
  have run : ∀ (ts : List Tree) (f : Forest) (roots : List NodeId), P f →
      (∀ r ∈ roots, r < f.size) →
      (∀ i (hi : i < ts.length), (ts.get ⟨i, hi⟩).SharesBelow (roots.length + i)) →
      P (ts.foldl (fun s t =>
        ((Forest.build s.2 s.1 t).2, s.2 ++ [(Forest.build s.2 s.1 t).1])) (f, roots)).1 := by
    intro ts
    induction ts with
    | nil => exact fun f roots hf _ _ => hf
    | cons t ts ih =>
      intro f roots hf hroots hts
      have h := Grown.build hP hf hroots t (hts 0 (Nat.succ_pos _))
      refine ih _ _ h.holds (fun r hr => ?_) fun i hi => ?_
      · obtain hr | hr := List.mem_append.mp hr
        · exact (hroots r hr).trans_le h.le
        · exact h.lt r hr
      · have := hts (i + 1) (Nat.succ_lt_succ hi)
        simpa [Nat.add_assoc, Nat.add_comm 1 i] using this
  exact run trees {} [] hempty (by simp) (by simpa using hshares)

theorem built_ofTrees (trees : List Tree)
    (hshares : ∀ i (hi : i < trees.length), (trees.get ⟨i, hi⟩).SharesBelow i) :
    (ofTrees trees).1.Built :=
  Lasts.ofTrees (fun _ _ hf hm => hf.add hm.parent hm.attached) .empty trees hshares

/-! ### Document order -/

/-- The order of two nodes succeeds exactly within a tree. There it compares the places of the nodes on
the walk of the tree, on which each node of the tree stands once: it is `eq` only of a node with
itself, is reversed with its operands, and is transitive. -/
theorem compareOrder_eq_preorder {f : Forest} (hf : f.Built) (a b c : NodeId) :
    (∀ n p, (f.node n).parent = some p ↔
      n ∈ (f.node p).attached ∧ ∀ q < p, n ∉ (f.node q).attached) ∧
    ((f.node (f.root a)).parent = none ∧ (f.preorder (f.root a)).Nodup ∧
      ∀ n, n ∈ f.preorder (f.root a) ↔ f.root n = f.root a) ∧
    ((∃ o, f.compareOrder a b = .ok o) ↔ f.root a = f.root b) ∧
    (f.root a ≠ f.root b →
      ∃ e, f.compareOrder a b = .error e ∧ e.code = ErrorCode.FOER0000.name) ∧
    (f.root a = f.root b →
      f.compareOrder a b = .ok (compare (f.position a) (f.position b))) ∧
    (f.compareOrder a b = .ok .eq ↔ a = b) ∧
    f.compareOrder b a = (f.compareOrder a b).map Ordering.swap ∧
    (∀ o, f.compareOrder a b = .ok o → f.compareOrder b c = .ok o → f.compareOrder a c = .ok o) := by
  have root_eq_of_ok : ∀ {a b o}, f.compareOrder a b = .ok o → f.root a = f.root b := by
    intro a b o h
    by_contra hne
    simp [Built.compareOrder_of_root_ne hne] at h
  refine ⟨fun n p => hf.parent_eq_some_iff,
    ⟨hf.parent_root a, hf.nodup_preorder _, fun n => hf.mem_preorder_root_iff⟩,
    ⟨fun ⟨o, h⟩ => root_eq_of_ok h, fun h => ⟨_, hf.compareOrder_of_root_eq h⟩⟩,
    fun h => ⟨_, Built.compareOrder_of_root_ne h, rfl⟩, hf.compareOrder_of_root_eq, ?_, ?_, ?_⟩
  · constructor
    · intro h
      have hroot := root_eq_of_ok h
      rw [hf.compareOrder_of_root_eq hroot, Except.ok.injEq, Nat.compare_eq_eq] at h
      exact (hf.position_inj hroot).mp h
    · rintro rfl
      exact f.compareOrder_self a
  · by_cases h : f.root a = f.root b
    · rw [hf.compareOrder_of_root_eq h, hf.compareOrder_of_root_eq h.symm, ← Nat.compare_swap]
      rfl
    · rw [Built.compareOrder_of_root_ne h, Built.compareOrder_of_root_ne (Ne.symm h)]
      rfl
  · intro o hab hbc
    have hroot := (root_eq_of_ok hab).trans (root_eq_of_ok hbc)
    rw [hf.compareOrder_of_root_eq (root_eq_of_ok hab), Except.ok.injEq] at hab
    rw [hf.compareOrder_of_root_eq (root_eq_of_ok hbc), Except.ok.injEq] at hbc
    rw [hf.compareOrder_of_root_eq hroot, Except.ok.injEq]
    cases o with
    | lt =>
      rw [Nat.compare_eq_lt] at *
      exact hab.trans hbc
    | eq =>
      rw [Nat.compare_eq_eq] at *
      exact hab.trans hbc
    | gt =>
      rw [Nat.compare_eq_gt] at *
      exact hbc.trans hab

/-- An element that a later tree attaches at two depths, so that its parent is the deeper one, and a
tree apart. -/
def sharedTrees : List Tree :=
  [.element "a" [("k", "v")] [("p", "u")] [.text "x", .element "b" [] [] []],
    .document [.shared 0, .element "c" [] [] [.shared 0], .shared 0],
    .text "apart"]

theorem compareOrder_eq_preorder_sharedTrees :
    let f := (ofTrees sharedTrees).1
    f.Built ∧ f.preorder (f.root 3) = [6, 5, 4, 0, 1, 2, 3] ∧ (f.preorder (f.root 3)).Nodup ∧
      f.root 3 = f.root 5 ∧ f.compareOrder 3 5 = .ok (compare (f.position 3) (f.position 5)) ∧
      f.compareOrder 5 3 = (f.compareOrder 3 5).map Ordering.swap ∧
      f.root 3 ≠ f.root 7 ∧ ∃ e, f.compareOrder 3 7 = .error e ∧ e.code = ErrorCode.FOER0000.name := by
  intro f
  have hf : f.Built := by
    refine built_ofTrees sharedTrees fun i hi => ?_
    match i, hi with
    | 0, _ | 1, _ | 2, _ => simp [sharedTrees, Tree.SharesBelow, sharesBelow]
  have h35 : f.root 3 = f.root 5 := by decide +kernel
  have h37 : f.root 3 ≠ f.root 7 := by decide +kernel
  obtain ⟨-, ⟨-, hnodup, -⟩, -, -, hok, -, hswap, -⟩ := compareOrder_eq_preorder hf 3 5 0
  obtain ⟨-, -, -, herr, -⟩ := compareOrder_eq_preorder hf 3 7 0
  exact ⟨hf, by decide +kernel, hnodup, h35, hok h35, hswap, h37, herr h37⟩

end Forest

end LazyXPath
