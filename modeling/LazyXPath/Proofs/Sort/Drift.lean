import LazyXPath.Proofs.Sort.SmallSort

/-!
# Driftsort sorts

However stretches are cut and joined, no element is lost: the stack of stretches together with the last one holds what
is in front of the rest of the list (`Drift.Plan.joinAll_yields`). A piece is sorted by pivots, to the right of which
nothing is less (`Drift.quicksort_yields`).
-/

namespace LazyXPath

namespace Drift

open Inquiry
open scoped List

variable {α : Type} {U : Set α} {rank : α → Nat} {x : α} {xs ys v : List α}

/-! ### Runs -/

/-- A run goes up, or strictly down, as long as the list does. -/
private theorem climb_yields {down : Bool} (hx : x ∈ U) (hys : ∀ y ∈ ys, y ∈ U) :
    (climb down x ys).Yields U rank fun run => run <+: ys ∧ Sided (!down) rank (x :: run) := by
  induction ys generalizing x with
  | nil => exact ⟨List.prefix_rfl, List.pairwise_singleton _ _⟩
  | cons y ys ih =>
    have hys' := List.forall_mem_cons.mp hys
    rw [climb, yields_bind, yields_before]
    refine ⟨hys'.1, hx, ?_⟩
    split
    case isTrue hanswer =>
      rw [yields_bind]
      refine (ih hys'.1 hys'.2).mono fun run ⟨hstart, hsided⟩ => ⟨List.prefix_cons_inj _ |>.mpr hstart, ?_⟩
      have hle : side (!down) rank x ≤ side (!down) rank y := by
        cases down with
        | true => simpa [side] using (of_decide_eq_true hanswer).le
        | false => simpa [side] using hanswer
      exact List.pairwise_cons.mpr ⟨fun a ha => hle.trans (hsided.head_le a ha), hsided⟩
    case isFalse => exact ⟨List.nil_prefix, List.pairwise_singleton _ _⟩

/-- A run at the front of a list is ascending after a descending one has been reversed. -/
private theorem existingRun_yields (hv : ∀ x ∈ v, x ∈ U) :
    (existingRun v).Yields U rank fun run => (∃ w, w <+: v ∧ run.Perm w) ∧ Ascending rank run := by
  unfold existingRun
  split
  case h_1 x y ys =>
    simp only [List.forall_mem_cons] at hv
    obtain ⟨hx, hy, hys⟩ := hv
    simp only [yields_bind, yields_before, yields_pure]
    refine ⟨hy, hx, (climb_yields hy hys).mono ?_⟩
    rintro run ⟨hstart, hsided⟩
    have hstart' : x :: y :: run <+: x :: y :: ys := by
      simpa using hstart
    split
    case isTrue hdown =>
      rw [hdown] at hsided
      refine ⟨⟨_, hstart', List.reverse_perm _⟩, sided_false.mp (List.pairwise_cons.mpr ⟨fun a ha => ?_, hsided⟩)⟩
      have hlt : rank y < rank x := of_decide_eq_true hdown
      have hle := hsided.head_le a ha
      simp only [side, Bool.not_true, Bool.false_eq_true, if_false] at hle ⊢
      omega
    case isFalse hdown =>
      rw [Bool.eq_false_of_not_eq_true hdown] at hsided
      refine ⟨⟨_, hstart', .refl _⟩, sided_true.mp (List.pairwise_cons.mpr ⟨fun a ha => ?_, hsided⟩)⟩
      have hge : rank x ≤ rank y := by simpa using hdown
      have hle := hsided.head_le a ha
      simp only [side, Bool.not_false, if_true] at hle ⊢
      omega
  case h_2 hshort =>
    refine ⟨⟨_, List.prefix_rfl, .refl _⟩, ?_⟩
    cases v with
    | nil => exact .nil
    | cons x xs =>
      cases xs with
      | nil => exact List.pairwise_singleton _ _
      | cons y ys => exact absurd rfl (hshort x y ys)

/-! ### Stretches -/

/-- A stretch of certain elements, in ascending order if it says so. -/
structure Stretch.Sound (U : Set α) (rank : α → Nat) (s : Stretch α) : Prop where
  mem : ∀ x ∈ s.items, x ∈ U
  ascending : s.sorted = true → Ascending rank s.items

/-- The elements of stretches. -/
def contents (stack : List (Stretch α × Nat)) : List α := stack.flatMap (·.1.items)

namespace Plan

variable {p : Plan α} {s t : Stretch α} {stack : List (Stretch α × Nat)}

private theorem goodLength_pos (h : 0 < p.total) : 0 < p.goodLength := by
  unfold goodLength
  split
  · omega
  · have hor : p.total ≤ p.total ||| 1 := Nat.left_le_or
    have hlog : 1 ≤ (p.total ||| 1).log2 := (Nat.le_log2 (by omega)).mpr (by omega)
    have hshift : twoTo 1 ≤ twoTo ((1 + (p.total ||| 1).log2) / 2) := Nat.pow_le_pow_right (by decide) (by omega)
    have htwo : twoTo 1 = 2 := rfl
    generalize hshifted : twoTo ((1 + (p.total ||| 1).log2) / 2) = m at hshift
    have hdiv := Nat.zero_le (p.total / m)
    dsimp only
    rw [hshifted]
    omega

/-- The run at the front of the list, which is looked for only where there is room for a long one. -/
private theorem firstRun_yields (hv : ∀ x ∈ v, x ∈ U) :
    (p.firstRun v).Yields U rank fun run => (∃ w, w <+: v ∧ run.Perm w) ∧ Ascending rank run := by
  unfold firstRun
  split
  · exact existingRun_yields hv
  · exact ⟨⟨[], List.nil_prefix, .refl _⟩, .nil⟩

/-- The elements that a stretch takes from a list that is not empty. -/
theorem taken_of_take {n : Nat} {zs : List α} (hn : 0 < n) (hne : v ≠ []) (hzs : zs.Perm (v.take n)) :
    zs ≠ [] ∧ zs.Perm (v.take zs.length) := by
  constructor
  · rintro rfl
    have htake := hzs.nil_eq
    simp [hne, hn.ne'] at htake
  · rw [hzs.length_eq, List.length_take, ← List.take_eq_take_min]
    exact hzs

/-- A stretch takes at least one element off the front of the list. Its elements are sorted if it says so. -/
private theorem stretch_yields (hgood : 0 < p.goodLength) (hv : ∀ x ∈ v, x ∈ U) (hne : v ≠ []) :
    (p.stretch v).Yields U rank fun s => s.Sound U rank ∧ s.items ≠ [] ∧ s.items.Perm (v.take s.items.length) := by
  unfold stretch
  rw [yields_bind]
  refine (firstRun_yields hv).mono fun run ⟨⟨w, hstart, hperm⟩, hasc⟩ => ?_
  have htake : ∀ {n}, ∀ x ∈ v.take n, x ∈ U := fun x hx => hv x (List.mem_of_mem_take hx)
  split
  case isTrue hlong =>
    have hsound : Stretch.Sound U rank ⟨true, run⟩ :=
      ⟨fun x hx => hv x (hstart.subset (hperm.mem_iff.mp hx)), fun _ => hasc⟩
    refine ⟨hsound, taken_of_take (hgood.trans_le hlong) hne ?_⟩
    rwa [hperm.length_eq, ← List.prefix_iff_eq_take.mp hstart]
  case isFalse =>
    split
    case isTrue =>
      rw [yields_bind]
      refine (smallSort_sorts _ U rank htake).mono fun zs ⟨hzs, hasc'⟩ => ?_
      exact ⟨⟨fun x hx => htake x (hzs.mem_iff.mp hx), fun _ => hasc'⟩, taken_of_take (by decide) hne hzs⟩
    case isFalse => exact ⟨⟨htake, nofun⟩, taken_of_take hgood hne (.refl _)⟩

/-- The lower end of a stack ends like the stack. -/
theorem getLast?_of_suffix {β : Type} {as bs : List β} (h : as <:+ bs) (hne : as ≠ []) :
    as.getLast? = bs.getLast? := by
  obtain ⟨cs, rfl⟩ := h
  rw [List.getLast?_append, List.getLast?_eq_some_getLast hne, Option.some_or]

variable (hpiece : ∀ v, (p.sortPiece v).Sorts v)

include hpiece

/-- A stretch that has not been sorted is sorted now, by what is assumed of pieces. -/
private theorem settle_yields (hs : s.Sound U rank) :
    (p.settle s).Yields U rank fun zs => zs.Perm s.items ∧ Ascending rank zs := by
  unfold settle
  split
  case isTrue hsorted => exact ⟨.refl _, hs.ascending hsorted⟩
  case isFalse => exact hpiece s.items U rank hs.mem

/-- Two stretches are merged, or put together unsorted. -/
private theorem join_yields (hs : s.Sound U rank) (ht : t.Sound U rank) :
    (p.join s t).Yields U rank fun r => r.Sound U rank ∧ r.items.Perm (s.items ++ t.items) := by
  have hmem : ∀ x ∈ s.items ++ t.items, x ∈ U := List.forall_mem_append.mpr ⟨hs.mem, ht.mem⟩
  unfold join
  split
  case isTrue =>
    simp only [yields_bind]
    refine (settle_yields hpiece hs).mono ?_
    rintro xs ⟨hxs, hx⟩
    refine (settle_yields hpiece ht).mono ?_
    rintro ys ⟨hys, hy⟩
    refine (merge_yields (fun x hx => hs.mem x (hxs.mem_iff.mp hx)) (fun y hy => ht.mem y (hys.mem_iff.mp hy)) hx
      hy).mono ?_
    rintro zs ⟨hzs, hasc⟩
    have hperm := hzs.trans (hxs.append hys)
    exact ⟨⟨fun z hz => hmem z (hperm.mem_iff.mp hz), fun _ => hasc⟩, hperm⟩
  case isFalse => exact ⟨⟨hmem, fun h => absurd h Bool.false_ne_true⟩, .refl _⟩

/-- Joining stretches keeps the elements, and what stays of the stack is its lower end, which is the first stretch alone
if all depths count. -/
theorem collapse_yields {depth : Nat} (hs : s.Sound U rank) (hstack : ∀ t ∈ stack, t.1.Sound U rank) :
    (p.collapse depth s stack).Yields U rank fun r =>
      r.1.Sound U rank ∧ (r.1.items ++ contents r.2).Perm (s.items ++ contents stack) ∧
        r.2 <:+ stack ∧ (stack ≠ [] → r.2 ≠ []) ∧ (depth = 0 → r.2.length ≤ 1) := by
  induction stack generalizing s with
  | nil => exact ⟨hs, .refl _, List.suffix_rfl, id, fun _ => Nat.zero_le _⟩
  | cons t stack ih =>
    cases stack with
    | nil => exact ⟨hs, .refl _, List.suffix_rfl, id, fun _ => Nat.le_refl _⟩
    | cons u stack =>
      obtain ⟨ht, hstack'⟩ := List.forall_mem_cons.mp hstack
      rw [collapse]
      split
      case isTrue =>
        rw [yields_bind]
        refine (join_yields hpiece ht hs).mono fun r ⟨hr, hjoin⟩ => (ih hr hstack').mono ?_
        rintro ⟨s', stack'⟩ ⟨hs', hperm, hsuffix, hne, hlength⟩
        refine ⟨hs', hperm.trans ?_, hsuffix.trans (List.suffix_cons _ _), fun _ => hne (List.cons_ne_nil _ _), hlength⟩
        have hcontents : contents (t :: u :: stack) = t.1.items ++ contents (u :: stack) := rfl
        rw [hcontents, ← List.append_assoc]
        exact (hjoin.trans List.perm_append_comm).append_right _
      case isFalse hdepth =>
        refine ⟨hs, .refl _, List.suffix_rfl, id, fun hzero => ?_⟩
        exact absurd (hzero ▸ Nat.zero_le _) hdepth

/-- Cutting and joining loses no element, if the first stretch is empty. -/
theorem joinAll_yields {place : Nat} (htotal : 0 < p.total) (hs : s.Sound U rank)
    (hstack : ∀ t ∈ stack, t.1.Sound U rank) (hfirst : ∀ t ∈ ((s, 0) :: stack).getLast?, t.1.items = [])
    (hv : ∀ x ∈ v, x ∈ U) :
    (p.joinAll place s stack v).Yields U rank fun r =>
      r.Sound U rank ∧ r.items.Perm (s.items ++ contents stack ++ v) := by
  induction hlength : v.length using Nat.strong_induction_on generalizing v place s stack with
  | _ n ih =>
    subst hlength
    -- a stack that is not empty ends with the first stretch
    have hbottom : ∀ {rest}, rest <:+ stack → ∀ t ∈ rest.getLast?, t.1.items = [] := by
      intro rest hsuffix t ht
      have hne : rest ≠ [] := by
        rintro rfl
        cases ht
      refine hfirst t ?_
      rwa [← getLast?_of_suffix (hsuffix.trans (List.suffix_cons _ _)) hne]
    cases v with
    | nil =>
      rw [joinAll, yields_bind]
      refine (collapse_yields hpiece hs hstack).mono ?_
      rintro ⟨whole, rest⟩ ⟨hwhole, hperm, hsuffix, -, hone⟩
      have hrest : contents rest = [] := by
        cases rest with
        | nil => rfl
        | cons t rest =>
          obtain rfl : rest = [] := List.length_eq_zero_iff.mp (Nat.le_zero.mp (Nat.le_of_succ_le_succ (hone rfl)))
          simp [contents, hbottom hsuffix t rfl]
      rw [hrest, List.append_nil] at hperm
      exact ⟨hwhole, by rwa [List.append_nil]⟩
    | cons x xs =>
      rw [joinAll, yields_bind]
      refine (stretch_yields (goodLength_pos htotal) hv (List.cons_ne_nil x xs)).mono ?_
      rintro next ⟨hnext, hne, htaken⟩
      rw [yields_bind]
      refine (collapse_yields hpiece hs hstack).mono ?_
      rintro ⟨last, rest⟩ ⟨hlast, hperm, hsuffix, hkeeps, -⟩
      have hpos := List.length_pos_iff.mpr hne
      have hdrop : xs.drop (next.items.length - 1) = (x :: xs).drop next.items.length := by
        obtain ⟨k, hk⟩ : ∃ k, next.items.length = k + 1 := ⟨next.items.length - 1, by omega⟩
        rw [hk, List.drop_succ_cons, Nat.add_sub_cancel]
      have hfirst' : ∀ {d}, ∀ t ∈ ((next, 0) :: (last, d) :: rest).getLast?, t.1.items = [] := by
        intro d t ht
        cases rest with
        | nil =>
          obtain rfl : stack = [] := by
            by_contra hstack
            exact hkeeps hstack rfl
          obtain rfl : (last, d) = t := Option.some.inj ht
          have hempty : s.items = [] := hfirst (s, 0) rfl
          simpa [contents, hempty] using hperm
        | cons u rest => exact hbottom hsuffix t ht
      refine (ih _ ?_ hnext (List.forall_mem_cons.mpr ⟨hlast, fun t ht => hstack t (hsuffix.subset ht)⟩) hfirst'
        (fun y hy => hv y (List.mem_cons_of_mem x (List.mem_of_mem_drop hy))) rfl).mono ?_
      · simp only [List.length_drop, List.length_cons]
        omega
      · rintro r ⟨hr, hall⟩
        refine ⟨hr, ?_⟩
        have hcontents : contents ((last, p.depth (place - s.items.length) place (place + next.items.length)) :: rest) =
            last.items ++ contents rest := rfl
        rw [hcontents, hdrop] at hall
        calc r.items
          _ ~ next.items ++ (last.items ++ contents rest) ++ (x :: xs).drop next.items.length := hall
          _ ~ last.items ++ contents rest ++ next.items ++ (x :: xs).drop next.items.length :=
            List.perm_append_comm.append_right _
          _ ~ s.items ++ contents stack ++ (x :: xs).take next.items.length ++ (x :: xs).drop next.items.length :=
            (hperm.append htaken).append_right _
          _ = s.items ++ contents stack ++ (x :: xs) := by rw [List.append_assoc, List.take_append_drop]

end Plan

/-- A list is sorted by its stretches if every piece is. -/
private theorem byStretches_sorts {eager : Bool} {sortPiece : List α → Inquiry α (List α)}
    (hpiece : ∀ v, (sortPiece v).Sorts v) (v : List α) : (byStretches eager sortPiece v).Sorts v := by
  intro U rank hv
  have hnothing : Stretch.Sound U rank (⟨true, []⟩ : Stretch α) := ⟨List.forall_mem_nil _, fun _ => .nil⟩
  cases v with
  | nil =>
    have hsort : byStretches eager sortPiece [] = (pure [] : Inquiry α (List α)) := by
      unfold byStretches Plan.joinAll Plan.collapse Plan.settle
      rfl
    rw [hsort]
    exact ⟨.refl _, .nil⟩
  | cons x xs =>
    unfold byStretches
    rw [yields_bind]
    refine (Plan.joinAll_yields hpiece (Nat.succ_pos _) hnothing (List.forall_mem_nil _) ?_ hv).mono
      fun r ⟨hr, hall⟩ => (Plan.settle_yields hpiece hr).mono fun zs ⟨hzs, hasc⟩ => ⟨hzs.trans hall, hasc⟩
    rintro t ht
    obtain rfl := Option.some.inj ht
    rfl

/-! ### Quicksort -/

/-- The median of three places is one of them. -/
private theorem median_yields {v : Nat → α} {i j k : Nat} (hv : ∀ m, v m ∈ U) :
    (median v i j k).Yields U rank fun r => r = i ∨ r = j ∨ r = k := by
  unfold median
  simp only [yields_bind, yields_before]
  refine ⟨hv i, hv j, hv i, hv k, ?_⟩
  split
  · simp only [yields_bind, yields_before]
    refine ⟨hv j, hv k, ?_⟩
    rw [yields_pure]
    split
    · exact .inr (.inl rfl)
    · exact .inr (.inr rfl)
  · exact .inl rfl

/-- A median of medians is in one of the three regions it is taken from. -/
private theorem spread_yields {v : Nat → α} {i j k n : Nat} (hv : ∀ m, v m ∈ U) (hn : 0 < n) :
    (spread v i j k n).Yields U rank fun r =>
      (i ≤ r ∧ r < i + n) ∨ (j ≤ r ∧ r < j + n) ∨ (k ≤ r ∧ r < k + n) := by
  induction n using Nat.strong_induction_on generalizing i j k with
  | _ n ih =>
    rw [spread]
    split
    case isTrue => exact (median_yields hv).mono fun r hr => by omega
    case isFalse hlarge =>
      have parts : ∀ {i}, (spread v i (i + 4 * (n / 8)) (i + 7 * (n / 8)) (n / 8)).Yields U rank fun r =>
          i ≤ r ∧ r < i + n := (ih (n / 8) (by omega) (by omega)).mono fun r hr => by omega
      simp only [yields_bind]
      refine parts.mono fun i' hi => parts.mono fun j' hj => parts.mono fun k' hk => ?_
      exact (median_yields hv).mono fun r hr => by omega

/-- The place of the pivot is one of the list. -/
private theorem pivotPlace_yields (hx : x ∈ U) (hv : ∀ y ∈ v, y ∈ U) (hlength : 8 ≤ v.length) :
    (pivotPlace x v).Yields U rank (· < v.length) := by
  refine (spread_yields (fun m => ?_) (by omega)).mono fun r hr => by omega
  rw [List.getD_eq_getElem?_getD]
  cases hm : v[m]? with
  | none => exact hx
  | some y => exact hv y (List.mem_of_getElem? hm)

/-- A division asks for each element once, and keeps the order on both sides. -/
private theorem divide_yields {toLeft : α → Inquiry α Bool} {P : α → Bool}
    (h : ∀ x ∈ xs, (toLeft x).Yields U rank (· = P x)) :
    (divide toLeft xs).Yields U rank (· = (xs.filter P, xs.filter (!P ·))) := by
  induction xs with
  | nil => rfl
  | cons x xs ih =>
    obtain ⟨hx, hxs⟩ := List.forall_mem_cons.mp h
    rw [divide, yields_bind]
    refine hx.mono ?_
    rintro _ rfl
    rw [yields_bind]
    refine (ih hxs).mono ?_
    rintro _ rfl
    rw [yields_pure]
    cases hP : P x <;> simp [hP]

/-- What a division is good for: each side can be sorted by itself. -/
structure Division.Sound (U : Set α) (rank : α → Nat) (v : List α) (d : Division α) : Prop where
  pivot_mem : d.pivot ∈ U
  perm : (d.left ++ d.right).Perm v
  apart : ∀ a ∈ d.left, ∀ b ∈ d.right, rank a ≤ rank b
  pivot_le : ∀ b ∈ d.right, rank d.pivot ≤ rank b
  even : d.even = true → ∀ a ∈ d.left, rank a = rank d.pivot

section

variable {leading trailing : List α} {pivot : α}

/-- If no element is less than the pivot, those that go to the left are equal to it. -/
private theorem evenDivision_yields (hv : ∀ y ∈ leading ++ pivot :: trailing, y ∈ U)
    (hle : ∀ y ∈ leading ++ pivot :: trailing, rank pivot ≤ rank y) :
    (evenDivision leading pivot trailing).Yields U rank (Division.Sound U rank (leading ++ pivot :: trailing)) := by
  let P (y : α) : Bool := !decide (rank pivot < rank y)
  have hpivot : pivot ∈ U := hv pivot (by simp)
  have hask : ∀ y ∈ leading ++ pivot :: trailing,
      (do return !(← before pivot y) : Inquiry α Bool).Yields U rank (· = P y) := fun y hy => by
    simpa [P] using ⟨hpivot, hv y hy⟩
  unfold evenDivision
  simp only [yields_bind]
  refine (divide_yields fun y hy => hask y (by simp [hy])).mono ?_
  rintro _ rfl
  refine (divide_yields fun y hy => hask y (by simp [hy])).mono ?_
  rintro _ rfl
  rw [yields_pure]
  have hleft : leading.filter P ++ pivot :: trailing.filter P = (leading ++ pivot :: trailing).filter P := by
    simp [P]
  have hright : leading.filter (!P ·) ++ trailing.filter (!P ·) = (leading ++ pivot :: trailing).filter (!P ·) := by
    simp [P]
  dsimp only
  rw [hleft, hright]
  have heven : ∀ a ∈ (leading ++ pivot :: trailing).filter P, rank a = rank pivot := fun a ha => by
    obtain ⟨ha, hPa⟩ := List.mem_filter.mp ha
    have hge := hle a ha
    simp only [P, Bool.not_eq_true', decide_eq_false_iff_not] at hPa
    omega
  have hgreater : ∀ b ∈ (leading ++ pivot :: trailing).filter (!P ·), rank pivot ≤ rank b := fun b hb =>
    hle b (List.mem_filter.mp hb).1
  exact ⟨hpivot, List.filter_append_perm _ _, fun a ha b hb => (heven a ha).trans_le (hgreater b hb), hgreater,
    fun _ => heven⟩

/-- A pivot that passes is no greater than its ancestor. -/
private theorem equalsAncestor_yields {ancestor : Option α} (hpivot : pivot ∈ U)
    (hancestor : ∀ a ∈ ancestor, a ∈ U) :
    (equalsAncestor pivot ancestor).Yields U rank fun b => b = true → ∃ a ∈ ancestor, rank pivot ≤ rank a := by
  cases ancestor with
  | none => exact nofun
  | some a =>
    rw [equalsAncestor, yields_bind, yields_before]
    exact ⟨hancestor a rfl, hpivot, fun hle => ⟨a, rfl, by simpa using hle⟩⟩

/-- Dividing a list that has an ancestor on its left, than which nothing in it is less. -/
theorem divisionAt_yields {ancestor : Option α} (hsplit : leading ++ pivot :: trailing = v) (hv : ∀ y ∈ v, y ∈ U)
    (hancestor : ∀ a ∈ ancestor, a ∈ U ∧ ∀ y ∈ v, rank a ≤ rank y) :
    (divisionAt ancestor leading pivot trailing).Yields U rank (Division.Sound U rank v) := by
  subst hsplit
  let P (y : α) : Bool := decide (rank y < rank pivot)
  have hpivot : pivot ∈ U := hv pivot (by simp)
  have hask : ∀ y ∈ leading ++ pivot :: trailing, (before y pivot).Yields U rank (· = P y) := fun y hy =>
    ⟨hv y hy, hpivot, rfl⟩
  have hleft : leading.filter P ++ trailing.filter P = (leading ++ pivot :: trailing).filter P := by
    simp [P]
  have hright : leading.filter (!P ·) ++ pivot :: trailing.filter (!P ·) =
      (leading ++ pivot :: trailing).filter (!P ·) := by
    simp [P]
  unfold divisionAt
  rw [yields_bind]
  refine (equalsAncestor_yields hpivot fun a ha => (hancestor a ha).1).mono fun equal hequal => ?_
  split
  case isTrue htrue =>
    obtain ⟨a, ha, hle⟩ := hequal htrue
    exact evenDivision_yields hv fun y hy => hle.trans ((hancestor a ha).2 y hy)
  case isFalse =>
    simp only [yields_bind]
    refine (divide_yields fun y hy => hask y (by simp [hy])).mono ?_
    rintro _ rfl
    refine (divide_yields fun y hy => hask y (by simp [hy])).mono ?_
    rintro _ rfl
    dsimp only
    rw [hleft, hright]
    split
    case isTrue hempty =>
      refine evenDivision_yields hv fun y hy => ?_
      have hnone := List.filter_eq_nil_iff.mp (List.isEmpty_iff.mp hempty) y hy
      simpa [P] using hnone
    case isFalse =>
      have hless : ∀ a ∈ (leading ++ pivot :: trailing).filter P, rank a < rank pivot := fun a ha => by
        simpa [P] using (List.mem_filter.mp ha).2
      have hgreater : ∀ b ∈ (leading ++ pivot :: trailing).filter (!P ·), rank pivot ≤ rank b := fun b hb => by
        simpa [P] using (List.mem_filter.mp hb).2
      exact ⟨hpivot, List.filter_append_perm _ _, fun a ha b hb => (hless a ha).le.trans (hgreater b hb), hgreater,
        fun heven => absurd heven Bool.false_ne_true⟩

end

/-- The two sides of a division, each sorted. -/
theorem Division.Sound.ascending {d : Division α} {as bs : List α} (hd : d.Sound U rank v) (has : as.Perm d.left)
    (hbs : bs.Perm d.right) (ha : Ascending rank as) (hb : Ascending rank bs) :
    (as ++ bs).Perm v ∧ Ascending rank (as ++ bs) := by
  refine ⟨(has.append hbs).trans hd.perm, List.pairwise_append.mpr ⟨ha, hb, fun a ha' b hb' => ?_⟩⟩
  exact hd.apart a (has.mem_iff.mp ha') b (hbs.mem_iff.mp hb')

private theorem take_append_getD_cons_drop {n : Nat} (hn : n < v.length) :
    v.take n ++ v.getD n x :: v.drop (n + 1) = v := by
  rw [List.getD_eq_getElem?_getD, List.getElem?_eq_getElem hn, Option.getD_some, ← List.drop_eq_getElem_cons hn,
    List.take_append_drop]

/-- By induction on the bound. An ancestor bounds the piece from below, so a pivot that is no greater than it
is a least element. -/
theorem quicksort_yields {bound : Nat} {ancestor : Option α} (hv : ∀ y ∈ v, y ∈ U)
    (hancestor : ∀ a ∈ ancestor, a ∈ U ∧ ∀ y ∈ v, rank a ≤ rank y) :
    (quicksort bound ancestor v).Yields U rank fun zs => zs.Perm v ∧ Ascending rank zs := by
  induction bound generalizing v ancestor with
  | zero =>
    cases v with
    | nil => exact ⟨.refl _, .nil⟩
    | cons x xs =>
      rw [quicksort]
      split
      · exact smallSort_sorts _ U rank hv
      · exact byStretches_sorts smallSort_sorts _ U rank hv
      · exact nofun
  | succ bound ih =>
    cases v with
    | nil => exact ⟨.refl _, .nil⟩
    | cons x xs =>
      rw [quicksort]
      split
      case isTrue => exact smallSort_sorts _ U rank hv
      case isFalse hlarge =>
        have hlength : 8 ≤ (x :: xs).length := by
          unfold smallLength at hlarge
          omega
        rw [yields_bind]
        refine (pivotPlace_yields (hv x List.mem_cons_self) hv hlength).mono fun place hplace => ?_
        rw [yields_bind]
        refine (divisionAt_yields (take_append_getD_cons_drop hplace) hv hancestor).mono fun d hd => ?_
        have hmem : ∀ y ∈ d.left ++ d.right, y ∈ x :: xs := fun y hy => hd.perm.mem_iff.mp hy
        rw [List.forall_mem_append] at hmem
        split
        case isTrue heven =>
          rw [yields_bind]
          have hnone : ∀ a ∈ (none : Option α), a ∈ U ∧ ∀ y ∈ d.right, rank a ≤ rank y := nofun
          refine (ih (fun y hy => hv y (hmem.2 y hy)) hnone).mono fun zs ⟨hzs, hasc⟩ => ?_
          have hequal : Ascending rank d.left := List.pairwise_of_forall_mem_list fun a ha b hb => by
            rw [hd.even heven a ha, hd.even heven b hb]
          exact hd.ascending (.refl _) hzs hequal hasc
        case isFalse =>
          simp only [yields_bind]
          have hright : ∀ a ∈ some d.pivot, a ∈ U ∧ ∀ y ∈ d.right, rank a ≤ rank y := by
            rintro a ha
            obtain rfl := Option.some.inj ha
            exact ⟨hd.pivot_mem, hd.pivot_le⟩
          refine (ih (fun y hy => hv y (hmem.2 y hy)) hright).mono ?_
          rintro bs ⟨hbs, hb⟩
          refine (ih (fun y hy => hv y (hmem.1 y hy)) fun a ha => ⟨(hancestor a ha).1, fun y hy =>
            (hancestor a ha).2 y (hmem.1 y hy)⟩).mono ?_
          rintro as ⟨has, ha⟩
          exact hd.ascending has hbs ha hb

private theorem sortPiece_sorts (v : List α) : (sortPiece v).Sorts v := fun _ _ hv => quicksort_yields hv nofun

/-- **Driftsort sorts** any list, by whatever ranks, and asks about its elements only. -/
theorem sort_sorts (v : List α) : (sort v).Sorts v := by
  unfold sort
  split
  · intro U rank hv
    exact insertAll_yields hv (List.forall_mem_nil _) .nil
  · exact byStretches_sorts sortPiece_sorts v

end Drift

end LazyXPath
