import LazyXPath.Sort.Drift
import LazyXPath.Proofs.Sort.Inquiry
import Mathlib.Data.List.Perm.Basic

/-!
# Insertion, merges and small lists

Each part of the sort is described by what it yields when answers go by ranks. The one part that breaks off when the
answers belong to no order does not do so then (`Drift.mergeHalves_yields`): where the two merges do not meet, there are
an element that both have taken and one of the other half that none has taken, of which each would be less than the
other.
-/

namespace LazyXPath

namespace Drift

open Inquiry
open scoped List

variable {α : Type} {U : Set α} {rank : α → Nat} {x : α} {xs ys v : List α}

/-! ### Insertion -/

/-- In descending order of rank. -/
def Descending (rank : α → Nat) (xs : List α) : Prop := xs.Pairwise (rank · ≥ rank ·)

/-- An element sinks to its place in a descending list. -/
private theorem sink_yields (hx : x ∈ U) (hys : ∀ y ∈ ys, y ∈ U) (hdesc : Descending rank ys) :
    (sink x ys).Yields U rank fun zs => zs.Perm (x :: ys) ∧ Descending rank zs := by
  induction ys with
  | nil => simp [sink, Descending]
  | cons y ys ih =>
    rw [List.forall_mem_cons] at hys
    obtain ⟨hy, hdesc'⟩ := List.pairwise_cons.mp hdesc
    rw [sink, yields_bind, yields_before]
    refine ⟨hx, hys.1, ?_⟩
    split
    case isTrue hlt =>
      have hlt : rank x < rank y := of_decide_eq_true hlt
      rw [yields_bind]
      refine (ih hys.2 hdesc').mono fun zs ⟨hperm, hzs⟩ => ⟨?_, List.pairwise_cons.mpr ⟨fun z hz => ?_, hzs⟩⟩
      · exact (hperm.cons y).trans (.swap x y ys)
      · obtain rfl | hz := List.mem_cons.mp (hperm.mem_iff.mp hz)
        · exact hlt.le
        · exact hy z hz
    case isFalse hle =>
      have hle : rank y ≤ rank x := by simpa using hle
      refine ⟨.refl _, List.pairwise_cons.mpr ⟨fun z hz => ?_, hdesc⟩⟩
      obtain rfl | hz := List.mem_cons.mp hz
      · exact hle
      · exact (hy z hz).trans hle

/-- Elements that are inserted one by one give an ascending list in the end. -/
theorem insertAll_yields (hxs : ∀ x ∈ xs, x ∈ U) (hys : ∀ y ∈ ys, y ∈ U) (hdesc : Descending rank ys) :
    (insertAll ys xs).Yields U rank fun zs => zs.Perm (ys ++ xs) ∧ Ascending rank zs := by
  induction xs generalizing ys with
  | nil =>
    rw [insertAll, yields_pure, List.append_nil]
    exact ⟨ys.reverse_perm, List.pairwise_reverse.mpr hdesc⟩
  | cons x xs ih =>
    rw [List.forall_mem_cons] at hxs
    rw [insertAll, yields_bind]
    refine (sink_yields hxs.1 hys hdesc).mono fun zs ⟨hperm, hzs⟩ => ?_
    have hzs' : ∀ z ∈ zs, z ∈ U := fun z hz => (List.forall_mem_cons.mpr ⟨hxs.1, hys⟩) z (hperm.mem_iff.mp hz)
    refine (ih hxs.2 hzs' hzs).mono fun ws ⟨hws, hasc⟩ => ⟨hws.trans ?_, hasc⟩
    exact (hperm.append_right xs).trans List.perm_middle.symm

/-- Insertion does not break off, whatever the answers are. -/
theorem exists_answer_sink (less : α → α → Bool) (x : α) (ys : List α) : ∃ zs,
    (sink x ys).answer less = some zs := by
  induction ys with
  | nil => exact ⟨[x], rfl⟩
  | cons y ys ih =>
    obtain ⟨zs, hzs⟩ := ih
    cases hless : less x y with
    | true => exact ⟨y :: zs, by simp [sink, answer_bind, before, answer, hless, hzs]⟩
    | false => exact ⟨x :: y :: ys, by simp [sink, answer_bind, before, answer, hless]⟩

/-- Insertion does not break off, whatever it is told. -/
theorem exists_answer_insertAll (less : α → α → Bool) (xs ys : List α) :
    ∃ zs, (insertAll ys xs).answer less = some zs := by
  induction xs generalizing ys with
  | nil => exact ⟨ys.reverse, rfl⟩
  | cons x xs ih =>
    obtain ⟨zs, hzs⟩ := exists_answer_sink less x ys
    rw [insertAll, answer_bind, hzs]
    exact ih zs

/-! ### Merging -/

/-- What `draw` compares, so that it takes the lesser head. -/
def side (front : Bool) (rank : α → Nat) (x : α) : Int := if front then rank x else -rank x

/-- How much greater a head of the second list must be to stay: heads of equal rank are taken from the first list in
front, and from the second list behind. -/
def slack (front : Bool) : Int := if front then 0 else 1

private theorem slack_mem (front : Bool) : 0 ≤ slack front ∧ slack front ≤ 1 := by
  cases front <;> decide

/-- What a draw asks, seen from its side. At equal ranks the answer depends on the side. -/
private theorem before_eq_iff {front : Bool} {a b : α} :
    decide (rank b < rank a) = front ↔ side front rank b < side front rank a + slack front := by
  cases front with
  | true => simp [side, slack]
  | false =>
    simp only [decide_eq_false_iff_not, side, slack, Bool.false_eq_true, if_false]
    omega

/-- In ascending order, seen from the front or from behind. -/
def Sided (front : Bool) (rank : α → Nat) (xs : List α) : Prop := xs.Pairwise (side front rank · ≤ side front rank ·)

theorem sided_true : Sided true rank xs ↔ Ascending rank xs := by
  simp [Sided, Ascending, side]

theorem sided_false : Sided false rank xs ↔ Ascending rank xs.reverse := by
  simp [Sided, Ascending, side, List.pairwise_reverse]

/-- A list drawn from its end is ascending if it is from its front. -/
private theorem sided_reverse : Sided false rank xs.reverse ↔ Ascending rank xs := by
  rw [sided_false, List.reverse_reverse]

/-- The first element is the one to be drawn next. -/
theorem Sided.head_le {front : Bool} (h : Sided front rank (x :: xs)) :
    ∀ a ∈ x :: xs, side front rank x ≤ side front rank a :=
  List.forall_mem_cons.mpr ⟨le_rfl, (List.pairwise_cons.mp h).1⟩

/-- What is drawn from two lists in order: `xs₀` and `ys₀`, merged. -/
structure Drawn (front : Bool) (rank : α → Nat) (n : Nat) (xs ys xs₀ ys₀ : List α) (r : List α × List α × List α) :
    Prop where
  left : xs = xs₀ ++ r.2.1
  right : ys = ys₀ ++ r.2.2
  perm : r.1.Perm (xs₀ ++ ys₀)
  sided : Sided front rank r.1
  left_le : ∀ a ∈ xs₀, ∀ b ∈ r.2.2, side front rank a + slack front ≤ side front rank b
  right_lt : ∀ b ∈ ys₀, ∀ a ∈ r.2.1, side front rank b < side front rank a + slack front
  length_le : r.1.length ≤ n
  stops : r.1.length = n ∨ r.2.1 = [] ∨ r.2.2 = []

namespace Drawn

variable {front : Bool} {n : Nat} {y : α} {xs₀ ys₀ : List α} {r : List α × List α × List α}

/-- A step that draws from the right list. -/
private theorem cons_right (hxs : Sided front rank (x :: xs)) (hys : Sided front rank (y :: ys))
    (hlt : side front rank y < side front rank x + slack front) (h : Drawn front rank n (x :: xs) ys xs₀ ys₀ r) :
    Drawn front rank (n + 1) (x :: xs) (y :: ys) xs₀ (y :: ys₀) (y :: r.1, r.2) where
  left := h.left
  right := congrArg (y :: ·) h.right
  perm := (h.perm.cons y).trans List.perm_middle.symm
  sided := by
    refine List.pairwise_cons.mpr ⟨fun a ha => ?_, h.sided⟩
    obtain ha | ha := List.mem_append.mp (h.perm.mem_iff.mp ha)
    · have hx := hxs.head_le a (h.left ▸ List.mem_append_left _ ha)
      have hslack := slack_mem front
      omega
    · exact hys.head_le a (List.mem_cons_of_mem _ (h.right ▸ List.mem_append_left _ ha))
  left_le := h.left_le
  right_lt := List.forall_mem_cons.mpr ⟨fun a ha => by
    have hx := hxs.head_le a (h.left ▸ List.mem_append_right _ ha)
    omega, h.right_lt⟩
  length_le := Nat.succ_le_succ h.length_le
  stops := h.stops.imp_left fun hlength => congrArg (· + 1) hlength

/-- A step that draws from the left list. -/
private theorem cons_left (hxs : Sided front rank (x :: xs)) (hys : Sided front rank (y :: ys))
    (hle : side front rank x + slack front ≤ side front rank y) (h : Drawn front rank n xs (y :: ys) xs₀ ys₀ r) :
    Drawn front rank (n + 1) (x :: xs) (y :: ys) (x :: xs₀) ys₀ (x :: r.1, r.2) where
  left := congrArg (x :: ·) h.left
  right := h.right
  perm := h.perm.cons x
  sided := by
    refine List.pairwise_cons.mpr ⟨fun a ha => ?_, h.sided⟩
    obtain ha | ha := List.mem_append.mp (h.perm.mem_iff.mp ha)
    · exact hxs.head_le a (List.mem_cons_of_mem _ (h.left ▸ List.mem_append_left _ ha))
    · have hy := hys.head_le a (h.right ▸ List.mem_append_left _ ha)
      have hslack := slack_mem front
      omega
  left_le := List.forall_mem_cons.mpr ⟨fun b hb => by
    have hy := hys.head_le b (h.right ▸ List.mem_append_right _ hb)
    omega, h.left_le⟩
  right_lt := h.right_lt
  length_le := Nat.succ_le_succ h.length_le
  stops := h.stops.imp_left fun hlength => congrArg (· + 1) hlength

/-- What has been drawn comes before what has not. -/
private theorem le_rest (hxs : Sided front rank xs) (hys : Sided front rank ys)
    (h : Drawn front rank n xs ys xs₀ ys₀ r)
    {a b : α} (ha : a ∈ r.1) (hb : b ∈ r.2.1 ++ r.2.2) : side front rank a ≤ side front rank b := by
  have hslack := slack_mem front
  unfold Sided at hxs hys
  rw [h.left, List.pairwise_append] at hxs
  rw [h.right, List.pairwise_append] at hys
  obtain ha | ha := List.mem_append.mp (h.perm.mem_iff.mp ha) <;> obtain hb | hb := List.mem_append.mp hb
  · exact hxs.2.2 a ha b hb
  · have hle := h.left_le a ha b hb
    omega
  · have hlt := h.right_lt a ha b hb
    omega
  · exact hys.2.2 a ha b hb

/-- Nothing is lost. -/
private theorem perm_all (h : Drawn front rank n xs ys xs₀ ys₀ r) : (r.1 ++ r.2.1 ++ r.2.2).Perm (xs ++ ys) := by
  conv_rhs => rw [h.left, h.right]
  calc r.1 ++ r.2.1 ++ r.2.2
    _ ~ xs₀ ++ ys₀ ++ r.2.1 ++ r.2.2 := (h.perm.append_right _).append_right _
    _ ~ xs₀ ++ r.2.1 ++ (ys₀ ++ r.2.2) := by
      rw [List.append_assoc xs₀, List.append_assoc xs₀ r.2.1, List.append_assoc xs₀, ← List.append_assoc r.2.1]
      exact (List.perm_append_comm.append_right _).append_left _

/-- When one of the lists is used up, the other one may follow. -/
theorem sided_all (hxs : Sided front rank xs) (hys : Sided front rank ys) (h : Drawn front rank n xs ys xs₀ ys₀ r)
    (hend : r.2.1 = [] ∨ r.2.2 = []) : Sided front rank (r.1 ++ r.2.1 ++ r.2.2) := by
  have hrest : Sided front rank (r.2.1 ++ r.2.2) := by
    unfold Sided at hxs hys
    rw [h.left, List.pairwise_append] at hxs
    rw [h.right, List.pairwise_append] at hys
    obtain hend | hend := hend
    · rw [hend]
      exact hys.2.1
    · rw [hend, List.append_nil]
      exact hxs.2.1
  rw [List.append_assoc]
  exact List.pairwise_append.mpr ⟨h.sided, hrest, fun a ha b hb => h.le_rest hxs hys ha hb⟩

end Drawn

/-- Drawing from two lists, by induction on the number of elements to be drawn. -/
private theorem draw_yields {front : Bool} (n : Nat) (hxs : ∀ x ∈ xs, x ∈ U) (hys : ∀ y ∈ ys, y ∈ U)
    (hx : Sided front rank xs) (hy : Sided front rank ys) :
    (draw front n xs ys).Yields U rank fun r => ∃ xs₀ ys₀, Drawn front rank n xs ys xs₀ ys₀ r := by
  have nothing : ∀ {n xs ys}, n = 0 ∨ xs = [] ∨ ys = [] → Drawn front rank n xs ys [] [] ([], xs, ys) := by
    intro n xs ys hstop
    exact ⟨rfl, rfl, .refl _, .nil, by simp, by simp, Nat.zero_le _, hstop.imp_left Eq.symm⟩
  induction n generalizing xs ys with
  | zero => exact ⟨[], [], nothing (.inl rfl)⟩
  | succ n ih =>
    cases xs with
    | nil => exact ⟨[], [], nothing (.inr (.inl rfl))⟩
    | cons x xs =>
      cases ys with
      | nil => exact ⟨[], [], nothing (.inr (.inr rfl))⟩
      | cons y ys =>
        have hxs' := List.forall_mem_cons.mp hxs
        have hys' := List.forall_mem_cons.mp hys
        rw [draw, yields_bind, yields_before]
        refine ⟨hys'.1, hxs'.1, ?_⟩
        split
        case isTrue hbefore =>
          rw [yields_bind]
          refine (ih hxs hys'.2 hx hy.of_cons).mono ?_
          rintro r ⟨xs₀, ys₀, h⟩
          exact ⟨xs₀, y :: ys₀, h.cons_right hx hy (before_eq_iff.mp hbefore)⟩
        case isFalse hbefore =>
          rw [yields_bind]
          refine (ih hxs'.2 hys hx.of_cons hy).mono ?_
          rintro r ⟨xs₀, ys₀, h⟩
          exact ⟨x :: xs₀, ys₀, h.cons_left hx hy (not_lt.mp (mt before_eq_iff.mpr hbefore))⟩

/-- Drawing as many elements as there are merges two lists. -/
theorem draw_all_yields {front : Bool} (hxs : ∀ x ∈ xs, x ∈ U) (hys : ∀ y ∈ ys, y ∈ U) (hx : Sided front rank xs)
    (hy : Sided front rank ys) : (draw front (xs.length + ys.length) xs ys).Yields U rank fun r =>
      (r.1 ++ r.2.1 ++ r.2.2).Perm (xs ++ ys) ∧ Sided front rank (r.1 ++ r.2.1 ++ r.2.2) := by
  refine (draw_yields _ hxs hys hx hy).mono ?_
  rintro r ⟨xs₀, ys₀, h⟩
  refine ⟨h.perm_all, h.sided_all hx hy ?_⟩
  obtain hlength | hend := h.stops
  · have hall := h.perm_all.length_eq
    simp only [List.length_append] at hall
    exact .inl (List.eq_nil_of_length_eq_zero (by omega))
  · exact hend

/-- A merge of two ascending lists is ascending. -/
theorem merge_yields (hxs : ∀ x ∈ xs, x ∈ U) (hys : ∀ y ∈ ys, y ∈ U) (hx : Ascending rank xs)
    (hy : Ascending rank ys) :
    (merge xs ys).Yields U rank fun zs => zs.Perm (xs ++ ys) ∧ Ascending rank zs := by
  unfold merge
  split
  · rw [yields_bind]
    refine (draw_all_yields hxs hys (sided_true.mpr hx) (sided_true.mpr hy)).mono fun r ⟨hperm, hsided⟩ => ?_
    exact ⟨hperm, sided_true.mp hsided⟩
  · have hxs' : ∀ x ∈ xs.reverse, x ∈ U := by simpa using hxs
    have hys' : ∀ y ∈ ys.reverse, y ∈ U := by simpa using hys
    have hdraw := draw_all_yields hxs' hys' (sided_reverse.mpr hx) (sided_reverse.mpr hy)
    rw [List.length_reverse, List.length_reverse] at hdraw
    rw [yields_bind]
    refine hdraw.mono fun r ⟨hperm, hsided⟩ => ⟨?_, sided_false.mp hsided⟩
    exact (List.reverse_perm _).trans (hperm.trans (xs.reverse_perm.append ys.reverse_perm))

/-- Two cuts of one list, the first one behind the second: there is an element in between. -/
theorem exists_mem_between {as bs cs ds : List α} (h : as ++ bs = cs ++ ds) (hlength : cs.length < as.length) :
    ∃ a ∈ as, a ∈ ds := by
  obtain ⟨es, rfl, -⟩ | ⟨es, rfl, rfl⟩ := List.append_eq_append_iff.mp h
  · rw [List.length_append] at hlength
    omega
  · cases es with
    | nil =>
      rw [List.append_nil] at hlength
      exact absurd hlength (Nat.lt_irrefl _)
    | cons e es => exact ⟨e, by simp, by simp⟩

/-- Two cuts of one list, the first one not behind the second: what is in between ends the one and begins the other. -/
theorem between_eq {as bs cs ds : List α} (h : as ++ bs = cs ++ ds) (hle : as.length ≤ cs.length) :
    cs = as ++ bs.take (cs.length - as.length) ∧ bs = bs.take (cs.length - as.length) ++ ds := by
  obtain ⟨es, rfl, rfl⟩ | ⟨es, rfl, rfl⟩ := List.append_eq_append_iff.mp h
  · simp
  · obtain rfl : es = [] := List.eq_nil_of_length_eq_zero (by rw [List.length_append] at hle; omega)
    simp

namespace Drawn

variable {n m : Nat} {xs₀ ys₀ xs₁ ys₁ mx my : List α} {r s : List α × List α × List α}

/-- Merges from both ends cut each list twice. -/
theorem cuts (h : Drawn true rank n xs ys xs₀ ys₀ r) (h' : Drawn false rank m xs.reverse ys.reverse xs₁ ys₁ s) :
    xs₀ ++ r.2.1 = s.2.1.reverse ++ xs₁.reverse ∧ ys₀ ++ r.2.2 = s.2.2.reverse ++ ys₁.reverse := by
  constructor
  · rw [← h.left, ← List.reverse_append, ← h'.left, List.reverse_reverse]
  · rw [← h.right, ← List.reverse_append, ← h'.right, List.reverse_reverse]

/-- **Merges from both ends meet**: none takes an element that the other one has taken. -/
theorem meet (h : Drawn true rank n xs ys xs₀ ys₀ r) (h' : Drawn false rank m xs.reverse ys.reverse xs₁ ys₁ s)
    (hlength : r.1.length + s.1.length ≤ xs.length + ys.length) :
    xs.length ≤ r.2.1.length + s.2.1.length ∧ ys.length ≤ r.2.2.length + s.2.2.length := by
  obtain ⟨hx, hy⟩ := h.cuts h'
  -- an element of the one list that both have taken, and one of the other list that none has taken
  have lengths := And.intro (congrArg List.length h.left) (congrArg List.length h'.left)
  have lengths' := And.intro (congrArg List.length h.right) (congrArg List.length h'.right)
  have taken := And.intro h.perm.length_eq h'.perm.length_eq
  simp only [List.length_append, List.length_reverse] at lengths lengths' taken
  by_contra hfail
  obtain hfail | hfail := not_and_or.mp hfail
  · obtain ⟨a, ha, ha'⟩ := exists_mem_between hx (by rw [List.length_reverse]; omega)
    obtain ⟨b, hb', hb⟩ := exists_mem_between hy.symm (by rw [List.length_reverse]; omega)
    have hle := h.left_le a ha b hb
    have hlt := h'.left_le a (List.mem_reverse.mp ha') b (List.mem_reverse.mp hb')
    simp only [side, slack, if_true, Bool.false_eq_true, if_false] at hle hlt
    omega
  · obtain ⟨b, hb, hb'⟩ := exists_mem_between hy (by rw [List.length_reverse]; omega)
    obtain ⟨a, ha', ha⟩ := exists_mem_between hx.symm (by rw [List.length_reverse]; omega)
    have hlt := h.right_lt b hb a ha
    have hle := h'.right_lt b (List.mem_reverse.mp hb') a (List.mem_reverse.mp ha')
    simp only [side, slack, if_true, Bool.false_eq_true, if_false] at hle hlt
    omega

/-- Drawing no more elements than there are in each list draws exactly so many. -/
theorem length_eq {front : Bool} (h : Drawn front rank n xs ys xs₀ ys₀ r) (hxs : n ≤ xs.length)
    (hys : n ≤ ys.length) : r.1.length = n := by
  have hleft := congrArg List.length h.left
  have hright := congrArg List.length h.right
  have htaken := h.perm.length_eq
  have hle := h.length_le
  simp only [List.length_append] at hleft hright htaken
  obtain hlength | hend | hend := h.stops
  · exact hlength
  · rw [hend, List.length_nil] at hleft
    omega
  · rw [hend, List.length_nil] at hright
    omega

/-- What two merges have drawn, with what is left over in between, is sorted. -/
theorem ascending (hx : Ascending rank xs) (hy : Ascending rank ys) (h : Drawn true rank n xs ys xs₀ ys₀ r)
    (h' : Drawn false rank m xs.reverse ys.reverse xs₁ ys₁ s)
    (hmx : s.2.1.reverse = xs₀ ++ mx ∧ r.2.1 = mx ++ xs₁.reverse)
    (hmy : s.2.2.reverse = ys₀ ++ my ∧ r.2.2 = my ++ ys₁.reverse) (hlength : (mx ++ my).length ≤ 1) :
    Ascending rank (r.1 ++ (mx ++ my) ++ s.1.reverse) := by
  have hmiddle : Ascending rank (mx ++ my) := by
    match mx ++ my, hlength with
    | [], _ => exact .nil
    | [z], _ => exact List.pairwise_singleton _ _
  have first : ∀ a ∈ r.1, ∀ b ∈ r.2.1 ++ r.2.2, rank a ≤ rank b := fun a ha b hb => by
    simpa [side] using h.le_rest (sided_true.mpr hx) (sided_true.mpr hy) ha hb
  have last : ∀ b ∈ s.1, ∀ a ∈ s.2.1 ++ s.2.2, rank a ≤ rank b := fun b hb a ha => by
    simpa [side] using h'.le_rest (sided_reverse.mpr hx) (sided_reverse.mpr hy) hb ha
  refine List.pairwise_append.mpr ⟨List.pairwise_append.mpr ⟨sided_true.mp h.sided, hmiddle, fun a ha b hb => ?_⟩,
    sided_false.mp h'.sided, fun a ha b hb => ?_⟩
  · refine first a ha b ?_
    rw [hmx.2, hmy.2]
    simp only [List.mem_append] at hb ⊢
    exact hb.imp .inl .inl
  · have hb' := List.mem_reverse.mp hb
    obtain ha | ha := List.mem_append.mp ha
    · refine first a ha b ?_
      rw [hmx.2, hmy.2]
      have := List.mem_append.mp (h'.perm.mem_iff.mp hb')
      simp only [List.mem_append, List.mem_reverse]
      exact this.imp .inr .inr
    · refine last b hb' a ?_
      rw [List.mem_append, ← List.mem_reverse, hmx.1, ← @List.mem_reverse _ _ s.2.2, hmy.1]
      simp only [List.mem_append] at ha ⊢
      exact ha.imp .inr .inr

/-- Nothing is lost between two merges that meet. -/
theorem perm_between (h : Drawn true rank n xs ys xs₀ ys₀ r)
    (h' : Drawn false rank m xs.reverse ys.reverse xs₁ ys₁ s) (hmx : r.2.1 = mx ++ xs₁.reverse)
    (hmy : r.2.2 = my ++ ys₁.reverse) : (r.1 ++ (mx ++ my) ++ s.1.reverse).Perm (xs ++ ys) := by
  classical
  refine List.perm_iff_count.mpr fun a => ?_
  have hlow := h.perm.count_eq a
  have hhigh := h'.perm.count_eq a
  have hleft := congrArg (List.count a) h.left
  have hright := congrArg (List.count a) h.right
  rw [hmx] at hleft
  rw [hmy] at hright
  simp only [List.count_append, List.count_reverse] at hlow hhigh hleft hright ⊢
  omega

end Drawn

/-- Half of the elements are drawn from the front and half from the back, and they meet. -/
theorem mergeHalves_yields (hxs : ∀ x ∈ xs, x ∈ U) (hys : ∀ y ∈ ys, y ∈ U) (hx : Ascending rank xs)
    (hy : Ascending rank ys) (hlength : xs.length ≤ ys.length ∧ ys.length ≤ xs.length + 1) :
    (mergeHalves xs ys).Yields U rank fun zs => zs.Perm (xs ++ ys) ∧ Ascending rank zs := by
  unfold mergeHalves
  simp only [yields_bind]
  refine (draw_yields _ hxs hys (sided_true.mpr hx) (sided_true.mpr hy)).mono ?_
  rintro ⟨low, xs', ys'⟩ ⟨xs₀, ys₀, h⟩
  refine (draw_yields _ (by simpa using hxs) (by simpa using hys) (sided_reverse.mpr hx) (sided_reverse.mpr hy)).mono ?_
  rintro ⟨high, xs'', ys''⟩ ⟨xs₁, ys₁, h'⟩
  have hlow := h.length_eq le_rfl hlength.1
  have hhigh := h'.length_eq (by simp) (by simpa using hlength.1)
  have hmeet : xs.length ≤ xs'.length + xs''.length ∧ ys.length ≤ ys'.length + ys''.length := h.meet h' (by omega)
  simp only [if_pos hmeet, yields_pure]
  have hcut := And.intro (congrArg List.length h.left) (congrArg List.length h.right)
  have hcut' := And.intro (congrArg List.length h'.left) (congrArg List.length h'.right)
  have htaken := And.intro h.perm.length_eq h'.perm.length_eq
  simp only [List.length_append, List.length_reverse] at hcut hcut' htaken hlow hhigh
  -- the gap between the two cuts of each list
  have hmx := between_eq (h.cuts h').1 (by simp only [List.length_reverse]; omega)
  have hmy := between_eq (h.cuts h').2 (by simp only [List.length_reverse]; omega)
  have hgaps : xs''.reverse.length - xs₀.length = xs'.length + xs''.length - xs.length ∧
      ys''.reverse.length - ys₀.length = ys'.length + ys''.length - ys.length := by
    simp only [List.length_reverse]
    omega
  simp only [hgaps] at hmx hmy
  refine ⟨h.perm_between h' hmx.2 hmy.2, h.ascending hx hy h' hmx hmy ?_⟩
  simp only [List.length_append, List.length_take] at hcut hcut' htaken ⊢
  omega

/-! ### Small lists -/

/-- Two elements in order. -/
private theorem inOrder_yields {y : α} (hx : x ∈ U) (hy : y ∈ U) :
    (inOrder x y).Yields U rank fun r => [r.1, r.2].Perm [x, y] ∧ rank r.1 ≤ rank r.2 := by
  rw [inOrder, yields_bind, yields_before]
  refine ⟨hy, hx, ?_⟩
  split
  case isTrue hlt => exact ⟨.swap x y [], (of_decide_eq_true hlt).le⟩
  case isFalse hle => exact ⟨.refl _, by simpa using hle⟩

/-- Two elements between two others. -/
theorem ascending_between {a d l m y z : α} (hyz : [y, z].Perm [l, m]) (hle : rank y ≤ rank z)
    (ha : rank a ≤ rank l ∧ rank a ≤ rank m) (hd : rank l ≤ rank d ∧ rank m ≤ rank d) :
    [a, y, z, d].Perm [a, l, m, d] ∧ Ascending rank [a, y, z, d] := by
  have hbetween : ∀ b ∈ [y, z], rank a ≤ rank b ∧ rank b ≤ rank d := fun b hb => by
    obtain rfl | rfl : b = l ∨ b = m := by simpa using hyz.mem_iff.mp hb
    · exact ⟨ha.1, hd.1⟩
    · exact ⟨ha.2, hd.2⟩
  have hy := hbetween y (by simp)
  have hz := hbetween z (by simp)
  refine ⟨(hyz.append_right [d]).cons a, ?_⟩
  simp only [Ascending, List.pairwise_cons, List.mem_cons, List.not_mem_nil, or_false, forall_eq_or_imp, forall_eq]
  exact ⟨⟨hy.1, hz.1, hy.1.trans hy.2⟩, ⟨hle, hy.2⟩, hz.2, nofun, .nil⟩

/-- The last step of sorting four elements, of which the least and the greatest are known. -/
theorem between_yields {a d l m : α} {fours : List α} (hl : l ∈ U) (hm : m ∈ U) (hperm : [a, l, m, d].Perm fours)
    (ha : rank a ≤ rank l ∧ rank a ≤ rank m) (hd : rank l ≤ rank d ∧ rank m ≤ rank d) :
    (inOrder l m).Yields U rank fun r => (return [a, r.1, r.2, d] : Inquiry α (List α)).Yields U rank fun zs =>
      zs.Perm fours ∧ Ascending rank zs := by
  refine (inOrder_yields hl hm).mono ?_
  rintro ⟨y, z⟩ ⟨hyz, hle⟩
  obtain ⟨hfour, hasc⟩ := ascending_between hyz hle ha hd
  exact ⟨hfour.trans hperm, hasc⟩

/-- Four elements by five comparisons. -/
private theorem sortFour_yields {p q r s : α} (hU : ∀ a ∈ [p, q, r, s], a ∈ U) :
    (sortFour p q r s).Yields U rank fun zs => zs.Perm [p, q, r, s] ∧ Ascending rank zs := by
  have hU' := hU
  simp only [List.forall_mem_cons] at hU'
  obtain ⟨hp, hq, hr, hs, -⟩ := hU'
  unfold sortFour
  simp only [yields_bind, yields_before]
  refine (inOrder_yields hp hq).mono ?_
  rintro ⟨a, b⟩ ⟨hab, hle⟩
  refine (inOrder_yields hr hs).mono ?_
  rintro ⟨c, d⟩ ⟨hcd, hle'⟩
  have hperm : [a, b, c, d].Perm [p, q, r, s] := hab.append hcd
  have hmem : ∀ e ∈ [a, b, c, d], e ∈ U := fun e he => hU e (hperm.mem_iff.mp he)
  simp only [List.forall_mem_cons] at hmem
  obtain ⟨ha, hb, hc, hd, -⟩ := hmem
  refine ⟨hc, ha, hd, hb, ?_⟩
  dsimp only at hle hle' ⊢
  by_cases hlower : rank c < rank a <;> by_cases hupper : rank d < rank b <;>
    simp only [hlower, hupper, decide_true, decide_false, if_true, if_false, Bool.false_eq_true]
  · have hfour : [c, a, d, b].Perm [a, b, c, d] :=
      (List.Perm.swap a c _).trans ((@List.perm_append_comm _ [c, d] [b]).cons a)
    exact between_yields ha hd (hfour.trans hperm) (by omega) (by omega)
  · have hfour : [c, a, b, d].Perm [a, b, c, d] := (@List.perm_append_comm _ [c] [a, b]).append_right [d]
    exact between_yields ha hb (hfour.trans hperm) (by omega) (by omega)
  · have hfour : [a, c, d, b].Perm [a, b, c, d] := (@List.perm_append_comm _ [c, d] [b]).cons a
    exact between_yields hc hd (hfour.trans hperm) (by omega) (by omega)
  · exact between_yields hb hc hperm (by omega) (by omega)

/-- A half is sorted by insertion, perhaps after its first four elements have been sorted together. -/
private theorem sortHalf_yields {network : Bool} (hxs : ∀ x ∈ xs, x ∈ U) :
    (sortHalf network xs).Yields U rank fun zs => zs.Perm xs ∧ Ascending rank zs := by
  unfold sortHalf
  split
  case h_1 p q r s rest =>
    have hfours : ∀ a ∈ [p, q, r, s], a ∈ U := fun a ha => hxs a (List.mem_append_left rest ha)
    rw [yields_bind]
    refine (sortFour_yields hfours).mono fun zs ⟨hperm, hasc⟩ => ?_
    have hzs : ∀ z ∈ zs.reverse, z ∈ U := fun z hz => hfours z (hperm.mem_iff.mp (List.mem_reverse.mp hz))
    refine (insertAll_yields (fun a ha => hxs a (List.mem_append_right [p, q, r, s] ha)) hzs
      (List.pairwise_reverse.mpr hasc)).mono fun ws ⟨hws, hasc'⟩ => ⟨hws.trans ?_, hasc'⟩
    exact (zs.reverse_perm.trans hperm).append_right rest
  case h_2 => exact insertAll_yields hxs (List.forall_mem_nil _) .nil

/-- A small list is sorted in halves, which are merged. -/
theorem smallSort_sorts (v : List α) : (smallSort v).Sorts v := by
  intro U rank hv
  unfold smallSort
  split
  case isTrue hlength =>
    match v, hlength with
    | [], _ => exact ⟨.refl _, .nil⟩
    | [x], _ => exact ⟨.refl _, List.pairwise_singleton _ _⟩
  case isFalse hlength =>
    simp only [List.splitAt_eq, yields_bind]
    refine (sortHalf_yields fun x hx => hv x (List.mem_of_mem_take hx)).mono ?_
    rintro xs ⟨hxs, hx⟩
    refine (sortHalf_yields fun x hx => hv x (List.mem_of_mem_drop hx)).mono ?_
    rintro ys ⟨hys, hy⟩
    have hlengths := And.intro hxs.length_eq hys.length_eq
    simp only [List.length_take, List.length_drop] at hlengths
    have hxs' : ∀ x ∈ xs, x ∈ U := fun x hx => hv x (List.mem_of_mem_take (hxs.mem_iff.mp hx))
    have hys' : ∀ y ∈ ys, y ∈ U := fun y hy => hv y (List.mem_of_mem_drop (hys.mem_iff.mp hy))
    refine (mergeHalves_yields hxs' hys' hx hy (by omega)).mono ?_
    rintro zs ⟨hzs, hz⟩
    refine ⟨?_, hz⟩
    have hall := hzs.trans (hxs.append hys)
    rwa [List.take_append_drop] at hall

end Drift

end LazyXPath
