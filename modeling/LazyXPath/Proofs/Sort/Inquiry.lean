import LazyXPath.Sort.Inquiry
import Mathlib.Data.Set.Basic
import Mathlib.Data.List.Pairwise

/-!
# What an inquiry finds out

`Inquiry.Yields` says what an inquiry makes of answers that go by the ranks of elements. It takes care of where the
inquiry looks, too: it may ask about certain elements only, so that nothing else needs a rank.

A sort cannot order what it never asked about. If the elements fall into parts, it asks about two elements of different
parts, in whatever order they are given and whatever it is told about such elements
(`Inquiry.Sorts.exists_asked_apart`). Otherwise it would sort them in the same way whichever part is ranked first.
-/

namespace LazyXPath

namespace Inquiry

variable {α β γ ε κ : Type} {p : Inquiry α β} {f : β → Inquiry α γ} {less less' : α → α → Bool}

/-! ### Answers -/

@[simp]
theorem answer_pure {b : β} : (pure b : Inquiry α β).answer less = some b := rfl

theorem answer_bind : (p >>= f).answer less = (p.answer less).bind fun b => (f b).answer less := by
  change (p.bind f).answer less = _
  induction p with
  | done result => rfl
  | broken => rfl
  | ask a b next ih => exact ih _

/-- Only the answers to the questions that are asked matter. -/
theorem answer_congr (h : ∀ q ∈ p.asked less, less' q.1 q.2 = less q.1 q.2) : p.answer less' = p.answer less := by
  induction p with
  | done result => rfl
  | broken => rfl
  | ask a b next ih =>
    rw [asked, List.forall_mem_cons] at h
    rw [answer, answer, h.1]
    exact ih _ h.2

section Record

variable {compare : α → α → Except ε Ordering} {failure : Option ε} {e : ε}

/-- Failures do not matter for the result. -/
theorem record_fst : (p.record compare failure).1 = p.answer fun a b => isLess (compare a b) := by
  induction p generalizing failure with
  | done result => rfl
  | broken => rfl
  | ask a b next ih => exact ih _

/-- The failure that is kept is that of the first question that failed. -/
theorem record_snd : (p.record compare failure).2 =
    failure.or ((p.asked fun a b => isLess (compare a b)).findSome? fun q => failure? (compare q.1 q.2)) := by
  induction p generalizing failure with
  | done result => exact Option.or_none.symm
  | broken => exact Option.or_none.symm
  | ask a b next ih =>
    rw [record, ih, asked, List.findSome?_cons, Option.or_assoc]
    cases failure? (compare a b) <;> rfl

end Record

/-! ### Answers by ranks -/

/-- With answers that go by ranks, the inquiry asks about certain elements only, it does not break, and its result is as
described. -/
def Yields (U : Set α) (rank : α → Nat) : Inquiry α β → (β → Prop) → Prop
  | done result, Q => Q result
  | ask a b next, Q => a ∈ U ∧ b ∈ U ∧ (next (decide (rank a < rank b))).Yields U rank Q
  | broken, _ => False

section Yields

variable {U : Set α} {rank : α → Nat} {P Q : β → Prop} {R : γ → Prop}

@[simp]
theorem yields_pure {b : β} : (pure b : Inquiry α β).Yields U rank Q ↔ Q b := Iff.rfl

/-- What is said of the result may be weakened. -/
theorem Yields.mono (h : p.Yields U rank P) (hPQ : ∀ b, P b → Q b) : p.Yields U rank Q := by
  induction p with
  | done result => exact hPQ _ h
  | broken => exact h
  | ask a b next ih => exact ⟨h.1, h.2.1, ih _ h.2.2⟩

/-- An inquiry that goes on with the result of another one. -/
@[simp]
theorem yields_bind : (p >>= f).Yields U rank R ↔ p.Yields U rank fun b => (f b).Yields U rank R := by
  change (p.bind f).Yields U rank R ↔ _
  induction p with
  | done result => exact Iff.rfl
  | broken => exact Iff.rfl
  | ask a b next ih => exact and_congr_right fun _ => and_congr_right fun _ => ih _

@[simp]
theorem yields_before {a b : α} {Q : Bool → Prop} :
    (before a b).Yields U rank Q ↔ a ∈ U ∧ b ∈ U ∧ Q (decide (rank a < rank b)) := Iff.rfl

/-- The answers may come from any relation that goes by the ranks of the elements in question. -/
theorem Yields.answer (h : p.Yields U rank Q)
    (hless : ∀ a ∈ U, ∀ b ∈ U, less a b = decide (rank a < rank b)) :
    (∃ b, p.answer less = some b ∧ Q b) ∧ ∀ q ∈ p.asked less, q.1 ∈ U ∧ q.2 ∈ U := by
  induction p with
  | done result => exact ⟨⟨result, rfl, h⟩, by simp [asked]⟩
  | broken => exact h.elim
  | ask a b next ih =>
    obtain ⟨ha, hb, h⟩ := h
    rw [← hless a ha b hb] at h
    obtain ⟨hanswer, hasked⟩ := ih _ h
    exact ⟨hanswer, List.forall_mem_cons.mpr ⟨⟨ha, hb⟩, hasked⟩⟩

end Yields

/-! ### Sorts -/

/-- In ascending order of rank. -/
def Ascending (rank : α → Nat) (xs : List α) : Prop := xs.Pairwise (rank · ≤ rank ·)

/-- An inquiry that sorts a list, by whatever ranks, and asks about its elements only. -/
def Sorts (p : Inquiry α (List α)) (xs : List α) : Prop :=
  ∀ (U : Set α) (rank : α → Nat), (∀ x ∈ xs, x ∈ U) → p.Yields U rank fun ys => ys.Perm xs ∧ Ascending rank ys

/-- **A sort asks about elements of different parts**, if there are any, whatever the answers about them are. -/
theorem Sorts.exists_asked_apart {p : Inquiry α (List α)} {xs : List α} {part : α → κ} {place : α → Nat} {a b : α}
    (h : p.Sorts xs) (hless : ∀ x y, part x = part y → less x y = decide (place x < place y)) (ha : a ∈ xs)
    (hb : b ∈ xs) (hab : part a ≠ part b) : ∃ q ∈ p.asked less, part q.1 ≠ part q.2 := by
  classical
  by_contra hno
  push Not at hno
  -- with these ranks the part of `a` comes first or last, as a whole
  let shifted (first : Bool) (x : α) : Nat :=
    if (part x = part a) = (first = true) then place x else place x + (place a + place b + 1)
  have hanswer : ∀ first, ∃ ys, p.answer less = some ys ∧ ys.Perm xs ∧ Ascending (shifted first) ys := by
    intro first
    have hsame : ∀ q ∈ p.asked less, decide (shifted first q.1 < shifted first q.2) = less q.1 q.2 := by
      intro q hq
      have hpart := hno q hq
      rw [hless _ _ hpart]
      simp only [shifted, hpart]
      split <;> simp
    have hcongr : p.answer (fun x y => decide (shifted first x < shifted first y)) = p.answer less := answer_congr hsame
    rw [← hcongr]
    exact ((h {x | x ∈ xs} (shifted first) fun x hx => hx).answer fun _ _ _ _ => rfl).1
  obtain ⟨ys, hys, hperm, hfirst⟩ := hanswer true
  obtain ⟨zs, hzs, -, hlast⟩ := hanswer false
  obtain rfl : ys = zs := Option.some.inj (hys.symm.trans hzs)
  let ordered (x y : α) : Prop := shifted true x ≤ shifted true y ∧ shifted false x ≤ shifted false y
  let comparable (x y : α) : Prop := ordered x y ∨ ordered y x
  have : Std.Symm comparable := ⟨fun _ _ => Or.symm⟩
  have hboth : ys.Pairwise comparable := (hfirst.and hlast).imp .inl
  have hsides : comparable a b :=
    hboth.forall_of_forall (fun _ _ => .inl ⟨le_rfl, le_rfl⟩) (hperm.mem_iff.mpr ha) (hperm.mem_iff.mpr hb)
  simp only [comparable, ordered, shifted, hab.symm, eq_iff_iff, iff_true, Bool.false_eq_true, iff_false, ite_not,
    ↓reduceIte] at hsides
  omega

end Inquiry

end LazyXPath
