import LazyXPath.Text.EditDistance
import Mathlib.Order.Bounds.Basic
import Mathlib.Order.MinMax

/-!
# The edit distance is the least number of edits

An **edit** inserts, deletes or replaces a single character, anywhere in a text. The least number of edits between two
texts is described by cases on their first characters (`distance`, `distance_isLeast`): no edit brings a text closer to
another one by more than one, and each case is made of edits.

The rows of the computation hold these distances. The computation goes through both texts from their beginnings, so an
entry is a distance between prefixes, and `distance` is asked for the prefixes in reverse (`entries`); edits do not care
about the direction. If two characters are equal, the computation looks at the diagonal entry alone, which is right
because the other two entries differ from it by at most one (`distance_cons_self`).
-/

namespace LazyXPath.Text

variable {as bs cs : List Char} {m n : Nat}

/-! ### Edits -/

/-- An insertion, a deletion or a substitution of a single character. -/
inductive Edit : List Char → List Char → Prop where
  | insert (before after : List Char) (c : Char) : Edit (before ++ after) (before ++ c :: after)
  | delete (before after : List Char) (c : Char) : Edit (before ++ c :: after) (before ++ after)
  | substitute (before after : List Char) (c d : Char) : Edit (before ++ c :: after) (before ++ d :: after)

/-- A number of edits one after the other. -/
inductive Edits : Nat → List Char → List Char → Prop where
  | refl (as : List Char) : Edits 0 as as
  | head {n : Nat} {as bs cs : List Char} (first : Edit as bs) (rest : Edits n bs cs) : Edits (n + 1) as cs

/-- An edit can be taken back by an edit. -/
private theorem Edit.symm (h : Edit as bs) : Edit bs as := by
  cases h with
  | insert before after c => exact .delete before after c
  | delete before after c => exact .insert before after c
  | substitute before after c d => exact .substitute before after d c

/-- An edit may take place behind another character. -/
private theorem Edit.cons (c : Char) (h : Edit as bs) : Edit (c :: as) (c :: bs) := by
  cases h with
  | insert before after d => exact .insert (c :: before) after d
  | delete before after d => exact .delete (c :: before) after d
  | substitute before after d d' => exact .substitute (c :: before) after d d'

/-- Edits do not care about the direction. -/
private theorem Edit.reverse (h : Edit as bs) : Edit as.reverse bs.reverse := by
  cases h with
  | insert before after c => simpa using Edit.insert after.reverse before.reverse c
  | delete before after c => simpa using Edit.delete after.reverse before.reverse c
  | substitute before after c d => simpa using Edit.substitute after.reverse before.reverse c d

namespace Edits

/-- Edits of one text and then of the next one. -/
private theorem trans (h : Edits m as bs) (h' : Edits n bs cs) : Edits (m + n) as cs := by
  induction h with
  | refl => rwa [Nat.zero_add]
  | head first _ ih =>
    rw [Nat.succ_add]
    exact .head first (ih h')

/-- Edits are taken back one by one, in reverse order. -/
private theorem symm (h : Edits n as bs) : Edits n bs as := by
  induction h with
  | refl as => exact .refl as
  | head first _ ih => exact ih.trans (.head first.symm (.refl _))

/-- Behind another character the same edits lead as far. -/
private theorem cons (c : Char) (h : Edits n as bs) : Edits n (c :: as) (c :: bs) := by
  induction h with
  | refl as => exact .refl (c :: as)
  | head first _ ih => exact .head (first.cons c) ih

/-- Read from their ends, texts are as many edits apart. -/
private theorem reverse (h : Edits n as bs) : Edits n as.reverse bs.reverse := by
  induction h with
  | refl as => exact .refl as.reverse
  | head first _ ih => exact .head first.reverse ih

private theorem reverse_iff : Edits n as.reverse bs.reverse ↔ Edits n as bs :=
  ⟨fun h => by simpa using h.reverse, reverse⟩

/-- Without edits the text stays as it is. -/
private theorem zero_iff : Edits 0 as bs ↔ as = bs :=
  ⟨fun h => by cases h; rfl, fun h => h ▸ .refl as⟩

/-- All characters are deleted. -/
theorem delete_all (as : List Char) : Edits as.length as [] := by
  induction as with
  | nil => exact .refl []
  | cons a as ih => exact .head (.delete [] as a) ih

end Edits

/-! ### Distances by cases on the first characters -/

/-- The distance of two texts by cases on their first characters: the first one is deleted, the second one is inserted,
or the first one becomes the second one. -/
def distance : List Char → List Char → Nat
  | [], bs => bs.length
  | a :: as, [] => as.length + 1
  | a :: as, b :: bs =>
    min (min (distance as (b :: bs) + 1) (distance (a :: as) bs + 1)) (distance as bs + if a = b then 0 else 1)

/-- Everything is inserted. -/
@[simp]
theorem distance_nil_left (bs : List Char) : distance [] bs = bs.length := by rw [distance]

/-- Everything is deleted. -/
@[simp]
theorem distance_nil_right (as : List Char) : distance as [] = as.length := by
  cases as <;> simp [distance]

/-- The recursion, with the three ways to treat the first characters. -/
private theorem distance_cons_cons (a b : Char) (as bs : List Char) : distance (a :: as) (b :: bs) =
    min (min (distance as (b :: bs) + 1) (distance (a :: as) bs + 1)) (distance as bs + if a = b then 0 else 1) := by
  rw [distance]

/-- The recursion does not care which text is the first one. -/
private theorem distance_comm (as bs : List Char) : distance as bs = distance bs as := by
  fun_induction distance as bs with
  | case1 bs => rw [distance_nil_right]
  | case2 a as => rw [distance_nil_left, List.length_cons]
  | case3 a as b bs ih₁ ih₂ ih₃ =>
    rw [distance_cons_cons, ih₁, ih₂, ih₃, min_comm (distance (b :: bs) as + 1)]
    simp only [eq_comm]

/-- The diagonal costs nothing where the characters are equal. -/
private theorem distance_self (as : List Char) : distance as as = 0 := by
  induction as with
  | nil => rw [distance_nil_left, List.length_nil]
  | cons a as ih => rw [distance_cons_cons, ih, if_pos rfl, Nat.add_zero, Nat.min_zero]

/-! ### Edits change distances by at most one -/

/-- One more character to delete. -/
theorem distance_cons_le (c : Char) (as bs : List Char) : distance (c :: as) bs ≤ distance as bs + 1 := by
  cases bs with
  | nil => simp
  | cons b bs =>
    rw [distance_cons_cons]
    omega

/-- One character less. -/
theorem distance_le_cons (c : Char) (as bs : List Char) : distance as bs ≤ distance (c :: as) bs + 1 := by
  induction bs with
  | nil =>
    rw [distance_nil_right, distance_nil_right, List.length_cons]
    omega
  | cons b bs ih =>
    have hinsert : distance as (b :: bs) ≤ distance as bs + 1 := by
      rw [distance_comm as, distance_comm as]
      exact distance_cons_le b bs as
    rw [distance_cons_cons]
    omega

/-- Another character. -/
theorem distance_cons_le_cons (c d : Char) (as bs : List Char) :
    distance (c :: as) bs ≤ distance (d :: as) bs + 1 := by
  induction bs with
  | nil => simp
  | cons b bs ih =>
    rw [distance_cons_cons, distance_cons_cons]
    split <;> split <;> omega

/-- The same character in front of texts whose distances differ by at most one. -/
theorem distance_cons_le_of_forall (h : ∀ cs, distance as cs ≤ distance bs cs + 1) (c : Char) (cs : List Char) :
    distance (c :: as) cs ≤ distance (c :: bs) cs + 1 := by
  induction cs with
  | nil =>
    have hlength := h []
    simp only [distance_nil_right, List.length_cons] at hlength ⊢
    omega
  | cons d cs ih =>
    have hdelete := h (d :: cs)
    have hkeep := h cs
    rw [distance_cons_cons, distance_cons_cons]
    omega

/-- **An edit does not bring a text closer to another one by more than one.** -/
theorem Edit.distance_le (h : Edit as bs) (cs : List Char) : distance as cs ≤ distance bs cs + 1 := by
  cases h with
  | insert before after c =>
    induction before generalizing cs with
    | nil => exact distance_le_cons c after cs
    | cons d before ih => exact distance_cons_le_of_forall ih d cs
  | delete before after c =>
    induction before generalizing cs with
    | nil => exact distance_cons_le c after cs
    | cons d before ih => exact distance_cons_le_of_forall ih d cs
  | substitute before after c c' =>
    induction before generalizing cs with
    | nil => exact distance_cons_le_cons c c' after cs
    | cons d before ih => exact distance_cons_le_of_forall ih d cs

/-- **Equal characters**: nothing is gained by an insertion or a deletion in front of them. -/
theorem distance_cons_self (a : Char) (as bs : List Char) : distance (a :: as) (a :: bs) = distance as bs := by
  have hdelete := distance_le_cons a bs as
  have hinsert := distance_le_cons a as bs
  rw [distance_comm bs, distance_comm (a :: bs)] at hdelete
  rw [distance_cons_cons, if_pos rfl]
  omega

/-! ### The least number of edits -/

/-- Each edit brings the texts closer by at most one. -/
private theorem distance_le_of_edits (h : Edits n as bs) : distance as bs ≤ n := by
  induction h with
  | refl as => exact Nat.le_of_eq (distance_self as)
  | head first _ ih => exact (first.distance_le _).trans (Nat.succ_le_succ ih)

/-- Each case of the recursion is made of edits. -/
private theorem edits_distance (as bs : List Char) : Edits (distance as bs) as bs := by
  fun_induction distance as bs with
  | case1 bs => exact (Edits.delete_all bs).symm
  | case2 a as => exact .delete_all (a :: as)
  | case3 a as b bs hdelete hinsert hkeep =>
    -- the least of the three cases is one of them
    obtain h | h := min_choice (min (distance as (b :: bs) + 1) (distance (a :: as) bs + 1))
      (distance as bs + if a = b then 0 else 1)
    · rw [h]
      obtain h | h := min_choice (distance as (b :: bs) + 1) (distance (a :: as) bs + 1)
      · rw [h]
        exact .head (.delete [] as a) hdelete
      · rw [h]
        exact .head (.insert [] (a :: as) b) (hinsert.cons b)
    · rw [h]
      split
      case isTrue hab => exact hab ▸ hkeep.cons a
      case isFalse => exact .head (.substitute [] as a b) (hkeep.cons b)

theorem distance_isLeast (as bs : List Char) : IsLeast {n | Edits n as bs} (distance as bs) :=
  ⟨edits_distance as bs, fun _ h => distance_le_of_edits h⟩

/-! ### The rows of the computation -/

/-- The entries of a row behind the first one: the distances of a text to the prefixes of a list behind `prior`. The
text and `prior` are in reverse, the list is not. -/
def entries (as prior : List Char) : List Char → List Nat
  | [] => []
  | b :: bs => distance as (b :: prior) :: entries as (b :: prior) bs

/-- The entry of a row, from the three entries beside it. -/
theorem distance_cons_eq (a b : Char) (as bs : List Char) : distance (a :: as) (b :: bs) =
    if a = b then distance as bs
    else 1 + min (min (distance as bs) (distance as (b :: bs))) (distance (a :: as) bs) := by
  split
  case isTrue h => rw [h, distance_cons_self]
  case isFalse h =>
    rw [distance_cons_cons, if_neg h]
    omega

/-- The entries behind an entry, each computed from the one before it and from the row above. -/
private theorem nextEntries_entries (a : Char) (as prior bs : List Char) :
    nextEntries a (distance as prior) (distance (a :: as) prior) (bs.zip (entries as prior bs)) =
      entries (a :: as) prior bs := by
  induction bs generalizing prior with
  | nil => rfl
  | cons b bs ih => simp only [entries, List.zip_cons_cons, nextEntries, ← distance_cons_eq, ih]

/-- A row of distances is made of the row above, by one more character of the first text. -/
private theorem nextRow_entries (a : Char) (as bs : List Char) :
    nextRow bs (distance as [] :: entries as [] bs) a = distance (a :: as) [] :: entries (a :: as) [] bs := by
  have hfirst : distance as [] + 1 = distance (a :: as) [] := by simp
  rw [nextRow, hfirst, nextEntries_entries]

/-- The first row counts up: everything is inserted. -/
private theorem entries_nil (prior bs : List Char) :
    entries [] prior bs = List.range' (prior.length + 1) bs.length := by
  induction bs generalizing prior with
  | nil => rfl
  | cons b bs ih => simp [entries, ih, List.range'_succ]

/-- The rows after some more characters of the first text. -/
theorem foldl_nextRow (as prior bs : List Char) :
    as.foldl (nextRow bs) (distance prior [] :: entries prior [] bs) =
      distance (as.reverse ++ prior) [] :: entries (as.reverse ++ prior) [] bs := by
  induction as generalizing prior with
  | nil => rfl
  | cons a as ih => simp only [List.foldl_cons, nextRow_entries, ih, List.reverse_cons, List.append_assoc,
      List.singleton_append]

/-- The last entry of a row is the distance to the whole second text. -/
private theorem getLastD_entries (as prior bs : List Char) :
    (entries as prior bs).getLastD (distance as prior) = distance as (bs.reverse ++ prior) := by
  induction bs generalizing prior with
  | nil => rfl
  | cons b bs ih => simp only [entries, List.getLastD_cons, ih, List.reverse_cons, List.append_assoc,
      List.singleton_append]

/-- The computation gives the distance of the reversed texts. -/
private theorem editDistance_eq_distance (as bs : List Char) :
    editDistance as bs = distance as.reverse bs.reverse := by
  have hfirst : List.range (bs.length + 1) = distance [] [] :: entries [] [] bs := by
    rw [entries_nil, distance_nil_left, List.range_eq_range', List.range'_succ, List.length_nil]
  rw [editDistance, hfirst, foldl_nextRow, List.getLastD_cons, getLastD_entries, List.append_nil, List.append_nil]

/-- The computation gives the least number of edits. -/
private theorem editDistance_isLeast (as bs : List Char) : IsLeast {n | Edits n as bs} (editDistance as bs) := by
  rw [editDistance_eq_distance]
  simpa only [Edits.reverse_iff] using distance_isLeast as.reverse bs.reverse

/-- **The edit distance** of two texts is the least number of insertions, deletions and substitutions of single
characters that turn one into the other. So it is zero only between equal texts, it is symmetric, and it satisfies the
triangle inequality. -/
theorem editDistance_levenshtein (as bs : List Char) :
    IsLeast {n | Edits n as bs} (editDistance as bs) ∧ (editDistance as bs = 0 ↔ as = bs) ∧
      editDistance as bs = editDistance bs as ∧
      ∀ cs, editDistance as cs ≤ editDistance as bs + editDistance bs cs := by
  obtain ⟨hreach, hleast⟩ := editDistance_isLeast as bs
  obtain ⟨hreach', hleast'⟩ := editDistance_isLeast bs as
  refine ⟨⟨hreach, hleast⟩, ⟨fun h => ?_, ?_⟩, ?_, fun cs => ?_⟩
  · exact Edits.zero_iff.mp (h ▸ hreach)
  · rintro rfl
    exact Nat.le_zero.mp (hleast (.refl as))
  · exact Nat.le_antisymm (hleast hreach'.symm) (hleast' hreach.symm)
  · exact (editDistance_isLeast as cs).2 (hreach.trans (editDistance_isLeast bs cs).1)

example : editDistance "kitten".toList "sitting".toList = 3 := by decide

end LazyXPath.Text
