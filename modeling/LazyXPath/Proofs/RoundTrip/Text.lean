import LazyXPath.Decimal.Text
import LazyXPath.Text.NameForm
import Mathlib.Algebra.Group.Nat.Defs
import Mathlib.Data.List.Basic

/-!
# White space and digits under reading and writing

Texts are read after their white space is normalized, so a written text is read as it stands only if
normalization leaves it alone. That holds of every normalized text (`collapse_collapse`) and of every
**solid** text, which has no white space (`Solid.collapse`).

Numbers are written by their decimal digits, padded in front to a width or stripped of zeros behind a
point. Reading the digits gives the number back, also where more text follows.
-/

namespace LazyXPath

namespace Text

/-! ### White space -/

/-- A text without white space. -/
def Solid (cs : List Char) : Prop := ∀ c ∈ cs, isBlank c = false

namespace Solid

variable {cs ds : List Char} {c : Char}

@[simp] theorem nil : Solid [] := List.forall_mem_nil _

@[simp] theorem cons_iff : Solid (c :: cs) ↔ isBlank c = false ∧ Solid cs := List.forall_mem_cons

@[simp] theorem append_iff : Solid (cs ++ ds) ↔ Solid cs ∧ Solid ds := List.forall_mem_append

theorem of_isDigit (h : ∀ c ∈ cs, c.isDigit) : Solid cs := by
  intro c hc
  have hdigit := h c hc
  by_contra hblank
  simp only [isBlank, Bool.not_eq_false, Bool.or_eq_true, beq_iff_eq] at hblank
  rcases hblank with (((rfl | rfl) | rfl) | rfl) | rfl <;> exact absurd hdigit (by decide)

/-- A solid text at the front goes to the word that is being read. -/
theorem wordsFrom_append (h : Solid cs) (word ds : List Char) :
    wordsFrom word (cs ++ ds) = wordsFrom (cs.reverse ++ word) ds := by
  induction cs generalizing word with
  | nil => rfl
  | cons c cs ih =>
    obtain ⟨hc, hcs⟩ := cons_iff.mp h
    simp [wordsFrom, hc, ih hcs]

/-- Normalization leaves a solid text alone. -/
theorem collapse (h : Solid cs) : Text.collapse cs = cs := by
  have hwords : words cs = if cs.isEmpty then [] else [cs] := by
    simpa [words, wordsFrom] using h.wordsFrom_append [] []
  cases cs with
  | nil => rfl
  | cons c cs => simp [Text.collapse, hwords, unwords]

end Solid

/-- The words of a text are solid and not empty. -/
theorem solid_of_mem_wordsFrom {word cs w : List Char} (hword : Solid word)
    (h : w ∈ wordsFrom word cs) : Solid w ∧ w ≠ [] := by
  induction cs generalizing word with
  | nil =>
    simp only [wordsFrom] at h
    split at h
    · exact absurd h List.not_mem_nil
    · obtain rfl := List.mem_singleton.mp h
      simp_all [Solid]
  | cons c cs ih =>
    simp only [wordsFrom] at h
    split at h
    · split at h
      · exact ih Solid.nil h
      · obtain rfl | h := List.mem_cons.mp h
        · simp_all [Solid]
        · exact ih Solid.nil h
    · exact ih (Solid.cons_iff.mpr ⟨by simp_all, hword⟩) h

/-- Words that have been put together with blanks are found again. -/
theorem words_unwords {ws : List (List Char)} (h : ∀ w ∈ ws, Solid w ∧ w ≠ []) :
    words (unwords ws) = ws := by
  induction ws with
  | nil => rfl
  | cons w ws ih =>
    obtain ⟨hw, hne⟩ := h w List.mem_cons_self
    cases ws with
    | nil => simpa [words, unwords, wordsFrom, hne] using hw.wordsFrom_append [] []
    | cons v ws =>
      rw [unwords, words, hw.wordsFrom_append, List.append_nil]
      · have hblank : isBlank ' ' = true := by decide
        have hrest : wordsFrom [] (unwords (v :: ws)) = v :: ws :=
          ih fun u hu => h u (List.mem_cons_of_mem _ hu)
        simp [wordsFrom, hblank, hne, hrest]
      · simp

/-- Normalization is done once. -/
theorem collapse_collapse (cs : List Char) : collapse (collapse cs) = collapse cs := by
  have hwords : words (unwords (words cs)) = words cs :=
    words_unwords fun w hw => solid_of_mem_wordsFrom Solid.nil hw
  rw [collapse, collapse, hwords]

/-- Breaks that have been replaced are gone. -/
theorem replaceBreaks_replaceBreaks (cs : List Char) :
    replaceBreaks (replaceBreaks cs) = replaceBreaks cs := by
  simp only [replaceBreaks, List.map_map]
  refine List.map_congr_left fun c _ => ?_
  simp only [Function.comp_apply]
  split <;> simp_all

end Text

/-! ### Digits -/

/-- The text does not go on with a digit. -/
def NoDigit (rest : List Char) : Prop := ∀ c ∈ rest.head?, c.isDigit = false

@[simp] theorem NoDigit.nil : NoDigit [] := fun _ hc => nomatch hc

@[simp] theorem NoDigit.cons_iff {c : Char} {cs : List Char} :
    NoDigit (c :: cs) ↔ c.isDigit = false := by
  simp [NoDigit]

/-- The digits at the front of a text end where no digit follows. -/
theorem takeWhile_isDigit {ds rest : List Char} (hds : ∀ c ∈ ds, c.isDigit) (hrest : NoDigit rest) :
    (ds ++ rest).takeWhile Char.isDigit = ds := by
  rw [List.takeWhile_append_of_pos hds]
  cases rest with
  | nil => simp
  | cons c rest => simp [NoDigit.cons_iff.mp hrest]

theorem digitsValue_eq_ofDigitChars (cs : List Char) : digitsValue cs = Nat.ofDigitChars 10 cs 0 :=
  rfl

/-- Zeros in front do not count. -/
theorem digitsValue_replicate_append (k : Nat) (cs : List Char) :
    digitsValue (List.replicate k '0' ++ cs) = digitsValue cs := by
  simp [digitsValue_eq_ofDigitChars, Nat.ofDigitChars_append]

@[simp] theorem digitsValue_toDigits (n : Nat) : digitsValue (Nat.toDigits 10 n) = n :=
  Nat.ofDigitChars_ten_toDigits

theorem isDigit_of_mem_toDigits {n : Nat} {c : Char} (h : c ∈ Nat.toDigits 10 n) : c.isDigit :=
  Nat.isDigit_of_mem_toDigits (by decide) (by decide) h

theorem isNumeral_of_isDigit {cs : List Char} (hne : cs ≠ []) (h : ∀ c ∈ cs, c.isDigit) :
    isNumeral cs = true := by
  simp only [isNumeral, Bool.and_eq_true, Bool.not_eq_true', List.isEmpty_eq_false_iff, List.all_eq_true]
  exact ⟨hne, h⟩

theorem isNumeral_toDigits (n : Nat) : isNumeral (Nat.toDigits 10 n) = true :=
  isNumeral_of_isDigit Nat.toDigits_ne_nil fun _ => isDigit_of_mem_toDigits

/-- A number other than zero does not begin with a zero. -/
theorem head?_toDigits_ne_zero {n : Nat} (hn : n ≠ 0) : (Nat.toDigits 10 n).head? ≠ some '0' := by
  induction n using Nat.strongRecOn with
  | _ n ih =>
    -- the first digit is the one of `n / 10`, unless there is only one
    obtain hlt | hle := Nat.lt_or_ge n 10
    · have hdigit : ∀ m < 10, m ≠ 0 → Nat.digitChar m ≠ '0' := by decide
      rw [Nat.toDigits_of_lt_base hlt]
      simpa using hdigit n hlt hn
    · rw [Nat.toDigits_of_base_le (by decide) hle, List.head?_append_of_ne_nil _ Nat.toDigits_ne_nil]
      exact ih (n / 10) (by omega) (by omega)

theorem digitValue_lt {c : Char} (h : c.isDigit) : digitValue c < 10 := by
  have hle : c.toNat ≤ '9'.toNat := by
    simp only [Char.isDigit, Bool.and_eq_true, decide_eq_true_eq] at h
    exact UInt32.le_iff_toNat_le.mp h.2
  have h9 : '9'.toNat = 57 := rfl
  have h0 : '0'.toNat = 48 := rfl
  unfold digitValue
  omega

private theorem digitValue_eq_zero_iff {c : Char} (h : c.isDigit) : digitValue c = 0 ↔ c = '0' := by
  constructor
  · intro hzero
    have hge : '0'.toNat ≤ c.toNat := by
      simp only [Char.isDigit, Bool.and_eq_true, decide_eq_true_eq] at h
      exact UInt32.le_iff_toNat_le.mp h.1
    have heq : c.toNat = '0'.toNat := by
      unfold digitValue at hzero
      omega
    rw [← Char.ofNat_toNat c, heq]
    rfl
  · rintro rfl
    rfl

/-- Digits are read by their places. -/
theorem digitsValue_append (cs ds : List Char) :
    digitsValue (cs ++ ds) = digitsValue cs * 10 ^ ds.length + digitsValue ds := by
  rw [digitsValue_eq_ofDigitChars, Nat.ofDigitChars_append, Nat.ofDigitChars_eq_ofDigitChars_zero, Nat.mul_comm]
  rfl

theorem digitsValue_cons (c : Char) (cs : List Char) :
    digitsValue (c :: cs) = digitValue c * 10 ^ cs.length + digitsValue cs := by
  have hsingle : digitsValue [c] = digitValue c := by simp [digitsValue]
  rw [← List.singleton_append, digitsValue_append, hsingle]

theorem digitsValue_lt {cs : List Char} (h : ∀ c ∈ cs, c.isDigit) : digitsValue cs < 10 ^ cs.length := by
  induction cs with
  | nil => decide
  | cons c cs ih =>
    obtain ⟨hc, hcs⟩ := List.forall_mem_cons.mp h
    have hdigit := Nat.mul_le_mul_right (10 ^ cs.length) (Nat.le_of_lt_succ (digitValue_lt hc))
    have hrest := ih hcs
    rw [digitsValue_cons, List.length_cons, Nat.pow_succ]
    omega

/-- A number is zero only if all of its digits are. -/
theorem digitsValue_eq_zero_iff {cs : List Char} (h : ∀ c ∈ cs, c.isDigit) :
    digitsValue cs = 0 ↔ ∀ c ∈ cs, c = '0' := by
  induction cs with
  | nil => exact iff_of_true rfl (List.forall_mem_nil _)
  | cons c cs ih =>
    obtain ⟨hc, hcs⟩ := List.forall_mem_cons.mp h
    have hpos : 10 ^ cs.length ≠ 0 := Nat.ne_of_gt (Nat.pow_pos (show 0 < 10 by decide))
    rw [digitsValue_cons, Nat.add_eq_zero_iff, Nat.mul_eq_zero, or_iff_left hpos, ih hcs, digitValue_eq_zero_iff hc,
      List.forall_mem_cons]

/-- The digits at the front of a text and what is behind them. -/
theorem takeWhile_isDigit_append (cs : List Char) :
    cs.takeWhile Char.isDigit ++ cs.drop (cs.takeWhile Char.isDigit).length = cs :=
  List.prefix_iff_eq_append.mp (List.takeWhile_prefix _)

theorem isDigit_of_mem_takeWhile {cs : List Char} {c : Char} (h : c ∈ cs.takeWhile Char.isDigit) : c.isDigit :=
  List.all_eq_true.mp List.all_takeWhile c h

namespace padded

variable {w n : Nat}

theorem toList (width n : Nat) : (padded width n).toList =
    List.replicate (width - (Nat.toDigits 10 n).length) '0' ++ Nat.toDigits 10 n := by
  simp [padded]

theorem isDigit {c : Char} (hc : c ∈ (padded w n).toList) : c.isDigit := by
  rw [toList, List.mem_append] at hc
  obtain hc | hc := hc
  · rw [List.eq_of_mem_replicate hc]
    rfl
  · exact isDigit_of_mem_toDigits hc

theorem solid (width n : Nat) : Text.Solid (padded width n).toList :=
  .of_isDigit fun _ => isDigit

@[simp] theorem digitsValue (width n : Nat) : digitsValue (padded width n).toList = n := by
  rw [toList, digitsValue_replicate_append, digitsValue_toDigits]

theorem le_length (width n : Nat) : width ≤ (padded width n).toList.length := by
  simp only [toList, List.length_append, List.length_replicate]
  omega

/-- A number that fits has exactly the given width. -/
theorem length_eq (hw : 0 < w) (hn : n < 10 ^ w) : (padded w n).toList.length = w := by
  have := (Nat.length_toDigits_le_iff (by decide) hw).mpr hn
  simp only [toList, List.length_append, List.length_replicate]
  omega

end padded

end LazyXPath
