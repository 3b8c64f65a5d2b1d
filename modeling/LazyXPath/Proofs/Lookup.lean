import LazyXPath.Proofs.Registration
import Mathlib.Order.Bounds.Basic

/-!
# Lookups of functions

A name without a namespace is looked up as it is written and then in a default namespace. The overloads that
accept the number of arguments are taken from the first of the two names that has some. If there are none, then the
failure is that of the second name alone: `Registry.resolve_outcomes` says for every registry which overloads are
found and which failure there is otherwise.

The numbers of arguments that a failure mentions are those of the overloads, in increasing order and without
repetition (`mem_fixedArities`, `increasing_fixedArities`), and the least one of the overloads that are variadic
(`variadicFrom?_eq_some_iff`).
-/

namespace LazyXPath

/-! ### Sorted lists without repetition -/

section

variable {a x : Nat} {as acc : List Nat}

private theorem mem_eraseRepsBy_loop : x ∈ List.eraseRepsBy.loop (· == ·) a as acc ↔ x ∈ acc ∨ x = a ∨ x ∈ as := by
  induction as generalizing a acc with
  | nil => simp [List.eraseRepsBy.loop, or_comm]
  | cons b as ih =>
    rw [List.eraseRepsBy.loop]
    cases hab : a == b with
    | true =>
      obtain rfl : a = b := eq_of_beq hab
      simp [ih]
    | false => simp [ih, or_assoc, or_left_comm]

/-- Runs of equal elements are all that is left of repetitions in a sorted list. -/
theorem increasing_eraseRepsBy_loop (has : (a :: as).Pairwise (· ≤ ·)) (hacc : (a :: acc).Pairwise (· > ·)) :
    (List.eraseRepsBy.loop (· == ·) a as acc).Pairwise (· < ·) := by
  induction as generalizing a acc with
  | nil => exact List.pairwise_reverse.mpr hacc
  | cons b as ih =>
    obtain ⟨hle, has⟩ := List.pairwise_cons.mp has
    rw [List.eraseRepsBy.loop]
    cases hab : a == b with
    | true =>
      obtain rfl : a = b := eq_of_beq hab
      exact ih has hacc
    | false =>
      have hlt : a < b := Nat.lt_of_le_of_ne (hle b (.head _)) (ne_of_beq_false hab)
      refine ih has (List.pairwise_cons.mpr ⟨?_, hacc⟩)
      intro c hc
      obtain rfl | hc := List.mem_cons.mp hc
      · exact hlt
      · exact ((List.pairwise_cons.mp hacc).1 c hc).trans hlt

private theorem mem_eraseReps : x ∈ as.eraseReps ↔ x ∈ as := by
  cases as with
  | nil => rfl
  | cons a as =>
    rw [List.eraseReps, List.eraseRepsBy, mem_eraseRepsBy_loop]
    simp

private theorem increasing_eraseReps (has : as.Pairwise (· ≤ ·)) : as.eraseReps.Pairwise (· < ·) := by
  cases as with
  | nil => exact .nil
  | cons a as => exact increasing_eraseRepsBy_loop has (List.pairwise_singleton _ _)

end

namespace Registry

/-! ### Numbers of arguments -/

section

variable {fs : List Function} {n : Nat}

theorem mem_fixedArities : n ∈ fixedArities fs ↔ ∃ f ∈ fs, f.signature.rest = none ∧ f.arity = n := by
  simp only [fixedArities, mem_eraseReps, List.mem_mergeSort, List.mem_map, List.mem_filter, Option.isNone_iff_eq_none,
    and_assoc]

theorem increasing_fixedArities (fs : List Function) : (fixedArities fs).Pairwise (· < ·) := by
  refine increasing_eraseReps ?_
  have htrans (a b c : Nat) (hab : decide (a ≤ b) = true) (hbc : decide (b ≤ c) = true) : decide (a ≤ c) = true :=
    decide_eq_true ((of_decide_eq_true hab).trans (of_decide_eq_true hbc))
  have htotal (a b : Nat) : (decide (a ≤ b) || decide (b ≤ a)) = true := by
    simpa using Nat.le_total a b
  simpa using List.pairwise_mergeSort htrans htotal ((fs.filter (·.signature.rest.isNone)).map (·.arity))

/-- The numbers of arguments from which on overloads are variadic. -/
def variadicArities (fs : List Function) : Set Nat := {n | ∃ f ∈ fs, f.signature.rest ≠ none ∧ f.arity = n}

theorem variadicFrom?_eq_some_iff : variadicFrom? fs = some n ↔ IsLeast (variadicArities fs) n := by
  have hmem (m : Nat) : m ∈ (fs.filter (·.signature.rest.isSome)).map (·.arity) ↔ m ∈ variadicArities fs := by
    simp [variadicArities, Option.isSome_iff_ne_none, and_assoc]
  rw [variadicFrom?, List.min?_eq_some_iff]
  simp only [hmem]
  rfl

end

private theorem overloads?_eq_none_iff {r : Registry} {name : Name} :
    r.overloads? name = none ↔ name ∉ r.names := by
  simp only [overloads?, names, List.lookup_eq_none_iff, List.mem_map, bne_iff_ne, ne_eq, not_exists, not_and]
  exact forall₂_congr fun p _ => not_congr eq_comm

/-! ### Outcomes -/

/-- **The outcome of a lookup.** The overloads that accept the number of arguments are found under the name as it is
written or, if there are none, under the name in the default namespace. If there are none under either, the failure is
that of the name in the default namespace. If this name is registered, the numbers of arguments of its overloads are
told: those of the overloads that are not variadic, in increasing order and without repetition, and the least one of
those that are. If it is not registered, it is reported as unknown, even though the name as it is written may be
registered. -/
theorem resolve_outcomes (r : Registry) (name : Name) (arity : Nat) (default : Option String) :
    let expanded := name.resolveIn default
    let accepted (n : Name) := (r.overloads n).filter (·.signature.accepts arity)
    let result := r.resolve name arity default
    (accepted name ≠ [] → result = .ok (accepted name)) ∧
    (accepted name = [] → accepted expanded ≠ [] → result = .ok (accepted expanded)) ∧
    (accepted name = [] → accepted expanded = [] → expanded ∈ r.names →
      ∃ arities variadicFrom, result = .error (.noSuchArity expanded arities variadicFrom) ∧
        arities.Pairwise (· < ·) ∧
        (∀ n, n ∈ arities ↔ ∃ f ∈ r.overloads expanded, f.signature.rest = none ∧ f.arity = n) ∧
        ∀ n, variadicFrom = some n ↔ IsLeast (variadicArities (r.overloads expanded)) n) ∧
    (accepted name = [] → expanded ∉ r.names →
      result = .error (.unknownFunction expanded (r.suggestions expanded))) := by
  intro expanded accepted result
  refine ⟨fun h => resolve_of_find?_accepting (find?_of_accepting h) h, fun h hother => ?_, fun h hother hmem => ?_,
    fun h hmem => ?_⟩
  -- the written name is skipped, so everything depends on the expanded one
  all_goals have hfind := find?_of_not_accepting default h
  · rcases hn : r.overloads? expanded with _ | fs
    · simp [accepted, overloads, hn] at hother
    · simp only [accepted, overloads, hn, Option.getD_some] at hother ⊢
      rw [hn] at hfind
      exact resolve_of_find?_accepting hfind hother
  · rcases hn : r.overloads? expanded with _ | fs
    · exact absurd hmem (overloads?_eq_none_iff.mp hn)
    · simp only [accepted, overloads, hn, Option.getD_some] at hother ⊢
      rw [hn] at hfind
      exact ⟨_, _, resolve_of_find?_not_accepting hfind hother, increasing_fixedArities fs, fun n => mem_fixedArities,
        fun n => variadicFrom?_eq_some_iff⟩
  · rw [overloads?_eq_none_iff.mpr hmem] at hfind
    exact resolve_of_find?_eq_none hfind

/-- Overloads of a name in two namespaces. Two arguments are accepted by the one in the default namespace only, and no
arguments by none of them. -/
theorem resolve_outcomes_defaultSpace :
    let function (identity : Nat) (params : List SequenceType) (rest : Option SequenceType) : Function :=
      ⟨identity, none, ⟨params, rest, .anything⟩, .hosted .argumentCount⟩
    let written := function 0 [.anything] none
    let others := [function 1 [.anything, .anything, .anything] (some .anything), function 2 [.anything, .anything] none,
      function 3 [.anything, .anything] (some .anything)]
    let r : Registry := ⟨[(.plain "f", [written]), (⟨some "urn:x", "f"⟩, others)]⟩
    r.resolve (.plain "f") 1 (some "urn:x") = .ok [written] ∧
    r.resolve (.plain "f") 2 (some "urn:x") = .ok others.tail ∧
    ∃ arities variadicFrom, r.resolve (.plain "f") 0 (some "urn:x") =
      .error (.noSuchArity ⟨some "urn:x", "f"⟩ arities variadicFrom) ∧ 2 ∈ arities ∧ variadicFrom = some 2 := by
  intro function written others r
  have h (arity : Nat) := resolve_outcomes r (.plain "f") arity (some "urn:x")
  refine ⟨(h 1).1 (List.cons_ne_nil _ _), (h 2).2.1 rfl (List.cons_ne_nil _ _), ?_⟩
  obtain ⟨arities, variadicFrom, hresult, -, hmem, hleast⟩ := (h 0).2.2.1 rfl rfl (by decide)
  refine ⟨arities, variadicFrom, hresult, (hmem 2).mpr ⟨others[1], .tail _ (.head _), rfl, rfl⟩, (hleast 2).mpr ⟨?_, ?_⟩⟩
  · exact ⟨others[2], .tail _ (.tail _ (.head _)), nofun, rfl⟩
  · rintro n ⟨f, hf, hrest, rfl⟩
    replace hf : f ∈ others := hf
    simp only [others, List.mem_cons, List.not_mem_nil, or_false] at hf
    obtain rfl | rfl | rfl := hf <;> decide

/-- A function in no namespace, called with too many arguments, is reported as a function of the default namespace that
is unknown. -/
theorem resolve_hides_written :
    let f : Function := ⟨0, none, ⟨[.anything], none, .anything⟩, .hosted .argumentCount⟩
    let r : Registry := ⟨[(.plain "f", [f])]⟩
    Name.plain "f" ∈ r.names ∧ r.overloads (.plain "f") = [f] ∧ ¬ f.signature.accepts 2 ∧
    ∃ suggestions, r.resolve (.plain "f") 2 (some "urn:x") =
      .error (.unknownFunction ⟨some "urn:x", "f"⟩ suggestions) := by
  intro f r
  exact ⟨.head _, rfl, by decide, _, resolve_of_find?_eq_none rfl⟩

end Registry

end LazyXPath
