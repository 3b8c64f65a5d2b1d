import LazyXPath.Stream.Machine

/-!
# Functions for a fixed number of arguments

A function that accepts a number of arguments can be **fixed** to this number
(`Function.forArguments`): a variadic function gets a parameter for every argument, and another function
stays as it is. The function it is fixed to has the same types of arguments and does the same
(`Function.FixedTo`), so a call does not distinguish them (`Function.FixedTo.invoke`).
-/

namespace LazyXPath

namespace Signature

variable {s : Signature} {n i : Nat}

/-- Every argument of a call that is allowed has a type. -/
theorem isSome_param? (h : s.accepts n) (hi : i < n) : (s.param? i).isSome := by
  unfold param?
  unfold accepts arity at h
  rcases hr : s.rest with _ | type
  · have hlt : i < s.params.length := by
      have hn : n = s.params.length := by simpa [hr] using h
      omega
    simp [hlt]
  · simp

/-- The parameters of a signature for a number of arguments. -/
theorem map_some_expand_params (h : s.accepts n) :
    (s.expand n).params.map some = (List.range n).map s.param? := by
  have hall : ∀ i ∈ List.range n, (s.param? i).isSome := by
    intro i hi
    exact isSome_param? h (List.mem_range.1 hi)
  simp only [expand]
  generalize List.range n = is at hall
  induction is with
  | nil => rfl
  | cons i is ih =>
    obtain ⟨hi, his⟩ := List.forall_mem_cons.1 hall
    obtain ⟨type, hi⟩ := Option.isSome_iff_exists.1 hi
    rw [List.filterMap_cons_some hi, List.map_cons, List.map_cons, hi, ih his]

private theorem length_expand_params (h : s.accepts n) : (s.expand n).params.length = n := by
  simpa using congrArg List.length (map_some_expand_params h)

private theorem getElem?_expand_params (h : s.accepts n) (hi : i < n) : (s.expand n).params[i]? = s.param? i := by
  have hget : ((s.expand n).params.map some)[i]? = ((List.range n).map s.param?)[i]? := by
    rw [map_some_expand_params h]
  have hlt : i < (s.expand n).params.length := by rwa [length_expand_params h]
  simpa [hi, hlt] using hget

/-- Signatures with the same types for arguments convert them in the same way. -/
theorem convertArguments_congr {t : Signature} {arguments : List Stream}
    (h : ∀ i < arguments.length, t.param? i = s.param? i) :
    t.convertArguments arguments = s.convertArguments arguments := by
  refine List.ext_getElem (by simp [convertArguments]) ?_
  intro i hi _
  have hi : i < arguments.length := by simpa [convertArguments] using hi
  simp only [convertArguments, List.getElem_mapIdx, h i hi]

end Signature

namespace Function

variable {f target : Function} {n : Nat}

/-- A function that does the same as another one, for a fixed number of arguments. -/
structure FixedTo (f : Function) (n : Nat) (target : Function) : Prop where
  rest : target.signature.rest = none
  length : target.signature.params.length = n
  params : ∀ i < n, target.signature.params[i]? = f.signature.param? i
  returns : target.signature.returns = f.signature.returns
  name : target.name = f.name
  callable : target.callable = f.callable

/-- A function can be fixed to every number of arguments that it accepts. -/
theorem forArguments_of_accepts (h : f.signature.accepts n) (identity : Nat) :
    ∃ target, f.forArguments identity n = .ok target ∧ f.FixedTo n target := by
  unfold forArguments
  rcases hr : f.signature.rest with _ | type
  · have hn : f.arity = n := by
      simp [Signature.accepts, hr] at h
      exact h.symm
    have hparams : ∀ i < n, f.signature.params[i]? = f.signature.param? i := by
      intro i _
      simp [Signature.param?, hr]
    exact ⟨f, by simp [hn], hr, hn, hparams, rfl, rfl, rfl⟩
  · refine ⟨{ f with identity, signature := f.signature.expand n }, by simp [withArity, h], rfl,
      Signature.length_expand_params h, ?_, rfl, rfl, rfl⟩
    intro i hi
    exact Signature.getElem?_expand_params h hi

namespace FixedTo

theorem accepts_iff (h : f.FixedTo n target) (m : Nat) : target.signature.accepts m ↔ m = n := by
  simp [Signature.accepts, Signature.arity, h.rest, h.length]

theorem param? (h : f.FixedTo n target) {i : Nat} (hi : i < n) :
    target.signature.param? i = f.signature.param? i := by
  rw [← h.params i hi]
  simp [Signature.param?, h.rest]

/-- The parameters are determined. -/
theorem params_eq {target' : Function} (h : f.FixedTo n target) (h' : f.FixedTo n target') :
    target.signature.params = target'.signature.params := by
  refine List.ext_getElem (h.length.trans h'.length.symm) fun i hi hi' => ?_
  have hn : i < n := h.length ▸ hi
  have hget : target.signature.params[i]? = target'.signature.params[i]? :=
    (h.params i hn).trans (h'.params i hn).symm
  simpa [hi, hi'] using hget

/-- A function that is not variadic is fixed already. -/
theorem self (h : f.signature.rest = none) : f.FixedTo f.signature.params.length f :=
  ⟨h, rfl, fun i _ => by simp [Signature.param?, h], rfl, rfl, rfl⟩

private theorem call (h : f.FixedTo n target) (env : Environment) (depth : Nat) :
    (Engine.ofDepth env depth).call target = (Engine.ofDepth env depth).call f := by
  cases depth with
  | zero => rfl
  | succ depth =>
    funext scope arguments
    simp only [Engine.ofDepth, callFunction, applyFunction, h.callable, h.name, h.returns]

/-- A call does not distinguish a function from one that it is fixed to. -/
theorem invoke {arguments : List Stream} (h : f.FixedTo arguments.length target)
    (hf : f.signature.accepts arguments.length) (env : Environment) (depth : Nat) (scope : Scope) :
    (Engine.ofDepth env depth).invoke target scope arguments =
      (Engine.ofDepth env depth).invoke f scope arguments := by
  have hconvert : target.signature.convertArguments arguments = f.signature.convertArguments arguments :=
    Signature.convertArguments_congr fun i hi => h.param? hi
  rw [Engine.invoke, Engine.invoke, if_pos ((h.accepts_iff _).2 rfl), if_pos hf, hconvert, h.call]

end FixedTo

end Function

end LazyXPath
