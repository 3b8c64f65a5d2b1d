import LazyXPath.Proofs.Lockstep
import Mathlib.Data.List.Perm.Basic
import Mathlib.Data.List.Induction

/-!
# Registrations

A registry is made by **registrations**, one after another. A function replaces the overload with the
same parameters and comes last, so registries made in different orders hold their overloads in different
orders. No call notices this: it depends only on the function that was registered last for every name and
parameters (`callNamed_registration_order`).

* The overloads of a name are the functions that were registered last for their parameters
  (`mem_overloads_iff`), and no two of them have the same parameters (`distinct_overloads`). So they are
  the same up to their order.
* A lookup finds the same candidates up to their order, or none in both (`Registry.resolve_cases`).
* The choice among candidates does not depend on their order (`Dispatch.agrees_of_perm`).
-/

namespace LazyXPath

namespace Registry

/-! ### What a registry holds -/

/-- The registry after registrations, in the order in which they were made. -/
def ofRegistrations (registrations : List (Name × Function)) : Registry :=
  registrations.foldl (fun r p => r.register p.1 p.2) .empty

/-- Whether a registration is for a name and parameters. -/
def isFor (name : Name) (params : List SequenceType) (rest : Option SequenceType) (p : Name × Function) :
    Bool :=
  p.1 = name && p.2.signature.params = params && p.2.signature.rest = rest

/-- The function that was registered last for a name and parameters. -/
def lastRegistered (registrations : List (Name × Function)) (name : Name) (params : List SequenceType)
    (rest : Option SequenceType) : Option Function :=
  (registrations.reverse.find? (isFor name params rest)).map (·.2)

/-- The overloads of a name, none if the name is unknown. -/
def overloads (r : Registry) (name : Name) : List Function := (r.overloads? name).getD []

section

variable {name n : Name} {f g : Function} {fs : List Function} {registrations : List (Name × Function)}

private theorem sameParameters_iff : sameParameters f g ↔
    f.signature.params = g.signature.params ∧ f.signature.rest = g.signature.rest := by
  simp [sameParameters]

private theorem mem_addOverload : g ∈ addOverload f fs ↔ (g ∈ fs ∧ ¬ sameParameters g f) ∨ g = f := by
  simp [addOverload]

private theorem lookup_registerIn (entries : List (Name × List Function)) :
    (registerIn name f entries).lookup n =
      if n = name then some (addOverload f ((entries.lookup name).getD [])) else entries.lookup n := by
  induction entries with
  | nil =>
    by_cases hn : n = name
    · simp [registerIn, hn, addOverload]
    · simp [registerIn, hn]
  | cons p entries ih =>
    obtain ⟨m, fs⟩ := p
    by_cases hm : m = name
    · by_cases hn : n = name
      · simp [registerIn, hm, hn]
      · have hn' : (n == name) = false := by simpa using hn
        simp [registerIn, hm, hn, hn', List.lookup_cons]
    · have hm' : (name == m) = false := by simpa using fun h => hm h.symm
      rw [registerIn, if_neg hm, List.lookup_cons, List.lookup_cons, List.lookup_cons, hm', ih]
      by_cases hn : n = name
      · simp [hn, hm']
      · simp [hn]

private theorem overloads?_register (r : Registry) : (r.register name f).overloads? n =
    if n = name then some (addOverload f (r.overloads name)) else r.overloads? n :=
  lookup_registerIn r.entries

private theorem overloads_register (r : Registry) : (r.register name f).overloads n =
    if n = name then addOverload f (r.overloads name) else r.overloads n := by
  rw [overloads, overloads?_register]
  split
  · rfl
  · rfl

private theorem ofRegistrations_concat (p : Name × Function) :
    ofRegistrations (registrations ++ [p]) = (ofRegistrations registrations).register p.1 p.2 := by
  simp [ofRegistrations]

private theorem lastRegistered_concat (p : Name × Function) (params : List SequenceType)
    (rest : Option SequenceType) : lastRegistered (registrations ++ [p]) n params rest =
      if isFor n params rest p then some p.2 else lastRegistered registrations n params rest := by
  rw [lastRegistered, List.reverse_concat, List.find?_cons]
  split
  next h => rw [if_pos h]; rfl
  next h => rw [if_neg (by simpa using h)]; rfl

/-- The overloads of a name are the functions that were registered last for their own parameters. -/
theorem mem_overloads_iff : g ∈ (ofRegistrations registrations).overloads n ↔
    lastRegistered registrations n g.signature.params g.signature.rest = some g := by
  induction registrations using List.reverseRecOn with
  | nil => simp [ofRegistrations, overloads, overloads?, empty, lastRegistered]
  | append_singleton registrations p ih =>
    obtain ⟨name, f⟩ := p
    rw [ofRegistrations_concat, overloads_register, lastRegistered_concat]
    by_cases hn : n = name
    · subst hn
      have hsame : isFor n g.signature.params g.signature.rest (n, f) = sameParameters g f := by
        simp [isFor, sameParameters, eq_comm, beq_eq_decide]
      rw [if_pos rfl, mem_addOverload, hsame, ih]
      by_cases h : sameParameters g f
      · simp [h, eq_comm]
      · have hne : g ≠ f := fun heq => h (sameParameters_iff.2 ⟨by rw [heq], by rw [heq]⟩)
        simp [h, hne]
    · have hfor : isFor n g.signature.params g.signature.rest (name, f) = false := by
        simp [isFor, Ne.symm hn]
      rw [if_neg hn, hfor, ih]
      simp

private theorem pairwise_addOverload (h : fs.Pairwise fun f g => ¬ sameParameters f g) :
    (addOverload f fs).Pairwise fun f g => ¬ sameParameters f g := by
  refine List.pairwise_append.2 ⟨h.filter _, List.pairwise_singleton _ _, ?_⟩
  intro g hg f' hf'
  rw [List.mem_singleton.1 hf']
  simpa using (List.mem_filter.1 hg).2

/-- No two overloads of a name have the same parameters. -/
theorem distinct_overloads (registrations : List (Name × Function)) (n : Name) :
    ((ofRegistrations registrations).overloads n).Pairwise fun f g => ¬ sameParameters f g := by
  induction registrations using List.reverseRecOn with
  | nil => exact .nil
  | append_singleton registrations p ih =>
    rw [ofRegistrations_concat, overloads_register]
    by_cases hn : n = p.1
    · rw [if_pos hn, ← hn]
      exact pairwise_addOverload ih
    · rw [if_neg hn]
      exact ih

/-- Registrations that leave the same functions make registries with the same overloads, up to their
order. -/
theorem overloads_perm {registrations' : List (Name × Function)}
    (h : ∀ params rest, lastRegistered registrations n params rest =
      lastRegistered registrations' n params rest) :
    ((ofRegistrations registrations).overloads n).Perm ((ofRegistrations registrations').overloads n) := by
  have nodup (registrations : List (Name × Function)) :
      ((ofRegistrations registrations).overloads n).Nodup := by
    refine (distinct_overloads registrations n).imp ?_
    intro f g hfg heq
    exact hfg (sameParameters_iff.2 ⟨by rw [heq], by rw [heq]⟩)
  refine (List.perm_ext_iff_of_nodup (nodup _) (nodup _)).2 ?_
  intro g
  rw [mem_overloads_iff, mem_overloads_iff, h]

end

/-! ### Lookup -/

/-- The overloads that a call with a number of arguments can mean. -/
def candidates (r : Registry) (name : Name) (arity : Nat) (default : Option String) : List Function :=
  if (accepting arity (r.overloads name)).isEmpty then accepting arity (r.overloads (name.resolveIn default))
  else accepting arity (r.overloads name)

section

variable {r : Registry} {name found : Name} {arity : Nat} {default : Option String} {fs : List Function}

/-- A name is found as it is written if one of its overloads accepts the number of arguments. -/
theorem find?_of_accepting (h : accepting arity (r.overloads name) ≠ []) :
    r.find? name arity default = some (name, r.overloads name) := by
  rcases hn : r.overloads? name with _ | fs
  · simp [overloads, hn, accepting] at h
  · rw [overloads, hn] at h ⊢
    have hkept : (some fs).filter (fun fs => !(accepting arity fs).isEmpty) = some fs := by
      simpa [Option.filter] using h
    simp only [find?, hn, hkept, Option.getD_some]

variable (default) in
/-- Otherwise it is looked up in the default namespace. -/
theorem find?_of_not_accepting (h : accepting arity (r.overloads name) = []) :
    r.find? name arity default =
      (r.overloads? (name.resolveIn default)).map (name.resolveIn default, ·) := by
  have hskip : (r.overloads? name).filter (fun fs => !(accepting arity fs).isEmpty) = none := by
    rcases hn : r.overloads? name with _ | fs
    · rfl
    · rw [overloads, hn] at h
      simpa [Option.filter] using h
  simp only [find?, hskip]

theorem resolve_of_find?_accepting (h : r.find? name arity default = some (found, fs))
    (hfs : accepting arity fs ≠ []) : r.resolve name arity default = .ok (accepting arity fs) := by
  rw [resolve, h]
  rcases hf : accepting arity fs with _ | ⟨f, rest⟩
  · exact absurd hf hfs
  · simp [hf]

theorem resolve_of_find?_not_accepting (h : r.find? name arity default = some (found, fs))
    (hfs : accepting arity fs = []) :
    r.resolve name arity default = .error (.noSuchArity found (fixedArities fs) (variadicFrom? fs)) := by
  simp [resolve, h, hfs]

theorem resolve_of_find?_eq_none (h : r.find? name arity default = none) : r.resolve name arity default =
    .error (.unknownFunction (name.resolveIn default) (r.suggestions (name.resolveIn default))) := by
  rw [resolve, h]

end

/-- A lookup finds the candidates, and fails with one code if there are none. -/
theorem resolve_cases (r : Registry) (name : Name) (arity : Nat) (default : Option String) :
    (r.candidates name arity default ≠ [] ∧
      r.resolve name arity default = .ok (r.candidates name arity default)) ∨
    (r.candidates name arity default = [] ∧
      ∃ e, r.resolve name arity default = .error e ∧ e.code = ErrorCode.XPST0017.name) := by
  by_cases hname : accepting arity (r.overloads name) = []
  · have hcandidates : r.candidates name arity default =
        accepting arity (r.overloads (name.resolveIn default)) := by simp [candidates, hname]
    have hfind := find?_of_not_accepting default hname
    rcases hn : r.overloads? (name.resolveIn default) with _ | fs
    · rw [hn] at hfind
      exact .inr ⟨by simp [hcandidates, overloads, hn, accepting], _, resolve_of_find?_eq_none hfind, rfl⟩
    · rw [hn] at hfind
      rw [hcandidates, overloads, hn]
      by_cases hfs : accepting arity fs = []
      · exact .inr ⟨hfs, _, resolve_of_find?_not_accepting hfind hfs, rfl⟩
      · exact .inl ⟨hfs, resolve_of_find?_accepting hfind hfs⟩
  · have hcandidates : r.candidates name arity default = accepting arity (r.overloads name) := by
      simp [candidates, hname]
    rw [hcandidates]
    exact .inl ⟨hname, resolve_of_find?_accepting (find?_of_accepting hname) hname⟩

private theorem candidates_perm {r r' : Registry} (h : ∀ n, (r.overloads n).Perm (r'.overloads n)) (name : Name)
    (arity : Nat) (default : Option String) :
    (r.candidates name arity default).Perm (r'.candidates name arity default) := by
  have hperm (n : Name) : (accepting arity (r.overloads n)).Perm (accepting arity (r'.overloads n)) :=
    (h n).filter _
  rw [candidates, candidates, (hperm name).isEmpty_eq]
  split
  · exact hperm _
  · exact hperm _

end Registry

/-! ### Calls -/

/-- The choice among functions does not depend on their order. -/
theorem Dispatch.agrees_of_perm (forest : Forest) (name : Name) (scope : Scope) {fs gs : List Function}
    (h : fs.Perm gs) : Dispatch.Agrees forest ⟨name, fs, scope⟩ ⟨name, gs, scope⟩ where
  scope := rfl
  choice := by
    intro arguments
    have hperm : (accepted forest ⟨name, fs, scope⟩ arguments).Perm
        (accepted forest ⟨name, gs, scope⟩ arguments) := h.filterMap _
    have hselect : select forest ⟨name, fs, scope⟩ arguments = select forest ⟨name, gs, scope⟩ arguments := by
      have hlength := hperm.length_eq
      unfold select
      rcases hf : accepted forest ⟨name, fs, scope⟩ arguments with _ | ⟨c, _ | ⟨c', rest⟩⟩
      · rw [hf] at hperm
        rw [hperm.nil_eq]
      · rw [hf] at hperm
        rw [hperm.singleton_eq]
      · rcases hg : accepted forest ⟨name, gs, scope⟩ arguments with _ | ⟨c, _ | ⟨c', rest⟩⟩
        · simp [hf, hg] at hlength
        · simp [hf, hg] at hlength
        · rfl
    rw [← hselect]
    rcases select forest ⟨name, fs, scope⟩ arguments with e | c
    · exact .inr ⟨e, e, rfl, rfl, rfl⟩
    · exact .inl ⟨c, rfl, rfl⟩

/-- Calls of one of several functions, which come in different orders, cannot be told apart. -/
theorem invokeAny_perm (env : Environment) (E : Engine) (name : Name) {fs gs : List Function} (h : fs.Perm gs)
    (scope : Scope) (arguments : List Stream) (w : World) :
    SameRun env E (E.invokeAny name fs scope arguments w) (E.invokeAny name gs scope arguments w) := by
  rcases fs with _ | ⟨f, _ | ⟨f', fs⟩⟩
  · rw [h.nil_eq]
    exact .refl _
  · rw [h.singleton_eq]
    exact .refl _
  · rcases gs with _ | ⟨g, _ | ⟨g', gs⟩⟩
    · simp at h
    · simp at h
    · have hagree := Dispatch.agrees_of_perm env.forest name scope h
      exact hagree.lockstep.sameRun (.ok _) (.ok _) (Dispatch.paired_stream _ _ arguments) w

/-- **The order of registrations does not matter.** No two overloads of a name have the same parameters. If
another series of registrations leaves the same function for every name and parameters, then no call can
tell the registries apart. -/
theorem callNamed_registration_order (registrations registrations' : List (Name × Function)) :
    (∀ name fs, (Registry.ofRegistrations registrations).overloads? name = some fs →
      fs.Pairwise fun f g =>
        ¬ (f.signature.params = g.signature.params ∧ f.signature.rest = g.signature.rest)) ∧
    ((∀ name params rest, Registry.lastRegistered registrations name params rest =
        Registry.lastRegistered registrations' name params rest) →
      ∀ (env : Environment) (E : Engine) (name : Name) (scope : Scope) (arguments : List Stream) (w : World),
        SameRun env E (E.callNamed (Registry.ofRegistrations registrations) name scope arguments w)
          (E.callNamed (Registry.ofRegistrations registrations') name scope arguments w)) := by
  constructor
  · intro name fs hfs
    have hdistinct := Registry.distinct_overloads registrations name
    rw [Registry.overloads, hfs] at hdistinct
    exact hdistinct.imp fun hfg => mt Registry.sameParameters_iff.2 hfg
  · intro h env E name scope arguments w
    have hperm := Registry.candidates_perm (fun n => Registry.overloads_perm (h n)) name arguments.length
      scope.settings.functionSpace
    unfold Engine.callNamed
    obtain ⟨hne, hok⟩ | ⟨hnil, e, he, hcode⟩ := (Registry.ofRegistrations registrations).resolve_cases name
      arguments.length scope.settings.functionSpace
    · obtain ⟨-, hok'⟩ | ⟨hnil', -⟩ := (Registry.ofRegistrations registrations').resolve_cases name
        arguments.length scope.settings.functionSpace
      · rw [hok, hok']
        exact invokeAny_perm env E name hperm scope arguments w
      · rw [hnil'] at hperm
        exact absurd hperm.eq_nil hne
    · obtain ⟨hne', -⟩ | ⟨-, e', he', hcode'⟩ := (Registry.ofRegistrations registrations').resolve_cases name
        arguments.length scope.settings.functionSpace
      · rw [hnil] at hperm
        exact absurd hperm.nil_eq.symm hne'
      · rw [he, he']
        exact .error (hcode.trans hcode'.symm) w

/-- Two functions for an integer, of which one replaces the other, and one for a string. They are
registered in different orders, and a string is given. -/
theorem callNamed_mixed_registrations :
    let f (identity : Nat) (type : ItemType) : Name × Function :=
      (.plain "f", ⟨identity, none, ⟨[⟨type, .one⟩], none, .anything⟩, .hosted (.argument 0)⟩)
    let registrations := [f 0 .integer, f 1 .string, f 2 .integer]
    let registrations' := [f 2 .integer, f 1 .string]
    (((Registry.ofRegistrations registrations).overloads (.plain "f")).map (·.identity) = [1, 2] ∧
      ((Registry.ofRegistrations registrations').overloads (.plain "f")).map (·.identity) = [2, 1]) ∧
    ∀ (env : Environment) (E : Engine) (scope : Scope) (w : World),
      let arguments := [.ofList [.atomic (.ofString "a")]]
      SameRun env E
        (E.callNamed (Registry.ofRegistrations registrations) (.plain "f") scope arguments w)
        (E.callNamed (Registry.ofRegistrations registrations') (.plain "f") scope arguments w) := by
  intro f registrations registrations'
  refine ⟨⟨by decide, by decide⟩, ?_⟩
  intro env E scope w arguments
  refine (callNamed_registration_order registrations registrations').2 ?_ env E (.plain "f") scope arguments w
  intro name params rest
  have hsame : Registry.isFor name params rest (f 0 .integer) = Registry.isFor name params rest (f 2 .integer) :=
    rfl
  have hother : ¬ (Registry.isFor name params rest (f 1 .string) ∧
      Registry.isFor name params rest (f 2 .integer)) := by
    simp only [Registry.isFor, Bool.and_eq_true, decide_eq_true_eq]
    rintro ⟨⟨⟨-, rfl⟩, -⟩, ⟨-, hparams⟩, -⟩
    simp [f] at hparams
  simp only [Registry.lastRegistered, registrations, registrations', List.reverse_cons, List.reverse_nil,
    List.nil_append, List.cons_append, List.find?_cons, List.find?_nil, hsame]
  grind

end LazyXPath
