import LazyXPath.Proofs.Production.Conversion
import Mathlib.Logic.Relation

/-!
# Runs of calls

An action **calls** for a run (`Regime.Calls`) if it gives a stream that produces the run, or fails as the run
does, in whatever later situation it takes place. A function **computes** a run from the runs of its
arguments (`Function.Computes`) if its callable does so for all arguments that produce these runs. This is how
it is said that a function depends only on the runs of its arguments: nothing else is known about the
streams, and they are pulled whenever the function likes.

A function is called with converted arguments, and its result is converted (`Function.Computes.invoke`).
What a call means for a schedule is said by `Regime.Calls.play_allows` and `Regime.Calls.play_ends`.
-/

namespace LazyXPath

/-! ### Actions that give streams -/

section

variable (env : Environment) {F : Regime (World × Nat)}

/-- What the engine below does, at the depth that stands beside the world. There is no engine below the one
of depth zero. -/
def belowDepth (f : Engine → Action (Except Error Stream)) : StateM (World × Nat) (Except Error Stream) :=
  fun p =>
    match p.2 with
    | 0 => (.error .tooDeep, p)
    | depth + 1 =>
      let r := f (.ofDepth env depth) p.1
      (r.1, r.2, depth + 1)

/-- From a situation on, an action gives a stream that produces a run, or fails as the run does. -/
def Regime.Calls (F : Regime (World × Nat)) (ω : F.Situation)
    (f : StateM (World × Nat) (Except Error Stream)) (r : Run Item) : Prop :=
  ∀ ω₁, F.evolves ω ω₁ → F.Valid ω₁ → ∃ result ω₂, f (F.world ω₁) = (result, F.world ω₂) ∧
    F.effect ω₁ ω₂ ∧ F.Valid ω₂ ∧ Produces F (streamPull env) ω₂ (.orFailed result) r

/-- From a situation on, the callable of a function makes a run of arguments that produce the given runs. -/
def Function.Computes (F : Regime (World × Nat)) (ω : F.Situation) (f : Function) (scope : Scope)
    (rs : List (Run Item)) (r : Run Item) : Prop :=
  ∀ ω₁ arguments, F.evolves ω ω₁ → List.Forall₂ (Produces F (streamPull env) ω₁) arguments rs →
    F.Calls env ω₁ (belowDepth env fun E => applyFunction env E f scope arguments) r

variable {env} {ω ω₁ : F.Situation} {f : StateM (World × Nat) (Except Error Stream)} {r : Run Item}

namespace Regime.Calls

/-- **Soundness**: a schedule shows nothing but the run. -/
theorem play_allows (h : F.Calls env ω f r) (hv : F.Valid ω) {moves : List (World × Nat → World × Nat)}
    (hm : ∀ m ∈ moves, F.Permits m) :
    r.Allows (play (streamPull env) moves (.orFailed (f (F.world ω)).1) (f (F.world ω)).2).1 := by
  obtain ⟨result, ω₂, hf, -, hv₂, hp⟩ := h ω (F.evolves_refl ω) hv
  rw [hf]
  exact (hp.producing hv₂).play_allows hm

/-- **Progress**: when nothing is outstanding, a schedule comes to the end. -/
theorem play_ends (h : F.Calls env ω f r) (hr : r.tail ≠ .unknown) (hv : F.Valid ω) (hs : F.settled ω)
    {moves : Nat → World × Nat → World × Nat} (hm : ∀ n, F.Permits (moves n)) :
    ∃ n, ∃ o ∈ (play (streamPull env) ((List.range n).map moves) (.orFailed (f (F.world ω)).1)
      (f (F.world ω)).2).1, o.IsEnding := by
  obtain ⟨result, ω₂, hf, he, hv₂, hp⟩ := h ω (F.evolves_refl ω) hv
  rw [hf]
  exact hp.play_ends hr hv₂ (F.settled_of_evolves (F.evolves_of_effect he) hs) hm

/-- What is made of the stream of an action that is known to have a property. -/
theorem through_of {P : Stream → Prop} {f : Engine → Action Stream} {g : Stream → Stream} {r' : Run Item}
    (h : F.Calls env ω (atDepth env fun E => do return .ok (← f E)) r)
    (hP : ∀ ω₁, P (atDepth env f (F.world ω₁)).1)
    (hg : ∀ ω₁ s, F.evolves ω ω₁ → P s → Produces F (streamPull env) ω₁ s r →
      Produces F (streamPull env) ω₁ (g s) r') :
    F.Calls env ω (atDepth env fun E => do return .ok (g (← f E))) r' := by
  intro ω₁ h₁ hv
  obtain ⟨result, ω₂, hf, he, hv₂, hp⟩ := h ω₁ h₁ hv
  obtain ⟨hresult, hworld⟩ := Prod.mk.inj hf
  rw [← hresult] at hp
  refine ⟨_, ω₂, Prod.ext rfl hworld, he, hv₂, hg ω₂ _ ?_ (hP ω₁) hp⟩
  exact F.evolves_trans h₁ (F.evolves_of_effect he)

/-- What is made of the stream of an action. -/
theorem through {f : Engine → Action Stream} {g : Stream → Stream} {r' : Run Item}
    (h : F.Calls env ω (atDepth env fun E => do return .ok (← f E)) r)
    (hg : ∀ ω₁ s, F.evolves ω ω₁ → Produces F (streamPull env) ω₁ s r → Produces F (streamPull env) ω₁ (g s) r') :
    F.Calls env ω (atDepth env fun E => do return .ok (g (← f E))) r' :=
  h.through_of (P := fun _ => True) (fun _ => trivial) fun ω₁ s h₁ _ => hg ω₁ s h₁

end Regime.Calls

/-! ### Calls in turns -/

section

variable {ι : Type} {calls : ι → StateM (World × Nat) (Except Error Stream)} {runs : ι → Run Item}

/-- A call that has been made, its stream, and what the stream has reported. -/
structure Opened (ι : Type) where
  call : ι
  stream : Stream
  reports : List (Outcome Item)

variable (env F calls) in
/-- One of several calls is made, or the stream of a call that was made is pulled until it reports something. -/
inductive CallTurn : List (Opened ι) × (World × Nat) → List (Opened ι) × (World × Nat) → Prop where
  | call (i : ι) (opened : List (Opened ι)) (p : World × Nat) :
      CallTurn (opened, p) (opened ++ [⟨i, .orFailed (calls i p).1, []⟩], (calls i p).2)
  | pull {before after : List (Opened ι)} {x : Opened ι} {moves : List (World × Nat → World × Nat)}
      {skips : List (Outcome Item)} {o : Outcome Item} {s : Stream} {p p' : World × Nat}
      (isOpen : ∀ o ∈ x.reports, ¬o.IsEnding) (permitted : ∀ m ∈ moves, F.Permits m)
      (played : play (streamPull env) moves x.stream p = (skips ++ [o], s, p'))
      (skipped : ∀ o ∈ skips, o = .skip) (reported : o ≠ .skip) :
      CallTurn (before ++ x :: after, p) (before ++ ⟨x.call, s, x.reports ++ [o]⟩ :: after, p')

variable (env) in
/-- A call has reported part of its run, and the rest is still to come. -/
def Opened.Follows (F : Regime (World × Nat)) (runs : ι → Run Item) (ω : F.Situation) (x : Opened ι) : Prop :=
  ∃ r : Run Item, (∀ os, r.Allows os → (runs x.call).Allows (x.reports ++ os)) ∧
    ((∀ o ∈ x.reports, ¬o.IsEnding) → r.tail ≠ .unknown ∧ Produces F (streamPull env) ω x.stream r)

private theorem Opened.Follows.later {x : Opened ι} (h : x.Follows env F runs ω) (h₁ : F.evolves ω ω₁) :
    x.Follows env F runs ω₁ := by
  obtain ⟨r, hallows, hr⟩ := h
  exact ⟨r, hallows, fun hopen => ⟨(hr hopen).1, (hr hopen).2.later h₁⟩⟩

/-- A pull of the stream of a call. -/
theorem Opened.Follows.pull {x : Opened ι} {moves : List (World × Nat → World × Nat)}
    {skips : List (Outcome Item)} {o : Outcome Item} {s : Stream} {p : World × Nat}
    (h : x.Follows env F runs ω) (hv : F.Valid ω) (isOpen : ∀ o ∈ x.reports, ¬o.IsEnding)
    (permitted : ∀ m ∈ moves, F.Permits m)
    (played : play (streamPull env) moves x.stream (F.world ω) = (skips ++ [o], s, p))
    (skipped : ∀ o ∈ skips, o = .skip) (reported : o ≠ .skip) :
    ∃ ω', p = F.world ω' ∧ F.evolves ω ω' ∧ F.Valid ω' ∧
      Opened.Follows env F runs ω' ⟨x.call, s, x.reports ++ [o]⟩ := by
  obtain ⟨r, hallows, hr⟩ := h
  obtain ⟨htail, hp⟩ := hr isOpen
  have hne : r ≠ ⟨[], .unknown⟩ := fun heq => htail (congrArg Run.tail heq)
  obtain ⟨ω', rfl, h', hc⟩ := (hp.reports hne (F.evolves_refl ω) hv).play_report (F.drift_of_valid hv)
    permitted played skipped reported
  -- what has been reported comes before what is still to come
  have next {r' : Run Item} (hn : r.Next o r') :
      ∀ os, (¬o.IsEnding → r'.Allows os) → (runs x.call).Allows (x.reports ++ [o] ++ os) := by
    intro os hos
    rw [List.append_assoc]
    exact hallows _ (.cons hn hos)
  have ended (ho : o.IsEnding) : ¬∀ o' ∈ x.reports ++ [o], ¬o'.IsEnding :=
    fun hall => hall o (by simp) ho
  refine ⟨ω', rfl, h', hc.valid, ?_⟩
  cases hc with
  | item _ h => exact ⟨_, fun os hos => next (.item ..) os fun _ => hos, fun _ => ⟨htail, h⟩⟩
  | suspended _ _ h => exact ⟨_, fun os hos => next (.suspended ..) os fun _ => hos, fun _ => ⟨htail, h⟩⟩
  | done => exact ⟨⟨[], .done⟩, fun os hos => next .done os fun _ => hos, fun h => absurd h (ended trivial)⟩
  | failed _ he =>
    exact ⟨_, fun os hos => next (.failed _ _ he) os fun _ => hos, fun h => absurd h (ended trivial)⟩

variable (env) in
/-- Between two turns everything is in order, and all calls follow their runs. -/
def InTurns (F : Regime (World × Nat)) (runs : ι → Run Item) (ω : F.Situation)
    (state : List (Opened ι) × (World × Nat)) : Prop :=
  ∃ ω₁, state.2 = F.world ω₁ ∧ F.evolves ω ω₁ ∧ F.Valid ω₁ ∧ ∀ x ∈ state.1, x.Follows env F runs ω₁

private theorem CallTurn.inTurns (h : ∀ i, F.Calls env ω (calls i) (runs i)) (ht : ∀ i, (runs i).tail ≠ .unknown)
    {state state' : List (Opened ι) × (World × Nat)} (hturn : CallTurn env F calls state state')
    (hstate : InTurns env F runs ω state) : InTurns env F runs ω state' := by
  obtain ⟨ω₁, hp, h₁, hv, hopened⟩ := hstate
  cases hturn with
  | call i opened p =>
    obtain rfl : p = F.world ω₁ := hp
    obtain ⟨result, ω₂, hcall, he, hv₂, hproduces⟩ := h i ω₁ h₁ hv
    have h₂ : F.evolves ω₁ ω₂ := F.evolves_of_effect he
    refine ⟨ω₂, by rw [hcall], F.evolves_trans h₁ h₂, hv₂, fun x hx => ?_⟩
    obtain hx | hx := List.mem_append.1 hx
    · exact (hopened x hx).later h₂
    · rw [List.mem_singleton.1 hx, hcall]
      exact ⟨runs i, fun os hos => hos, fun _ => ⟨ht i, hproduces⟩⟩
  | @pull before after x moves skips o s p p' isOpen permitted played skipped reported =>
    obtain rfl : p = F.world ω₁ := hp
    obtain ⟨ω₂, rfl, h₂, hv₂, hx⟩ := (hopened x (by simp)).pull hv isOpen permitted played skipped reported
    refine ⟨ω₂, rfl, F.evolves_trans h₁ h₂, hv₂, fun y hy => ?_⟩
    obtain hy | hy := List.mem_append.1 hy
    · exact (hopened y (by simp [hy])).later h₂
    · obtain rfl | hy := List.mem_cons.1 hy
      · exact hx
      · exact (hopened y (by simp [hy])).later h₂

private theorem turns_inTurns (h : ∀ i, F.Calls env ω (calls i) (runs i)) (ht : ∀ i, (runs i).tail ≠ .unknown)
    {state state' : List (Opened ι) × (World × Nat)}
    (hturns : Relation.ReflTransGen (CallTurn env F calls) state state') (hstate : InTurns env F runs ω state) :
    InTurns env F runs ω state' := by
  induction hturns with
  | refl => exact hstate
  | tail _ hturn ih => exact hturn.inTurns h ht ih

/-- **Calls in turns**: whenever calls are made and however the pulls of their streams are interleaved, each
call reports its own run. -/
theorem turns_allow (h : ∀ i, F.Calls env ω (calls i) (runs i)) (ht : ∀ i, (runs i).tail ≠ .unknown)
    (hv : F.Valid ω) {opened : List (Opened ι)} {p : World × Nat}
    (hturns : Relation.ReflTransGen (CallTurn env F calls) ([], F.world ω) (opened, p)) :
    ∀ x ∈ opened, (runs x.call).Allows x.reports := by
  have hstart : InTurns env F runs ω ([], F.world ω) :=
    ⟨ω, rfl, F.evolves_refl ω, hv, fun _ hx => absurd hx List.not_mem_nil⟩
  obtain ⟨ω₁, -, -, -, hopened⟩ := turns_inTurns h ht hturns hstart
  intro x hx
  obtain ⟨r, hallows, -⟩ := hopened x hx
  simpa using hallows [] (.nil r)

end

/-! ### Streams that have failed -/

/-- A stream that has failed produces its error, and nothing else can be said of it. -/
theorem produces_failed_iff {e : Error} (hv : F.Valid ω) : Produces F (streamPull env) ω (.failed e) r ↔
    r = ⟨[], .unknown⟩ ∨ ∃ P : Error → Prop, r = ⟨[], .fails P⟩ ∧ P e := by
  constructor
  · intro h
    by_cases hr : r = ⟨[], .unknown⟩
    · exact .inl hr
    · obtain ⟨o, s, ω₁, hp, -, hy, hq⟩ := (h.reports hr (F.evolves_refl ω) hv).steps (F.drift_of_valid hv)
      obtain rfl : .failed e = o := congrArg (fun p => p.1.1) hp
      cases hq nofun with
      | failed _ he => exact .inr ⟨_, rfl, he⟩
  · rintro (rfl | ⟨P, rfl, he⟩)
    · exact .unknown ω _
    · exact StreamOf.produces_failed he ω

/-- A failure to make a stream is not converted. -/
theorem convert_orFailed_produces {result : Except Error Stream} (type : SequenceType) (hv : F.Valid ω)
    (h : Produces F (streamPull env) ω (.orFailed result) r) :
    Produces F (streamPull env) ω (.orFailed (result.map (·.convert type))) (r.convert env.forest type) := by
  cases result with
  | ok s => exact convert_produces type h
  | error e =>
    refine (produces_failed_iff hv).2 ?_
    obtain rfl | ⟨P, rfl, he⟩ := (produces_failed_iff hv).1 h
    · exact .inl (by simp [Run.convert, Run.checkCount, Run.expand, Run.expandItems])
    · exact .inr ⟨P, by simp [Run.convert, Run.checkCount, Run.expand, Run.expandItems], he⟩

/-- A cursor that forwards a stream. -/
theorem forward_produces {s : Stream} (h : Produces F (streamPull env) ω s r) :
    Produces F (cursorStep env) ω (.forward s) r := by
  refine h.embed Cursor.forward ?_
  rintro s ⟨w, depth⟩
  obtain ⟨o, s', w', h, h'⟩ := exists_streamStep env s w depth
  simp only [cursorStep, atDepth, Cursor.step, bind, StateT.bind, h, h']
  rfl

end

/-! ### Converted arguments -/

namespace Signature

variable {env : Environment} {F : Regime (World × Nat)} {ω : F.Situation}

/-- The runs of the arguments of a call, each converted to the type of its parameter. -/
def convertRuns (forest : Forest) (signature : Signature) (rs : List (Run Item)) : List (Run Item) :=
  rs.mapIdx fun i r => r.convert forest ((signature.param? i).getD .anything)

/-- Converted arguments produce converted runs. -/
theorem convertArguments_produces {arguments : List Stream} {rs : List (Run Item)} (signature : Signature)
    (h : List.Forall₂ (Produces F (streamPull env) ω) arguments rs) :
    List.Forall₂ (Produces F (streamPull env) ω) (signature.convertArguments arguments)
      (signature.convertRuns env.forest rs) := by
  obtain ⟨hlength, hget⟩ := List.forall₂_iff_get.1 h
  refine List.forall₂_iff_get.2 ⟨by simp [convertArguments, convertRuns, hlength], ?_⟩
  intro i hi hi'
  simp only [convertArguments, List.length_mapIdx] at hi
  simp only [convertRuns, List.length_mapIdx] at hi'
  have hr := hget i hi hi'
  simp only [List.get_eq_getElem] at hr
  simp only [convertArguments, convertRuns, List.get_eq_getElem, List.getElem_mapIdx]
  cases signature.param? i with
  | none => exact convert_produces .anything hr
  | some type => exact convert_produces type hr

/-- Complete arguments that can be converted are converted to the same items when they are pulled. -/
theorem convertRuns_complete {forest : Forest} {signature : Signature} {xss yss : List (List Item)}
    (h : signature.convertAll forest xss = .ok yss) :
    signature.convertRuns forest (xss.map .complete) = yss.map .complete := by
  obtain ⟨hlength, hget⟩ := List.forall₂_iff_get.1 (forall₂_of_mapM h)
  simp only [List.length_mapIdx] at hlength
  refine List.ext_getElem (by simp [convertRuns, hlength]) ?_
  intro i hi hi'
  simp only [convertRuns, List.length_mapIdx, List.length_map] at hi hi'
  have hconvert := hget i (by simpa using hi) hi'
  simp only [List.get_eq_getElem, List.getElem_mapIdx] at hconvert
  simp only [convertRuns, List.getElem_mapIdx, List.getElem_map]
  exact Run.convert_complete hconvert

end Signature

/-! ### Calls of functions -/

section

variable {env : Environment} {F : Regime (World × Nat)} {ω ω₁ : F.Situation} {f : Function} {scope : Scope}
  {arguments : List Stream} {rs : List (Run Item)} {r : Run Item}

/-- Arguments go on in every later situation. -/
theorem forall₂_produces_later (h : List.Forall₂ (Produces F (streamPull env) ω) arguments rs)
    (h₁ : F.evolves ω ω₁) : List.Forall₂ (Produces F (streamPull env) ω₁) arguments rs :=
  h.imp fun _ _ hp => hp.later h₁

theorem forall₂_ofList_produces (xss : List (List Item)) (ω : F.Situation) :
    List.Forall₂ (Produces F (streamPull env) ω) (xss.map .ofList) (xss.map .complete) :=
  List.forall₂_map_left_iff.2 (List.forall₂_map_right_iff.2
    (List.forall₂_same.2 fun xs _ => produces_complete_iff.2 (ofList_delivers ω xs)))

/-- A call is left to the engine below, and its result is converted. -/
theorem atDepth_call (env : Environment) (f : Function) (scope : Scope) (arguments : List Stream)
    (p : World × Nat) : atDepth env (fun E => E.call f scope arguments) p =
      let r := belowDepth env (fun E => applyFunction env E f scope arguments) p
      (r.1.map (·.convert f.signature.returns), r.2) := by
  obtain ⟨w, _ | depth⟩ := p <;> rfl

/-- The call of a function with converted arguments. -/
theorem Regime.Calls.call
    (h : F.Calls env ω (belowDepth env fun E => applyFunction env E f scope arguments) r) :
    F.Calls env ω (atDepth env fun E => E.call f scope arguments)
      (r.convert env.forest f.signature.returns) := by
  intro ω₁ h₁ hv
  obtain ⟨result, ω₂, hf, he, hv₂, hp⟩ := h ω₁ h₁ hv
  refine ⟨result.map (·.convert f.signature.returns), ω₂, ?_, he, hv₂, convert_orFailed_produces _ hv₂ hp⟩
  rw [atDepth_call, hf]

namespace Function.Computes

theorem later (h : f.Computes env F ω scope rs r) (h₁ : F.evolves ω ω₁) : f.Computes env F ω₁ scope rs r :=
  fun _ _ h₂ ha => h _ _ (F.evolves_trans h₁ h₂) ha

theorem call (h : f.Computes env F ω scope rs r)
    (ha : List.Forall₂ (Produces F (streamPull env) ω) arguments rs) :
    F.Calls env ω (atDepth env fun E => E.call f scope arguments)
      (r.convert env.forest f.signature.returns) :=
  (h ω arguments (F.evolves_refl ω) ha).call

/-- **The call of a function**: its arguments and its result are converted. -/
theorem invoke (hf : f.signature.accepts arguments.length)
    (ha : List.Forall₂ (Produces F (streamPull env) ω) arguments rs)
    (h : f.Computes env F ω scope (f.signature.convertRuns env.forest rs) r) :
    F.Calls env ω (atDepth env fun E => E.invoke f scope arguments)
      (r.convert env.forest f.signature.returns) := by
  simp only [Engine.invoke, if_pos hf]
  exact h.call (f.signature.convertArguments_produces ha)

end Function.Computes

end

/-! ### A function that gives one of its arguments -/

section

variable {env : Environment} {values : List (DeferredId × Except Error (List Item))} {k : Nat} {ω : Situation}

/-- An event that is recorded changes nothing else. -/
theorem Moves.event {S : BufferId → Nat → Prop} (h : ω.Sane values) (e : Event) :
    Moves values S ω { ω with world := { ω.world with events := e :: ω.world.events } } :=
  ⟨⟨fun _ _ h => h, fun _ _ h => h, fun _ β h => ⟨β, h, Nat.le_refl _⟩⟩,
    ⟨h.arrivals, h.operators, h.pledged⟩, fun _ _ hp _ => ⟨hp, rfl⟩⟩

/-- The run of an argument is what a function computes that gives this argument. -/
theorem Function.argument_computes {f : Function} {i : Nat} {rs : List (Run Item)} {r : Run Item} {scope : Scope}
    (hf : f.callable = .hosted (.argument i)) (hr : rs[i]? = some r) :
    f.Computes env (regime env values k) ω scope rs r := by
  intro ω₁ arguments _ ha ω₂ h₂ hv
  obtain ⟨hlength, hget⟩ := List.forall₂_iff_get.1 ha
  obtain ⟨hi, rfl⟩ := List.getElem?_eq_some_iff.1 hr
  have hi' : i < arguments.length := hlength ▸ hi
  have hs : Produces (regime env values k) (streamPull env) ω₁ arguments[i] rs[i] := hget i hi' hi
  have hm (S : BufferId → Nat → Prop) := Moves.event (S := S) ((standard env values k).sane hv.2)
    (.call (f.name.getD (.plain "anonymous")))
  have hevolves := (hm fun _ _ => True).evolves
  refine ⟨.ok arguments[i], _, ?_, ⟨hm _, rfl⟩, ⟨hv.1, (standard env values k).stable hv.2 (hm _)⟩,
    hs.later (Evolves.trans h₂ hevolves)⟩
  obtain ⟨depth, hd⟩ := exists_depth_eq hv
  have hget : arguments[i]?.getD .empty = arguments[i] := by simp [hi']
  simp only [belowDepth, hd, applyFunction, hf, applyBody, hget]
  rfl

end

end LazyXPath
