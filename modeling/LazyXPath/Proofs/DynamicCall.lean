import LazyXPath.Proofs.Arity
import LazyXPath.Proofs.Arrival
import LazyXPath.Proofs.Lockstep

/-!
# Calls through a reference

A reference to a function by its name and number of arguments makes a function item: the function itself,
the function for this number of arguments, or, if there are several candidates, a function that leaves the
choice to the call. To call this item is to call the function by its name (`dynamicCall_functionRef`):
after a delay of a few steps, in which the item is found to be the only one, the reports are the same.

* Whatever item it is, a call of it cannot be told apart from a call of one of the candidates
  (`invoke_reference`).
* The arguments are evaluated after the delay. Meanwhile values may arrive, but evaluation ignores them
  (`evaluate_ignoresArrivals`).
-/

namespace LazyXPath

/-! ### References -/

namespace Registry

variable {r : Registry} {name : Name} {n : Nat} {default : Option String} {fs : List Function}

/-- A lookup that succeeds finds functions that accept the number of arguments. -/
theorem accepts_of_resolve (h : r.resolve name n default = .ok fs) :
    fs ≠ [] ∧ ∀ f ∈ fs, f.signature.accepts n := by
  unfold resolve at h
  split at h
  · cases h
  · split at h
    · cases h
    · next gs _ hne =>
      cases h
      exact ⟨hne, fun f hf => (List.mem_filter.1 hf).2⟩

/-- The function that stands for several candidates. -/
def chooser (identity : Nat) (display : Name) (n : Nat) (fs : List Function) : Function where
  identity
  name := some display
  signature := ⟨List.replicate n .anything, none, .anything⟩
  callable := .overloaded display fs

/-- The functions that references make. -/
theorem reference_cases (h : r.resolve name n default = .ok fs) (identity : Nat) :
    (∃ f target, fs = [f] ∧ r.reference identity name n default = .ok target ∧ f.FixedTo n target) ∨
      (2 ≤ fs.length ∧ r.reference identity name n default =
        .ok (chooser identity (name.resolveIn default) n fs)) := by
  obtain ⟨hne, haccepts⟩ := accepts_of_resolve h
  unfold reference
  rw [h]
  match fs, hne with
  | [f], _ =>
    obtain ⟨target, htarget, hfixed⟩ := Function.forArguments_of_accepts (haccepts f (.head _)) identity
    refine .inl ⟨f, target, rfl, ?_, hfixed⟩
    unfold Function.forArguments at htarget
    by_cases hr : f.signature.rest.isSome
    · rw [if_pos hr] at htarget
      simpa [bind, Except.bind, hr] using htarget
    · rw [if_neg hr] at htarget
      split at htarget
      · simpa [bind, Except.bind, pure, Except.pure, hr] using htarget
      · cases htarget
  | f :: g :: fs, _ => exact .inr ⟨by simp, rfl⟩

private theorem reference_of_error {e : Error} (h : r.resolve name n default = .error e) (identity : Nat) :
    r.reference identity name n default = .error e := by
  unfold reference
  rw [h]
  rfl

end Registry

private theorem convert_anything (s : Stream) : s.convert .anything = s := rfl

/-- Nothing is converted to the type of all sequences. -/
theorem convertArguments_anything (arguments : List Stream) (n : Nat) (returns : SequenceType) :
    Signature.convertArguments ⟨List.replicate n .anything, none, returns⟩ arguments = arguments := by
  refine List.ext_getElem (by simp [Signature.convertArguments]) ?_
  intro i hi _
  simp only [Signature.convertArguments, List.getElem_mapIdx, Signature.param?, List.getElem?_replicate,
    Option.or_none]
  split
  · next type h =>
    split at h
    · rw [← Option.some.inj h, convert_anything]
    · cases h
  · rfl

/-- The choice does not depend on the name, except in the wording of errors. -/
theorem Dispatch.agrees_of_name (forest : Forest) (name display : Name) (fs : List Function) (scope : Scope) :
    Dispatch.Agrees forest ⟨name, fs, scope⟩ ⟨display, fs, scope⟩ where
  scope := rfl
  choice := by
    intro arguments
    have haccepted : accepted forest ⟨name, fs, scope⟩ arguments =
        accepted forest ⟨display, fs, scope⟩ arguments := rfl
    unfold select
    rw [haccepted]
    rcases accepted forest ⟨display, fs, scope⟩ arguments with _ | ⟨c, _ | ⟨c', rest⟩⟩
    · exact .inr ⟨_, _, rfl, rfl, rfl⟩
    · exact .inl ⟨c, rfl, rfl⟩
    · exact .inr ⟨_, _, rfl, rfl, rfl⟩

/-- A call of the function that stands for several candidates leaves the choice to the stream. -/
theorem invoke_chooser (env : Environment) (depth identity : Nat) (display : Name) {fs : List Function}
    (h : 2 ≤ fs.length) (scope : Scope) (arguments : List Stream) (w : World) :
    (Engine.ofDepth env (depth + 1)).invoke (Registry.chooser identity display arguments.length fs) scope
      arguments w = (.ok (Dispatch.stream ⟨display, fs, scope⟩ arguments), w) := by
  have haccepts : (Registry.chooser identity display arguments.length fs).signature.accepts
      arguments.length := by
    simp [Registry.chooser, Signature.accepts, Signature.arity]
  have hconvert : (Registry.chooser identity display arguments.length fs).signature.convertArguments
      arguments = arguments := convertArguments_anything ..
  rw [Engine.invoke, if_pos haccepts, hconvert]
  rcases fs with _ | ⟨f, _ | ⟨g, rest⟩⟩
  · simp at h
  · simp at h
  · rfl

/-- **The item of a reference** is called as one of the candidates is. -/
theorem invoke_reference (env : Environment) {r : Registry} {name : Name} {n : Nat}
    {default : Option String} {fs : List Function} (h : r.resolve name n default = .ok fs) (identity : Nat) :
    ∃ f, r.reference identity name n default = .ok f ∧
      ∀ (depth : Nat) (scope : Scope) (arguments : List Stream) (w : World), arguments.length = n →
        SameRun env (Engine.ofDepth env (depth + 1))
          ((Engine.ofDepth env (depth + 1)).invoke f scope arguments w)
          ((Engine.ofDepth env (depth + 1)).invokeAny name fs scope arguments w) := by
  obtain ⟨f, target, rfl, htarget, hfixed⟩ | ⟨hlength, hchooser⟩ := Registry.reference_cases h identity
  · refine ⟨target, htarget, ?_⟩
    rintro depth scope arguments w rfl
    have haccepts := (Registry.accepts_of_resolve h).2 f (.head _)
    rw [hfixed.invoke haccepts]
    exact .refl _
  · refine ⟨_, hchooser, ?_⟩
    rintro depth scope arguments w rfl
    rw [invoke_chooser env depth identity (name.resolveIn default) hlength]
    match fs, hlength with
    | f :: g :: fs, _ =>
      have hagree := Dispatch.agrees_of_name env.forest (name.resolveIn default) name (f :: g :: fs) scope
      exact hagree.lockstep.sameRun (.ok _) (.ok _) (Dispatch.paired_stream _ _ arguments) w

/-! ### The call of an item -/

section

variable (env : Environment) (E : Engine)

/-- Arguments all of which are there. -/
theorem evaluateArguments_map_some (scope : Scope) (es : List Expr) (w : World) :
    evaluateArguments env E scope (es.map some) w =
      ((evaluateAll env E scope es w).1.map some, (evaluateAll env E scope es w).2) := by
  induction es generalizing w with
  | nil => rfl
  | cons e es ih =>
    have hcons : evaluateArguments env E scope ((e :: es).map some) w =
        (some (evaluate env E scope e w).1 ::
            (evaluateArguments env E scope (es.map some) (evaluate env E scope e w).2).1,
          (evaluateArguments env E scope (es.map some) (evaluate env E scope e w).2).2) := rfl
    rw [hcons, ih]
    rfl

private theorem length_evaluateAll (scope : Scope) (es : List Expr) (w : World) :
    (evaluateAll env E scope es w).1.length = es.length := by
  induction es generalizing w with
  | nil => rfl
  | cons e es ih => exact congrArg (· + 1) (ih (evaluate env E scope e w).2)

/-- The evaluation of a call by name: the arguments are evaluated first. -/
theorem evaluate_call_map_some (scope : Scope) (name : Name) (es : List Expr) (w : World) :
    evaluate env E scope (.call name (es.map some)) w =
      let arguments := evaluateAll env E scope es w
      let result := E.callNamed env.registry name scope arguments.1 arguments.2
      (Stream.orFailed result.1, result.2) := by
  have hsome : ¬ (es.map some).any (·.isNone) := by simp
  have hcall : evaluate env E scope (.call name (es.map some)) w =
      (Stream.orFailed (E.callNamed env.registry name scope
          ((evaluateArguments env E scope (es.map some) w).1.filterMap id)
          (evaluateArguments env E scope (es.map some) w).2).1,
        (E.callNamed env.registry name scope
          ((evaluateArguments env E scope (es.map some) w).1.filterMap id)
          (evaluateArguments env E scope (es.map some) w).2).2) := by
    unfold evaluate
    rw [if_neg hsome]
    rfl
  rw [hcall, evaluateArguments_map_some]
  simp

/-- The call of an item with arguments all of which are there. -/
theorem callWith_map_some (f : Function) (scope : Scope) (es : List Expr) (w : World) :
    callWith env E (.function f) (es.map some) scope w =
      let arguments := evaluateAll env E scope es w
      E.invoke f scope arguments.1 arguments.2 := by
  have hsome : ¬ (es.map some).any (·.isNone) := by simp
  have hcall : callWith env E (.function f) (es.map some) scope w =
      E.invoke f scope ((evaluateArguments env E scope (es.map some) w).1.filterMap id)
        (evaluateArguments env E scope (es.map some) w).2 := by
    unfold callWith
    rw [if_neg hsome]
    rfl
  rw [hcall, evaluateArguments_map_some]
  simp

/-- The reports of a stream that has failed. -/
theorem play_failed (e : Error) (moves : List (World → World)) (w : World) :
    (play (streamStep env E) moves (.failed e) w).1 = List.replicate moves.length (.failed e) := by
  induction moves generalizing w with
  | nil => rfl
  | cons m moves ih => exact congrArg (.failed e :: ·) (ih (m w))

/-- The reports of a call of an item that is not found. -/
theorem play_callFailed (e : Error) (arguments : List (Option Expr)) (scope : Scope)
    (moves : List (World → World)) (w : World) :
    (play (streamStep env E) moves
        (Stream.zip (.call arguments scope) [Stream.convert ⟨.item, .one⟩ (.failed e)]) w).1 =
      List.replicate moves.length (.failed e) := by
  cases moves with
  | nil => rfl
  | cons m moves => exact congrArg (.failed e :: ·) (play_failed env E e moves (m w))

/-- Three steps find that an item is the only one. -/
theorem play_callItem (x : Item) (arguments : List (Option Expr)) (scope : Scope) (w : World)
    (m₁ m₂ m₃ : World → World) :
    play (streamStep env E) [m₁, m₂, m₃]
        (Stream.zip (.call arguments scope) [Stream.convert ⟨.item, .one⟩ (.one x)]) w =
      ([.skip, .skip, .skip], .run (.combine (.call arguments scope) [some x]), m₃ (m₂ (m₁ w))) := rfl

/-- The step that calls an item. -/
theorem streamStep_combine_call (x : Item) (arguments : List (Option Expr)) (scope : Scope) (w : World) :
    streamStep env E (.run (.combine (.call arguments scope) [some x])) w =
      match callWith env E x arguments scope w with
      | (.ok s, w') => ((.skip, .run (.forward s)), w')
      | (.error e, w') => ((.failed e, .failed e), w') := by
  have hstep : streamStep env E (.run (.combine (.call arguments scope) [some x])) w =
      (StreamOf.settle (forwarding (.combine (.call arguments scope) [some x])
          (callWith env E x arguments scope w).1), (callWith env E x arguments scope w).2) := rfl
  rw [hstep]
  rcases callWith env E x arguments scope w with ⟨_ | s, w'⟩
  · rfl
  · rfl

section

variable {env E} {e : Error} {x : Item} {arguments : List (Option Expr)} {scope : Scope} {s : Stream}
  {w w' : World} {m₁ m₂ m₃ m₄ : World → World}

/-- The reports of a call that gives a stream in the fourth step. -/
theorem play_callItem_ok (h : callWith env E x arguments scope (m₄ (m₃ (m₂ (m₁ w)))) = (.ok s, w'))
    (moves : List (World → World)) :
    (play (streamStep env E) ([m₁, m₂, m₃, m₄] ++ moves)
        (Stream.zip (.call arguments scope) [Stream.convert ⟨.item, .one⟩ (.one x)]) w).1 =
      List.replicate 4 .skip ++ (play (streamStep env E) moves (.run (.forward s)) w').1 := by
  have hsplit : [m₁, m₂, m₃, m₄] ++ moves = [m₁, m₂, m₃] ++ m₄ :: moves := rfl
  rw [hsplit, play_append]
  dsimp only
  rw [play_callItem]
  simp only [play, streamStep_combine_call, h]
  rfl

/-- The reports of a call that is refused in the fourth step. -/
theorem play_callItem_refused {moves : List (World → World)}
    (h : ∀ m ∈ moves.head?, (callWith env E x arguments scope (m (m₃ (m₂ (m₁ w))))).1 = .error e) :
    (play (streamStep env E) ([m₁, m₂, m₃] ++ moves)
        (Stream.zip (.call arguments scope) [Stream.convert ⟨.item, .one⟩ (.one x)]) w).1 =
      List.replicate 3 .skip ++ List.replicate moves.length (.failed e) := by
  rw [play_append]
  dsimp only
  rw [play_callItem]
  cases moves with
  | nil => rfl
  | cons m moves =>
    have hm := h m rfl
    rcases hcall : callWith env E x arguments scope (m (m₃ (m₂ (m₁ w)))) with ⟨r, w'⟩
    rw [hcall] at hm
    obtain rfl : r = .error e := hm
    simp only [play, streamStep_combine_call, hcall, play_failed]
    rfl

end

end

/-- The world after several changes of the values that have arrived. -/
def World.arrivingAll (changes : List Arrivals.Change) (w : World) : World :=
  changes.foldl (fun w change => w.arriving change) w

private theorem IgnoresArrivals.all {α : Type} {x : Action α} (h : IgnoresArrivals x)
    (changes : List Arrivals.Change)
    (w : World) : x (w.arrivingAll changes) = ((x w).1, (x w).2.arrivingAll changes) := by
  induction changes generalizing w with
  | nil => rfl
  | cons change changes ih =>
    have hcons (w : World) : w.arrivingAll (change :: changes) = (w.arriving change).arrivingAll changes := rfl
    rw [hcons, hcons, ih, h change w]

section

variable (env : Environment) (depth : Nat) (scope : Scope) (es : List Expr) (w : World)

private theorem callWith_map_some_ignoresArrivals {E : Engine} (hE : E.IgnoresArrivals) (f : Function) :
    IgnoresArrivals (callWith env E (.function f) (es.map some) scope) := by
  intro change w
  have hall : IgnoresArrivals (evaluateAll env E scope es) := evaluateAll_ignoresArrivals hE scope es
  have hinvoke := hE.invoke f scope (evaluateAll env E scope es w).1 change (evaluateAll env E scope es w).2
  rw [callWith_map_some, callWith_map_some, hall change w]
  exact hinvoke

/-- The call of the item of a reference cannot be told apart from the call by name, even if values arrive
before the one or after the other. -/
theorem callWith_reference {name : Name} {fs : List Function}
    (h : env.registry.resolve name es.length scope.settings.functionSpace = .ok fs) (identity : Nat) :
    let E := Engine.ofDepth env (depth + 1)
    ∃ f, env.registry.reference identity name es.length scope.settings.functionSpace = .ok f ∧
      ∀ changes, SameRun env E
        ((callWith env E (.function f) (es.map some) scope w).1,
          (callWith env E (.function f) (es.map some) scope w).2.arrivingAll changes)
        (.ok (evaluate env E scope (.call name (es.map some)) w).1,
          (evaluate env E scope (.call name (es.map some)) w).2.arrivingAll changes) := by
  intro E
  have hE : E.IgnoresArrivals := Engine.ofDepth_ignoresArrivals env (depth + 1)
  obtain ⟨f, hf, hsame⟩ := invoke_reference env h identity
  refine ⟨f, hf, ?_⟩
  intro changes
  have hlength := length_evaluateAll env E scope es w
  have hcalled : E.callNamed env.registry name scope (evaluateAll env E scope es w).1 =
      E.invokeAny name fs scope (evaluateAll env E scope es w).1 := by
    unfold Engine.callNamed
    rw [hlength, h]
  have hrun := hsame depth scope (evaluateAll env E scope es w).1
    ((evaluateAll env E scope es w).2.arrivingAll changes) hlength
  rw [(hE.invoke f scope (evaluateAll env E scope es w).1).all,
    (hE.invokeAny name fs scope (evaluateAll env E scope es w).1).all] at hrun
  rw [callWith_map_some, evaluate_call_map_some]
  dsimp only
  rw [hcalled]
  exact ⟨hrun.world, hrun.reports, hrun.worlds⟩

end

private theorem forall₂_alike_append {α : Type} (first : List (Outcome α)) {os os' : List (Outcome α)}
    (h : List.Forall₂ Outcome.Alike os os') : List.Forall₂ Outcome.Alike (first ++ os) (first ++ os') := by
  induction first with
  | nil => exact h
  | cons o first ih => exact .cons (.same o) ih

/-- The call of an item and another call that cannot be told apart from it have the same reports, up to the
steps that find that the item is the only one. -/
theorem play_callItem_alike {env : Environment} {E : Engine} {x : Item} {arguments : List (Option Expr)}
    {scope : Scope} {w : World} {called : Stream × World}
    (hcall : IgnoresArrivals (callWith env E x arguments scope))
    (hsame : ∀ changes, SameRun env E
      ((callWith env E x arguments scope w).1, (callWith env E x arguments scope w).2.arrivingAll changes)
      (.ok called.1, called.2.arrivingAll changes)) :
    ∃ n ≤ 4, ∀ early later : List Arrivals.Change, early.length = n →
      List.Forall₂ Outcome.Alike
        (play (streamStep env E) ((early ++ later).map World.arriving)
          (Stream.zip (.call arguments scope) [Stream.convert ⟨.item, .one⟩ (.one x)]) w).1
        (List.replicate n .skip ++
          (play (streamStep env E) (later.map World.arriving) called.1 (called.2.arrivingAll early)).1) := by
  rcases hq : callWith env E x arguments scope w with ⟨e | s, w'⟩
  · -- the call is refused in the fourth step
    refine ⟨3, by omega, ?_⟩
    intro early later hearly
    obtain ⟨c₁, c₂, c₃, rfl⟩ := List.length_eq_three.1 hearly
    have hrun := (hsame [c₁, c₂, c₃]).reports (later.map World.arriving)
    rw [hq] at hrun
    simp only [Stream.orFailed, play_failed] at hrun
    rw [List.map_append, List.map_cons, List.map_cons, List.map_cons, List.map_nil, play_callItem_refused]
    · exact forall₂_alike_append _ hrun
    · intro m hm
      rw [List.head?_map] at hm
      obtain ⟨c, -, rfl⟩ := Option.map_eq_some_iff.1 hm
      have hworld := hcall.all [c₁, c₂, c₃, c] w
      rw [hq] at hworld
      exact congrArg Prod.fst hworld
  · refine ⟨4, by omega, ?_⟩
    intro early later hearly
    obtain ⟨c₁, c₂, c₃, c₄, rfl⟩ := List.length_eq_four.1 hearly
    have hworld := hcall.all [c₁, c₂, c₃, c₄] w
    rw [hq] at hworld
    have hrun := hsame [c₁, c₂, c₃, c₄]
    rw [hq] at hrun
    rw [List.map_append, List.map_cons, List.map_cons, List.map_cons, List.map_cons, List.map_nil,
      play_callItem_ok hworld]
    exact forall₂_alike_append _ (((SameRun.forwarded s _).trans hrun).reports (later.map World.arriving))

/-- The stream of a reference. -/
def target (env : Environment) (scope : Scope) (name : Name) (n : Nat) (w : World) : Stream :=
  match env.registry.reference (World.newIdentity w).1 name n scope.settings.functionSpace with
  | .ok f => .one (.function f)
  | .error e => .failed e

/-- The call of a reference waits for it. -/
theorem evaluate_dynamicCall_functionRef (env : Environment) (E : Engine) (scope : Scope) (name : Name) (n : Nat)
    (arguments : List (Option Expr)) (w : World) :
    evaluate env E scope (.dynamicCall (.functionRef name n) arguments) w =
      (Stream.zip (.call arguments scope) [Stream.convert ⟨.item, .one⟩ (target env scope name n w)],
        (World.newIdentity w).2) := by
  have href : evaluate env E scope (.functionRef name n) w =
      (target env scope name n w, (World.newIdentity w).2) := by
    have hstep : evaluate env E scope (.functionRef name n) w =
        (match env.registry.reference (World.newIdentity w).1 name n scope.settings.functionSpace with
          | .ok f => (pure (.one (.function f)) : Action Stream)
          | .error e => pure (.failed e)) (World.newIdentity w).2 := rfl
    rw [hstep, target]
    cases env.registry.reference (World.newIdentity w).1 name n scope.settings.functionSpace with
    | ok f => rfl
    | error e => rfl
  have hcall : evaluate env E scope (.dynamicCall (.functionRef name n) arguments) w =
      (Stream.zip (.call arguments scope)
          [Stream.convert ⟨.item, .one⟩ (evaluate env E scope (.functionRef name n) w).1],
        (evaluate env E scope (.functionRef name n) w).2) := rfl
  rw [hcall, href]

/-- **A call through a reference is the call by name.** The reports are the same, up to the wording of an
error, after at most four steps without a report. Any values may arrive during these steps (`early`) and
later. The reference uses up an identity for a function it may have to make. -/
theorem dynamicCall_functionRef (env : Environment) (depth : Nat) (scope : Scope) (name : Name)
    (arguments : List Expr) (w : World) :
    let E := Engine.ofDepth env (depth + 1)
    let called := evaluate env E scope (.call name (arguments.map some)) (World.newIdentity w).2
    let referred := evaluate env E scope
      (.dynamicCall (.functionRef name arguments.length) (arguments.map some)) w
    ∃ n ≤ 4, ∀ early later : List Arrivals.Change, early.length = n →
      List.Forall₂ Outcome.Alike
        (play (streamStep env E) ((early ++ later).map World.arriving) referred.1 referred.2).1
        (List.replicate n .skip ++
          (play (streamStep env E) (later.map World.arriving) called.1 (called.2.arrivingAll early)).1) := by
  intro E called referred
  have hreferred : referred = ((Stream.zip (.call (arguments.map some) scope)
      [Stream.convert ⟨.item, .one⟩ (target env scope name arguments.length w)]), (World.newIdentity w).2) :=
    evaluate_dynamicCall_functionRef ..
  rw [hreferred]
  rcases hresolve : env.registry.resolve name arguments.length scope.settings.functionSpace with e | fs
  · -- both fail at once, the call by name after it has evaluated the arguments
    refine ⟨0, by omega, ?_⟩
    intro early later hearly
    obtain rfl := List.length_eq_zero_iff.1 hearly
    have htarget : target env scope name arguments.length w = .failed e := by
      rw [target, Registry.reference_of_error hresolve]
    have hcalled : called.1 = .failed e := by
      have hlength := length_evaluateAll env E scope arguments (World.newIdentity w).2
      simp only [called, evaluate_call_map_some, Engine.callNamed, hlength, hresolve]
      rfl
    rw [htarget, hcalled, List.nil_append, play_failed, play_callFailed]
    exact List.forall₂_same.2 fun o _ => Outcome.Alike.same o
  · obtain ⟨f, hf, hsame⟩ := callWith_reference env depth scope arguments (World.newIdentity w).2 hresolve
      (World.newIdentity w).1
    have htarget : target env scope name arguments.length w = .one (.function f) := by
      rw [target, hf]
    have hcall := callWith_map_some_ignoresArrivals env scope arguments
      (Engine.ofDepth_ignoresArrivals env (depth + 1)) f
    rw [htarget]
    exact play_callItem_alike hcall hsame

/-- A variadic function of two arguments, of which one arrives after the delay. -/
theorem dynamicCall_late_argument :
    let f : Function := ⟨0, none, ⟨[], some .anything, .anything⟩, .hosted .concat⟩
    let env : Environment := ⟨{}, Registry.empty.register (.plain "f") f⟩
    let E := Engine.ofDepth env 1
    let arguments : List Expr := [.deferred "d", .literal (.boolean true)]
    let called := evaluate env E (.root default) (.call (.plain "f") (arguments.map some))
      (World.newIdentity {}).2
    let referred := evaluate env E (.root default)
      (.dynamicCall (.functionRef (.plain "f") 2) (arguments.map some)) {}
    let arrives : Arrivals.Change := (("d", .ok [.ofInt 7]) :: ·)
    ∃ n ≤ 4, List.Forall₂ Outcome.Alike
      (play (streamStep env E) ((List.replicate n id ++ [id, arrives, id, id, id, id]).map World.arriving)
        referred.1 referred.2).1
      (List.replicate n .skip ++
        (play (streamStep env E) ([id, arrives, id, id, id, id].map World.arriving) called.1
          (called.2.arrivingAll (List.replicate n id))).1) := by
  intro f env E arguments called referred arrives
  obtain ⟨n, hn, h⟩ := dynamicCall_functionRef env 0 (.root default) (.plain "f") arguments {}
  exact ⟨n, hn, h (List.replicate n id) [id, arrives, id, id, id, id] List.length_replicate⟩

end LazyXPath
