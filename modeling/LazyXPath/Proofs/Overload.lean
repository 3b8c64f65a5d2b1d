import LazyXPath.Proofs.Lockstep
import LazyXPath.Proofs.Production.Call

/-!
# Calls of one of several functions

If several functions accept the number of arguments of a call, all arguments are read before one of them is
chosen. What the call produces is found in two steps.

* The arguments are read one after the other, up to the first one that fails (`Run.gather`,
  `Dispatch.stream_produces`).
* When they are complete, the call goes on with the function that is chosen, and with the arguments after
  conversion as a whole (`dispatch_produces`).

A call of the function itself converts the arguments while they are pulled. Both calls come to the same if
there is one function to which the arguments can be converted (`invokeAny_agrees`). Otherwise no function
is called at all: until the call fails, the world is what it would be if the arguments were only read
(`Regime.Refuses`).
-/

namespace LazyXPath

/-! ### Sequences that are read one after the other -/

namespace Run

variable {α β : Type}

/-- What a function makes of complete sequences that are read one after the other. The first one that does
not end is the last one that is read. -/
def gather (k : List (List α) → Run β) : List (Run α) → Run β
  | [] => k []
  | r :: rs =>
    match r.tail with
    | .done => gather (fun xss => k (r.items :: xss)) rs
    | t => ⟨[], t⟩

private theorem complete_injective : Function.Injective (complete (α := α)) :=
  fun _ _ h => congrArg items h

private theorem gather_complete (k : List (List α) → Run β) (xss : List (List α)) :
    gather k (xss.map .complete) = k xss := by
  induction xss generalizing k with
  | nil => rfl
  | cons xs xss ih => exact ih fun xss => k (xs :: xss)

private theorem gather_fails (k : List (List α) → Run β) (xss : List (List α)) (xs : List α) (P : Error → Prop)
    (rs : List (Run α)) : gather k (xss.map .complete ++ ⟨xs, .fails P⟩ :: rs) = ⟨[], .fails P⟩ := by
  induction xss generalizing k with
  | nil => rfl
  | cons ys xss ih => exact ih fun xss => k (ys :: xss)

end Run

section

variable {env : Environment} {F : Regime (World × Nat)} {ω : F.Situation} {d : Dispatch}
  {gathered xss : List (List Item)} {seen : List Item} {current : Stream} {rest : List Stream} {r : Run Item}
  {rs : List (Run Item)}

/-! ### Steps of a call whose function is still to be chosen -/

/-- A call that has read some of its arguments, here in reverse, and is about to read the others. -/
def Dispatch.resume (d : Dispatch) (gathered : List (List Item)) : List Stream → Cursor
  | [] => .dispatch d gathered.reverse
  | s :: rest => .gather d gathered [] s rest

private theorem Dispatch.stream_eq_run (d : Dispatch) (arguments : List Stream) :
    d.stream arguments = .run (d.resume [] arguments) := by
  cases arguments <;> rfl

/-- A call after a pull of the current argument. -/
def Dispatch.afterPull (d : Dispatch) (gathered : List (List Item)) (seen : List Item) (rest : List Stream) :
    Outcome Item × Stream → Outcome Item × Cursor
  | (.item x, s) => (.skip, .gather d gathered (x :: seen) s rest)
  | (.done, _) => (.skip, d.resume (seen.reverse :: gathered) rest)
  | (o, s) => (o.pass, .gather d gathered seen s rest)

private theorem cursorStep_gather {s s' : Stream} {o : Outcome Item} {p p' : World × Nat}
    (hp : streamPull env s p = ((o, s'), p')) : cursorStep env (.gather d gathered seen s rest) p =
      (d.afterPull gathered seen rest (o, s'), p') := by
  obtain ⟨w, depth⟩ := p
  obtain ⟨o, s', w', h, h'⟩ := exists_streamStep env s w depth
  cases h'.symm.trans hp
  cases o <;> cases rest <;>
    simp only [cursorStep, atDepth, Cursor.step, Step.gather, bind, StateT.bind, h] <;> rfl

/-- One argument is read to its end. -/
theorem gather_produces {k : List Item → Run Item} (h : Produces F (streamPull env) ω current r)
    (hk : ∀ xs, r = .complete xs → Produces F (cursorStep env) ω (d.resume (xs :: gathered) rest) (k xs)) :
    Produces F (cursorStep env) ω (.gather d gathered [] current rest)
      (match r.tail with
        | .done => k r.items
        | t => ⟨[], t⟩) := by
  -- the items that have been seen come before the rest of the argument
  refine Produces.simulate (e := fun seen s => Cursor.gather d gathered seen s rest)
    (H := fun ω seen r => ∀ xs, r.prepend seen.reverse = .complete xs →
      Produces F (cursorStep env) ω (d.resume (xs :: gathered) rest) (k xs))
    (R := fun seen r =>
      match r.tail with
      | .done => k (seen.reverse ++ r.items)
      | t => ⟨[], t⟩)
    ?_ ?_ (fun _ => rfl) (fun _ => rfl) ?_ ?_ (g := []) hk h
  · intro ω ω₁ seen r h₁ hk xs hxs
    exact (hk xs hxs).later h₁
  · intro seen s s' w w' o ho hd hp
    rw [cursorStep_gather hp]
    cases o with
    | item x => exact absurd rfl (ho x)
    | done => exact absurd rfl hd
    | suspended | failed | skip => rfl
  · intro ω₀ ω ω' seen s s' x xs t hH ih hp he hv h
    have hseen : seen.reverse ++ x :: xs = (x :: seen).reverse ++ xs := by simp
    rw [Run.prepend, hseen] at hH
    simp only [hseen]
    exact .skip (cursorStep_gather hp) he ⟨hv, ih hH h⟩
  · intro ω₀ ω ω' seen s s' hH hp he hv
    have hresume : Produces F (cursorStep env) ω' (d.resume (seen.reverse :: gathered) rest)
        (k (seen.reverse ++ [])) := by
      simpa using hH (seen.reverse ++ []) rfl
    exact .skip (cursorStep_gather hp) he ⟨hv, hresume⟩

/-- **The arguments** are read to their ends, and then the function is chosen. -/
theorem resume_produces {k : List (List Item) → Run Item}
    (hs : List.Forall₂ (Produces F (streamPull env) ω) rest rs)
    (hk : ∀ xss, rs = xss.map .complete →
      Produces F (cursorStep env) ω (.dispatch d (gathered.reverse ++ xss)) (k xss)) :
    Produces F (cursorStep env) ω (d.resume gathered rest) (Run.gather k rs) := by
  induction hs generalizing gathered k with
  | nil =>
    have hk := hk [] rfl
    rwa [List.append_nil] at hk
  | @cons s r rest rs h hs ih =>
    refine gather_produces (k := fun xs => Run.gather (fun xss => k (xs :: xss)) rs) h fun xs hxs => ?_
    refine ih fun xss hxss => ?_
    simpa using hk (xs :: xss) (by simp [hxs, hxss])

/-! ### The choice -/

/-- A call that fails when its arguments are complete. -/
theorem dispatch_produces_failed {e : Error} (h : d.select env.forest xss = .error e) (ω : F.Situation) :
    Produces F (cursorStep env) ω (.dispatch d xss) ⟨[], .failed e⟩ := by
  refine .of_step fun ω₁ _ hv => ?_
  have hstep : cursorStep env (.dispatch d xss) (F.world ω₁) = ((.failed e, .dispatch d xss), F.world ω₁) := by
    simp only [cursorStep, atDepth, Cursor.step, dispatchStep, h]
    rfl
  exact .reported hstep (F.effect_of_drift (F.drift_of_valid hv)) (.failed hv rfl)

/-- A call whose arguments are complete goes on with the function that is chosen. -/
theorem dispatch_produces {f : Function} {converted : List (List Item)}
    (h : d.select env.forest xss = .ok (f, converted))
    (hf : F.Calls env ω (atDepth env fun E => E.call f d.scope (converted.map .ofList)) r) :
    Produces F (cursorStep env) ω (.dispatch d xss) r := by
  by_cases hr : r = ⟨[], .unknown⟩
  · exact hr ▸ .unknown ω _
  refine .of_step fun ω₁ h₁ hv => ?_
  obtain ⟨result, ω₂, hcall, he, hv₂, hp⟩ := hf ω₁ h₁ hv
  have hstep : cursorStep env (.dispatch d xss) (F.world ω₁) = (forwarding (.dispatch d xss) result, F.world ω₂) := by
    have hstep : cursorStep env (.dispatch d xss) (F.world ω₁) =
        let p := atDepth env (fun E => E.call f d.scope (converted.map .ofList)) (F.world ω₁)
        (forwarding (.dispatch d xss) p.1, p.2) := by
      simp only [cursorStep, atDepth, Cursor.step, dispatchStep, h]
      rfl
    rw [hstep, hcall]
  cases result with
  | ok s => exact .skip hstep he ⟨hv₂, forward_produces hp⟩
  | error e =>
    obtain rfl | ⟨P, rfl, hP⟩ := (produces_failed_iff hv₂).1 hp
    · exact absurd rfl hr
    · exact .reported hstep he (.failed hv₂ hP)

/-! ### Calls that are refused -/

/-- What a call that is refused with complete arguments produces. -/
def Dispatch.refusal (forest : Forest) (d : Dispatch) (xss : List (List Item)) : Run Item :=
  match d.select forest xss with
  | .error e => ⟨[], .failed e⟩
  | .ok _ => ⟨[], .unknown⟩

private theorem dispatch_produces_refusal (d : Dispatch) (xss : List (List Item)) (ω : F.Situation) :
    Produces F (cursorStep env) ω (.dispatch d xss) (d.refusal env.forest xss) := by
  unfold Dispatch.refusal
  cases h : d.select env.forest xss with
  | error e => exact dispatch_produces_failed h ω
  | ok choice => exact .unknown ω _

private theorem Dispatch.select_of_refusal {forest : Forest} {P : Error → Prop}
    (h : d.refusal forest xss = ⟨[], .fails P⟩) : ∃ e, d.select forest xss = .error e := by
  unfold refusal at h
  cases hs : d.select forest xss with
  | error e => exact ⟨e, rfl⟩
  | ok choice => simp [hs] at h

/-- The world after changes and nothing else. -/
def afterMoves {W : Type} (moves : List (W → W)) (w : W) : W := moves.foldl (fun w m => m w) w

private theorem play_over_world {s : Stream} (h : s.Over) (moves : List (World × Nat → World × Nat))
    (p : World × Nat) :
    (play (streamPull env) moves s p).2.2 = afterMoves moves p := by
  induction moves generalizing p with
  | nil => rfl
  | cons m moves ih =>
    have hp : ∃ o, streamPull env s (m p) = ((o, s), m p) := by
      obtain rfl | ⟨e, rfl⟩ := h
      · exact ⟨.done, rfl⟩
      · exact ⟨.failed e, rfl⟩
    obtain ⟨o, hp⟩ := hp
    simp only [play, hp]
    exact ih (m p)

/-- A call that is refused does nothing to the world. -/
theorem play_dispatch_world {e : Error} (h : d.select env.forest xss = .error e)
    (moves : List (World × Nat → World × Nat)) (p : World × Nat) :
    (play (streamPull env) moves (.run (.dispatch d xss)) p).2.2 = afterMoves moves p := by
  cases moves with
  | nil => rfl
  | cons m moves =>
    have hp : streamPull env (.run (.dispatch d xss)) (m p) = ((.failed e, .failed e), m p) := by
      rw [streamPull_eq]
      simp only [atDepth, Dispatch.streamStep_dispatch_error h]
    simp only [play, hp]
    exact play_over_world (.inr ⟨e, rfl⟩) moves (m p)

/-- Streams one after the other, after a pull of the current one. -/
def Stream.afterPull (rest : List Stream) : Outcome Item × Stream → Outcome Item × Cursor
  | (.done, s) =>
    match rest with
    | [] => (.done, .concat s [])
    | t :: ts => (.skip, .concat t ts)
  | (o, s) => (o, .concat s rest)

private theorem cursorStep_concat {s s' : Stream} {o : Outcome Item} {p p' : World × Nat}
    (hp : streamPull env s p = ((o, s'), p')) :
    cursorStep env (.concat s rest) p = (Stream.afterPull rest (o, s'), p') := by
  obtain ⟨w, depth⟩ := p
  obtain ⟨o, s', w', h, h'⟩ := exists_streamStep env s w depth
  cases h'.symm.trans hp
  cases o <;> cases rest <;>
    simp only [cursorStep, atDepth, Cursor.step, Step.concat, bind, StateT.bind, h] <;> rfl

/-- **Nothing but the arguments is read** by a call that is refused. -/
theorem play_gather_world {P : Error → Prop} {moves : List (World × Nat → World × Nat)}
    (h : Producing F (streamPull env) ω current r) (hs : List.Forall₂ (Produces F (streamPull env) ω) rest rs)
    (hg : Run.gather (fun xss => d.refusal env.forest (gathered.reverse ++ xss))
      (r.prepend seen.reverse :: rs) = ⟨[], .fails P⟩) (hm : ∀ m ∈ moves, F.Permits m) :
    (play (streamPull env) moves (.run (.gather d gathered seen current rest)) (F.world ω)).2.2 =
      (play (streamPull env) moves (.run (.concat current rest)) (F.world ω)).2.2 := by
  induction moves generalizing ω gathered seen current rest r rs with
  | nil => rfl
  | cons m moves ih =>
    have hr : r ≠ ⟨[], .unknown⟩ := by
      rintro rfl
      cases hg
    obtain ⟨o, s', ω₁, ω', r', hd, -, hp, he, hv, hn, hrest⟩ := h.step hr (hm m (.head _))
    have hω : F.evolves ω ω' := F.evolves_trans (F.evolves_of_drift hd) he
    have hs' := forall₂_produces_later hs hω
    have hm' : ∀ m ∈ moves, F.Permits m := fun m hmem => hm m (.tail _ hmem)
    have hgather : streamPull env (.run (.gather d gathered seen current rest)) (m (F.world ω)) = _ :=
      StreamOf.pull_run (cursorStep_gather hp)
    have hconcat : streamPull env (.run (.concat current rest)) (m (F.world ω)) = _ :=
      StreamOf.pull_run (cursorStep_concat hp)
    simp only [play, hgather, hconcat]
    cases hn with
    | item x xs t =>
      have hg' : Run.gather (fun xss => d.refusal env.forest (gathered.reverse ++ xss))
          (Run.prepend (x :: seen).reverse ⟨xs, t⟩ :: rs) = ⟨[], .fails P⟩ := by
        simpa [Run.prepend] using hg
      exact ih (hrest id) hs' hg' hm'
    | suspended | skip => exact ih (hrest id) hs' hg hm'
    | failed P e => exact (play_over_world (.inr ⟨e, rfl⟩) moves _).trans (play_over_world (.inr ⟨e, rfl⟩) moves _).symm
    | done =>
      have hv : F.Valid ω' := hv (by simp)
      cases hs' with
      | nil =>
        have hg : d.refusal env.forest (seen.reverse :: gathered).reverse = ⟨[], .fails P⟩ := by
          simpa [Run.gather, Run.prepend] using hg
        obtain ⟨e, hselect⟩ := Dispatch.select_of_refusal hg
        exact (play_dispatch_world hselect moves _).trans (play_over_world (.inl rfl) moves _).symm
      | @cons t r ts rs ht hts =>
        have hg' : Run.gather (fun xss => d.refusal env.forest ((seen.reverse :: gathered).reverse ++ xss))
            (r.prepend [].reverse :: rs) = ⟨[], .fails P⟩ := by
          simpa [Run.gather, Run.prepend] using hg
        exact ih (ht.producing hv) hts hg' hm'

/-- A call is refused: it fails with an error of the kind `P`, and no function is called. Under every
schedule, the world becomes what it becomes when the arguments are read one after the other and nothing else
is done. -/
structure Regime.Refuses (env : Environment) (F : Regime (World × Nat)) (ω : F.Situation)
    (call : StateM (World × Nat) (Except Error Stream)) (arguments : List Stream) (P : Error → Prop) : Prop where
  calls : F.Calls env ω call ⟨[], .fails P⟩
  idle : ∀ ω₁, F.evolves ω ω₁ → F.Valid ω₁ → ∃ s, call (F.world ω₁) = (.ok s, F.world ω₁) ∧
    ∀ moves : List (World × Nat → World × Nat), (∀ m ∈ moves, F.Permits m) →
      (play (streamPull env) moves s (F.world ω₁)).2.2 =
        (play (streamPull env) moves (.concat arguments) (F.world ω₁)).2.2

end

/-! ### Overloads -/

/-- Whether complete arguments can be converted to the types of the parameters. -/
def Signature.admits (forest : Forest) (signature : Signature) (xss : List (List Item)) : Bool :=
  (signature.convertAll forest xss).toOption.isSome

namespace Dispatch

variable {forest : Forest} {d : Dispatch} {xss : List (List Item)}

private theorem length_accepted (forest : Forest) (d : Dispatch) (xss : List (List Item)) :
    (d.accepted forest xss).length = d.candidates.countP (·.signature.admits forest xss) := by
  rw [accepted, List.length_filterMap_eq_countP]
  simp [Signature.admits]

/-- The choice of the only function that admits the arguments. -/
theorem select_of_admits {f : Function} {converted : List (List Item)}
    (hone : d.candidates.countP (·.signature.admits forest xss) = 1) (hf : f ∈ d.candidates)
    (h : f.signature.convertAll forest xss = .ok converted) : d.select forest xss = .ok (f, converted) := by
  rw [← length_accepted] at hone
  obtain ⟨choice, hchoice⟩ := List.length_eq_one_iff.1 hone
  have hmem : (f, converted) ∈ d.accepted forest xss :=
    List.mem_filterMap.2 ⟨f, hf, by simp [h, Except.toOption]⟩
  rw [hchoice, List.mem_singleton] at hmem
  rw [select, hchoice, hmem]

/-- There is no choice if no function admits the arguments, or more than one. -/
theorem refusal_of_not_one (hone : d.candidates.countP (·.signature.admits forest xss) ≠ 1) :
    ∃ e, e.code = ErrorCode.XPTY0004.name ∧ d.refusal forest xss = ⟨[], .failed e⟩ := by
  rw [← length_accepted] at hone
  unfold refusal select
  rcases ha : d.accepted forest xss with _ | ⟨choice, _ | ⟨choice', rest⟩⟩
  · exact ⟨.noOverloadAccepts d.name, rfl, rfl⟩
  · exact absurd (congrArg List.length ha) hone
  · exact ⟨.overloadsAmbiguous d.name, rfl, rfl⟩

end Dispatch

section

variable {env : Environment} {F : Regime (World × Nat)} {ω : F.Situation} {name : Name}
  {candidates : List Function} {scope : Scope} {arguments : List Stream} {rs : List (Run Item)}

/-- A call of several functions that accept the number of arguments. -/
theorem atDepth_invokeAny (h : 2 ≤ candidates.length) (p : World × Nat) :
    atDepth env (fun E => E.invokeAny name candidates scope arguments) p =
      (.ok (Dispatch.stream ⟨name, candidates, scope⟩ arguments), p) := by
  rcases candidates with _ | ⟨f, _ | ⟨g, rest⟩⟩
  · simp at h
  · simp at h
  · rfl

private theorem invokeAny_calls {k : List (List Item) → Run Item} (h : 2 ≤ candidates.length)
    (hs : List.Forall₂ (Produces F (streamPull env) ω) arguments rs)
    (hk : ∀ xss, rs = xss.map .complete →
      Produces F (cursorStep env) ω (.dispatch ⟨name, candidates, scope⟩ xss) (k xss)) :
    F.Calls env ω (atDepth env fun E => E.invokeAny name candidates scope arguments) (Run.gather k rs) := by
  intro ω₁ h₁ hv
  refine ⟨_, ω₁, atDepth_invokeAny h _, F.effect_of_drift (F.drift_of_valid hv), hv, ?_⟩
  rw [Stream.orFailed, Dispatch.stream_eq_run]
  refine StreamOf.produces_run (resume_produces (forall₂_produces_later hs h₁) fun xss hxss => ?_)
  exact (hk xss hxss).later h₁

private theorem invokeAny_refuses {P : Error → Prop} (h : 2 ≤ candidates.length)
    (hs : List.Forall₂ (Produces F (streamPull env) ω) arguments rs)
    (hg : Run.gather (Dispatch.refusal env.forest ⟨name, candidates, scope⟩) rs = ⟨[], .fails P⟩) :
    F.Refuses env ω (atDepth env fun E => E.invokeAny name candidates scope arguments) arguments P where
  calls := by
    rw [← hg]
    exact invokeAny_calls h hs fun xss _ => dispatch_produces_refusal _ xss ω
  idle ω₁ h₁ hv := by
    refine ⟨_, atDepth_invokeAny h _, fun moves hm => ?_⟩
    cases forall₂_produces_later hs h₁ with
    | nil =>
      obtain ⟨e, hselect⟩ := Dispatch.select_of_refusal hg
      refine (play_dispatch_world hselect moves _).trans ?_
      cases moves with
      | nil => rfl
      | cons m moves => exact (play_over_world (.inl rfl) moves _).symm
    | cons ht hts => exact play_gather_world (ht.producing hv) hts (by simpa [Run.prepend] using hg) hm

/-- **A call of one of several functions agrees with the call of the function.** The functions accept the
number of arguments, and the arguments are pulled under whatever regime, with suspensions as it has them.

* If the arguments are complete and exactly one function admits them, then the call produces what a call of
  this function produces, whatever the function computes from the converted arguments.
* If they are complete and no function admits them, or more than one, then the call is refused with the code
  `XPTY0004`.
* If an argument fails and the ones before it are complete, then the call is refused with its error,
  whatever the arguments after it are. -/
theorem invokeAny_agrees (env : Environment) (F : Regime (World × Nat)) (ω : F.Situation) (name : Name)
    (scope : Scope) (hseveral : 2 ≤ candidates.length)
    (haccepts : ∀ f ∈ candidates, f.signature.accepts arguments.length) :
    let call := atDepth env fun E => E.invokeAny name candidates scope arguments
    (∀ (xss converted : List (List Item)) (f : Function) (r : Run Item),
      List.Forall₂ (Produces F (streamPull env) ω) arguments (xss.map .complete) →
      candidates.countP (·.signature.admits env.forest xss) = 1 → f ∈ candidates →
      f.signature.convertAll env.forest xss = .ok converted →
      f.Computes env F ω scope (converted.map .complete) r →
        F.Calls env ω call (r.convert env.forest f.signature.returns) ∧
        F.Calls env ω (atDepth env fun E => E.invoke f scope arguments)
          (r.convert env.forest f.signature.returns)) ∧
    (∀ xss : List (List Item), List.Forall₂ (Produces F (streamPull env) ω) arguments (xss.map .complete) →
      candidates.countP (·.signature.admits env.forest xss) ≠ 1 →
        ∃ e, e.code = ErrorCode.XPTY0004.name ∧ F.Refuses env ω call arguments (· = e)) ∧
    ∀ (before after : List Stream) (s : Stream) (xss : List (List Item)) (xs : List Item) (P : Error → Prop),
      arguments = before ++ s :: after →
      List.Forall₂ (Produces F (streamPull env) ω) before (xss.map .complete) →
      Produces F (streamPull env) ω s ⟨xs, .fails P⟩ → F.Refuses env ω call arguments P := by
  refine ⟨?_, ?_, ?_⟩
  · intro xss converted f r hs hone hf hconverted hcomputes
    have hselect : Dispatch.select env.forest ⟨name, candidates, scope⟩ xss = .ok (f, converted) :=
      Dispatch.select_of_admits hone hf hconverted
    have hcall := hcomputes.call (forall₂_ofList_produces converted ω)
    constructor
    · have hgather : Run.gather (fun _ => r.convert env.forest f.signature.returns) (xss.map .complete) =
          r.convert env.forest f.signature.returns := Run.gather_complete ..
      rw [← hgather]
      refine invokeAny_calls hseveral hs fun yss hyss => ?_
      obtain rfl := List.map_injective_iff.2 Run.complete_injective hyss
      exact dispatch_produces hselect hcall
    · refine Function.Computes.invoke (haccepts f hf) hs ?_
      rwa [Signature.convertRuns_complete hconverted]
  · intro xss hs hone
    obtain ⟨e, hcode, hrefusal⟩ :=
      Dispatch.refusal_of_not_one (d := ⟨name, candidates, scope⟩) hone
    exact ⟨e, hcode, invokeAny_refuses hseveral hs ((Run.gather_complete ..).trans hrefusal)⟩
  · rintro before after s xss xs P rfl hbefore hs
    have hafter : List.Forall₂ (Produces F (streamPull env) ω) after (after.map fun _ => ⟨[], .unknown⟩) :=
      List.forall₂_map_right_iff.2 (List.forall₂_same.2 fun t _ => .unknown ω t)
    exact invokeAny_refuses hseveral (List.rel_append hbefore (.cons hs hafter)) (Run.gather_fails ..)

end

/-- Two functions of one argument, an integer or a string. The argument is a string that arrives later, a
boolean, or an argument that fails. -/
theorem invokeAny_agrees_deferred :
    let env : Environment := ⟨{}, {}⟩
    let F := regime env [("d", .ok [.ofString "a"])] 0
    let ω : Situation := ⟨fun _ => none, {}, 1⟩
    let f (identity : Nat) (type : ItemType) : Function :=
      ⟨identity, none, ⟨[⟨type, .one⟩], none, .anything⟩, .hosted (.argument 0)⟩
    let call (s : Stream) := atDepth env fun E =>
      E.invokeAny (.plain "f") [f 0 .integer, f 1 .string] (.root default) [s]
    F.Valid ω ∧
    (F.Calls env ω (call (.run (.deferred "d" none))) (.complete [.ofString "a"]) ∧
      F.Calls env ω (atDepth env fun E => E.invoke (f 1 .string) (.root default) [.run (.deferred "d" none)])
        (.complete [.ofString "a"])) ∧
    (∃ e, e.code = ErrorCode.XPTY0004.name ∧
      F.Refuses env ω (call (.one (.ofBool true))) [.one (.ofBool true)] (· = e)) ∧
    F.Refuses env ω (call (.failed .absoluteOverflow)) [.failed .absoluteOverflow] (· = .absoluteOverflow) := by
  intro env F ω f call
  have hsane : ω.Sane [("d", .ok [.ofString "a"])] :=
    ⟨fun _ v h => absurd h (Option.some_ne_none v).symm, fun _ h => absurd h List.not_mem_nil,
      fun _ p h => absurd h (Option.some_ne_none p).symm⟩
  have haccepts (s : Stream) : ∀ g ∈ [f 0 .integer, f 1 .string], g.signature.accepts [s].length := by
    simp [f, Signature.accepts, Signature.arity]
  have hseveral : 2 ≤ [f 0 .integer, f 1 .string].length := Nat.le_refl 2
  have agrees (s : Stream) := invokeAny_agrees env F ω (.plain "f") (.root default) hseveral (haccepts s)
  have hv : F.Valid ω := ⟨Nat.zero_lt_one, hsane⟩
  refine ⟨hv, ?_, ?_, ?_⟩
  · have hs : Produces F (streamPull env) ω (.run (.deferred "d" none)) (.complete [.ofString "a"]) :=
      produces_complete_iff.2 (deferred_delivers rfl)
    exact (agrees _).1 [[.ofString "a"]] [[.ofString "a"]] (f 1 .string) (.complete [.ofString "a"])
      (.cons hs .nil) rfl (.tail _ (.head _)) rfl (Function.argument_computes rfl rfl)
  · have hs : Produces F (streamPull env) ω (.one (.ofBool true)) (.complete [.ofBool true]) :=
      produces_complete_iff.2 (one_delivers (F := F) ω (.ofBool true))
    exact (agrees _).2.1 [[.ofBool true]] (.cons hs .nil) (by decide)
  · have hs : Produces F (streamPull env) ω (.failed .absoluteOverflow) ⟨[], .failed .absoluteOverflow⟩ :=
      (produces_failed_iff hv).2 (.inr ⟨_, rfl, rfl⟩)
    exact (agrees _).2.2 [] [] _ [] [] _ rfl .nil hs

end LazyXPath
