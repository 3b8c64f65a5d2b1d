import LazyXPath.Proofs.ConstantPosition
import LazyXPath.Proofs.Production.Truth

/-!
# Searches for truth values

A step of a search is one pull of its input (`streamStep_judged`). As long as it may go on, nothing has come but at most
one atomic value that has a truth value (`IsProvisional`); any other item and any ending is the last thing that is pulled
(`truth_pullsWhile`).

What is made of a truth value depends only on the truth value. Two functions that treat it alike give streams that cannot
be told apart along any schedule, whatever else the functions hold (`truth_flatMap_samePlay`). Until the truth value is
found neither function has been used, and afterwards what was made is the same, so only the step in between is about the
functions.
-/

namespace LazyXPath

/-! ### Steps of a search -/

section

variable {env : Environment} {E : Engine} {position : Option Nat} {first : Option Bool} {s s' : Stream} {w w' : World}
  {o : Outcome Item}

/-- What a step of a search comes to, given the item that the input has reported and the input after it. -/
inductive Judged (position : Option Nat) (first : Option Bool) (s' : Stream) :
    Option Item → Outcome Item × Stream → Prop where
  | skipped : Judged position first s' none (.skip, .run (.truth position first s'))
  | suspended (d : DeferredId) : Judged position first s' none (.suspended d, .run (.truth position first s'))
  /-- The truth value of the first item is known, but another one may follow. -/
  | provisional {v : Atomic} {b : Bool} (isFirst : first = none) (truth : v.predicateTruth position = .ok b) :
      Judged position first s' (some (.atomic v)) (.skip, .run (.truth position (some b) s'))
  | found (x? : Option Item) (b : Bool) : Judged position first s' x? (.item (.ofBool b), .run (.spent s'))
  | failed (x? : Option Item) (e : Error) : Judged position first s' x? (.failed e, .failed e)

/-- The cursor of a search takes the steps of the search, in any engine. -/
theorem streamStep_judging (s : Stream) (w : World) : streamStep env E (.run (.truth position first s)) w =
    (let r := Step.judging env.forest position (streamStep env E) (.inl (first, s)) w
    (StreamOf.settle (r.1.1, Cursor.judging position r.1.2), r.2)) := by
  rcases hr : Step.truth env.forest position first (streamStep env E s) w with ⟨⟨o, ⟨first', s'⟩ | s'⟩, w'⟩ <;>
  · simp only [StreamOf.run, streamStep, statusStep, Cursor.step, Step.judging, bind, StateT.bind, hr]
    rfl

variable (position first) in
/-- A step of a search is a pull of its input. -/
theorem streamStep_judged (h : streamStep env E s w = ((o, s'), w')) :
    ∃ r, streamStep env E (.run (.truth position first s)) w = (r, w') ∧ Judged position first s' o.item? r := by
  rw [streamStep_judging]
  cases o with
  | skip =>
    rw [Step.judging_pass h nofun nofun]
    exact ⟨_, rfl, .skipped⟩
  | suspended d =>
    rw [Step.judging_pass h nofun nofun]
    exact ⟨_, rfl, .suspended d⟩
  | failed e =>
    rw [Step.judging_pass h nofun nofun]
    exact ⟨_, rfl, .failed none e⟩
  | done =>
    rw [Step.judging_done h]
    exact ⟨_, rfl, .found none _⟩
  | item x =>
    cases first with
    | some b =>
      rw [Step.judging_second h]
      exact ⟨_, rfl, .failed (some x) _⟩
    | none =>
      cases x with
      | node n =>
        rw [Step.judging_node h]
        exact ⟨_, rfl, .found (some _) true⟩
      | atomic v =>
        cases hv : v.predicateTruth position with
        | ok b =>
          rw [Step.judging_atomic h hv]
          exact ⟨_, rfl, .provisional rfl hv⟩
        | error e =>
          rw [Step.judging_error h hv]
          exact ⟨_, rfl, .failed (some _) e⟩
      | map | array | function =>
        rw [Step.judging_other h (fun _ h => by cases h) fun _ h => by cases h]
        exact ⟨_, rfl, .failed (some _) _⟩

/-! ### What a search pulls -/

/-- When a search has found a truth value, it leaves the world alone. -/
theorem play_spent (s : Stream) (moves : List (World → World)) (w : World) :
    (play (streamStep env E) moves (.run (.spent s)) w).2.2 = moves.foldl (fun w m => m w) w := by
  cases moves with
  | nil => rfl
  | cons m moves => exact play_of_over (t := .empty) (fun _ => ⟨.done, rfl⟩) moves (m w)

/-- Whether items may come without ending a search: none but one that is atomic and has a truth value. -/
def IsProvisional (position : Option Nat) : Option Bool → List Item → Prop
  | some _, xs => xs = []
  | none, xs => xs = [] ∨ ∃ v b, xs = [.atomic v] ∧ v.predicateTruth position = .ok b

/-- A search pulls its input until it knows enough. -/
theorem truth_pullsWhile (position : Option Nat) (first : Option Bool) (s : Stream) (moves : List (World → World))
    (w : World) : PullsWhile env E (IsProvisional position first) (.run (.truth position first s)) s moves w := by
  have hnil (first : Option Bool) : IsProvisional position first [] := by
    cases first with
    | none => exact .inl rfl
    | some b => rfl
  induction moves generalizing first s w with
  | nil => exact .never rfl
  | cons move moves ih =>
    rcases hs : streamStep env E s (move w) with ⟨⟨o, s'⟩, w'⟩
    obtain ⟨r, hr, hjudged⟩ := streamStep_judged position first hs
    generalize hx : o.item? = x? at hjudged
    cases hjudged with
    | skipped => exact .cons hs hr (hnil first) (fun xs h => by rw [hx]; exact h) (ih first s' w')
    | suspended d => exact .cons hs hr (hnil first) (fun xs h => by rw [hx]; exact h) (ih first s' w')
    | @provisional v b hfirst hb =>
      subst hfirst
      refine .cons hs hr (hnil none) (fun xs h => ?_) (ih (some b) s' w')
      obtain rfl : xs = [] := h
      exact .inr ⟨v, b, by rw [hx]; rfl, hb⟩
    | found _ b => exact .last hs hr (hnil first) (play_spent s' moves w')
    | failed _ e => exact .last hs hr (hnil first) (play_of_over (fun _ => ⟨.failed e, rfl⟩) moves w')

/-! ### What is made of a truth value -/

/-- Streams of what was made of a single item. The functions that made it do not matter any more. -/
inductive Committed : Stream → Stream → Prop where
  | inside (f f' : Expander) (s t : Stream) :
      Committed (.run (.inner f (.run (.spent s)) t)) (.run (.inner f' (.run (.spent s)) t))
  | after (f f' : Expander) (s : Stream) :
      Committed (.run (.outer f (.run (.spent s)))) (.run (.outer f' (.run (.spent s))))
  | same (s : Stream) : Committed s s

variable (env E) in
/-- Once the truth value is there, the streams are the same. -/
private theorem committed_step {t t' : Stream} (h : Committed t t') (w : World) :
    (streamStep env E t w).1.1 = (streamStep env E t' w).1.1 ∧
      Committed (streamStep env E t w).1.2 (streamStep env E t' w).1.2 ∧
      (streamStep env E t w).2 = (streamStep env E t' w).2 := by
  cases h with
  | same => exact ⟨rfl, .same _, rfl⟩
  | after f f' s => exact ⟨rfl, .same .empty, rfl⟩
  | inside f f' s t =>
    rcases ht : streamStep env E t w with ⟨⟨o, t'⟩, w'⟩
    simp only [StreamOf.run, streamStep, statusStep, Cursor.step, Step.inner, bind, StateT.bind, ht]
    cases o with
    | item | suspended | skip => exact ⟨rfl, .inside f f' s t', rfl⟩
    | done => exact ⟨rfl, .after f f' s, rfl⟩
    | failed e => exact ⟨rfl, .same (.failed e), rfl⟩

/-- Two streams show the same along a schedule and do the same to the world. -/
def SamePlay (env : Environment) (E : Engine) (moves : List (World → World)) (t t' : Stream) (w : World) : Prop :=
  (play (streamStep env E) moves t w).1 = (play (streamStep env E) moves t' w).1 ∧
    (play (streamStep env E) moves t w).2.2 = (play (streamStep env E) moves t' w).2.2

/-- One move and then the others. -/
private theorem SamePlay.cons {t t' u u' : Stream} {move : World → World} {moves : List (World → World)}
    (ht : streamStep env E t (move w) = ((o, u), w')) (ht' : streamStep env E t' (move w) = ((o, u'), w'))
    (h : SamePlay env E moves u u' w') : SamePlay env E (move :: moves) t t' w := by
  simp only [SamePlay, play, ht, ht']
  exact ⟨congrArg (o :: ·) h.1, h.2⟩

/-- So they are along every schedule. -/
private theorem Committed.samePlay {t t' : Stream} (h : Committed t t') (moves : List (World → World)) (w : World) :
    SamePlay env E moves t t' w := by
  induction moves generalizing t t' w with
  | nil => exact ⟨rfl, rfl⟩
  | cons m moves ih =>
    obtain ⟨ho, h', hw⟩ := committed_step env E h (m w)
    have ht' : streamStep env E t' (m w) =
        (((streamStep env E t (m w)).1.1, (streamStep env E t' (m w)).1.2), (streamStep env E t (m w)).2) :=
      Prod.ext (Prod.ext ho.symm rfl) hw.symm
    exact .cons rfl ht' (ih h' _)

variable {f f' : Expander} {t t' : Stream}

/-- Before the truth value comes, the function is not used. -/
private theorem streamStep_outer (h : streamStep env E t w = ((o, t'), w')) (ho : o.item? = none) :
    streamStep env E (t.flatMap f) w = ((o, ⟨[], StreamOf.statusAfter o (.outer f t')⟩), w') := by
  simp only [Stream.flatMap, StreamOf.run, streamStep, statusStep, Cursor.step, Step.outer, bind, StateT.bind, h]
  cases o with
  | item x => cases ho
  | done | failed | suspended | skip => rfl

/-- The truth value is given to the function. -/
private theorem streamStep_outer_item {x : Item} {result : Except Error Stream} {w₁ : World}
    (h : streamStep env E t w = ((.item x, t'), w')) (hf : Expander.apply env E f x w' = ((result, f'), w₁)) :
    streamStep env E (t.flatMap f) w = (match result with
      | .ok u => ((.skip, .run (.inner f' t' u)), w₁)
      | .error e => ((.failed e, .failed e), w₁)) := by
  simp only [Stream.flatMap, StreamOf.run, streamStep, statusStep, Cursor.step, Step.outer, bind, StateT.bind, h, hf]
  cases result <;> rfl

variable (env E) in
/-- Two functions make the same of an item, and do the same to the world. -/
def SameAt (f f' : Expander) (x : Item) : Prop :=
  ∀ w, (Expander.apply env E f x w).1.1 = (Expander.apply env E f' x w).1.1 ∧
    (Expander.apply env E f x w).2 = (Expander.apply env E f' x w).2

variable (f f') in
/-- Functions that make the same of the truth value that is found along a schedule cannot be told apart. -/
theorem truth_flatMap_samePlay (position : Option Nat) (first : Option Bool) (s : Stream)
    (moves : List (World → World)) (w : World)
    (h : ∀ x, .item x ∈ (play (streamStep env E) moves (.run (.truth position first s)) w).1 → SameAt env E f f' x) :
    SamePlay env E moves (Stream.flatMap f (.run (.truth position first s)))
      (Stream.flatMap f' (.run (.truth position first s))) w := by
  induction moves generalizing first s w with
  | nil => exact ⟨rfl, rfl⟩
  | cons m moves ih =>
    rcases hs : streamStep env E s (m w) with ⟨⟨o, s'⟩, w'⟩
    obtain ⟨r, hr, hjudged⟩ := streamStep_judged position first hs
    simp only [play, hr, List.mem_cons] at h
    generalize o.item? = x? at hjudged
    cases hjudged with
    | skipped =>
      exact .cons (streamStep_outer hr rfl) (streamStep_outer hr rfl) (ih first s' w' fun x hx => h x (.inr hx))
    | suspended d =>
      exact .cons (streamStep_outer hr rfl) (streamStep_outer hr rfl) (ih first s' w' fun x hx => h x (.inr hx))
    | provisional hfirst hb =>
      exact .cons (streamStep_outer hr rfl) (streamStep_outer hr rfl) (ih _ s' w' fun x hx => h x (.inr hx))
    | failed _ e =>
      exact .cons (streamStep_outer hr rfl) (streamStep_outer hr rfl) ((Committed.same _).samePlay moves w')
    | found _ b =>
      obtain ⟨hresult, hworld⟩ := h _ (.inl rfl) w'
      rcases hf : Expander.apply env E f (.ofBool b) w' with ⟨⟨result, g⟩, w₁⟩
      rcases hf' : Expander.apply env E f' (.ofBool b) w' with ⟨⟨result', g'⟩, w₁'⟩
      rw [hf, hf'] at hresult hworld
      obtain rfl : result = result' := hresult
      obtain rfl : w₁ = w₁' := hworld
      have hstep := streamStep_outer_item hr hf
      have hstep' := streamStep_outer_item hr hf'
      cases result with
      | ok u => exact .cons hstep hstep' ((Committed.inside g g' s' u).samePlay moves w₁)
      | error e => exact .cons hstep hstep' ((Committed.same _).samePlay moves w₁)

end

end LazyXPath
