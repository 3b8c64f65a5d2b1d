import LazyXPath.Proofs.Run
import Mathlib.Data.List.Forall2

/-!
# Runs of combinators

Every combinator that reads its inputs in order acts on runs as a function on lists does: `Run.map`,
`Run.filter`, `Run.take`, `Run.expand`, `Run.collect`, `Run.concat` and `Run.flatMap`. The theorems of
this module say that the steps of a combinator have the run that this function gives, whatever the
inputs, the callbacks and the schedule are.

The state of a combinator is kept beside the states of its inputs; `Step.mapping` and its companions
are the steps as functions of the whole state. Callbacks have a state of their own and may fail. What
they do to the world has to be something that a pull may do (`Frame.Answers`, `Frame.Gives`).
-/

namespace LazyXPath

variable {W α β γ σ τ : Type}

/-! ### Functions of runs -/

namespace Run

/-- A run with items in front. -/
def prepend (xs : List α) (r : Run α) : Run α := ⟨xs ++ r.items, r.tail⟩

/-- One run after another: the second one begins if the first one comes to its end. -/
def append (a b : Run α) : Run α :=
  match a.tail with
  | .done => b.prepend a.items
  | _ => a

/-- The items of a run after a function that has a state and may fail. -/
def mapItems (φ : γ → α → Except Error β × γ) (t : Tail) : γ → List α → Run β
  | _, [] => ⟨[], t⟩
  | g, x :: xs =>
    match φ g x with
    | (.ok y, g) => (mapItems φ t g xs).prepend [y]
    | (.error e, _) => ⟨[], .failed e⟩

/-- A run after a function, up to the first failure of the function. -/
def map (φ : γ → α → Except Error β × γ) (g : γ) (r : Run α) : Run β := mapItems φ r.tail g r.items

/-- The items of a run that pass a test that has a state and may fail. -/
def filterItems (φ : γ → α → Except Error Bool × γ) (t : Tail) : γ → List α → Run α
  | _, [] => ⟨[], t⟩
  | g, x :: xs =>
    match φ g x with
    | (.ok true, g) => (filterItems φ t g xs).prepend [x]
    | (.ok false, g) => filterItems φ t g xs
    | (.error e, _) => ⟨[], .failed e⟩

/-- What passes a test, up to the first failure of the test. -/
def filter (φ : γ → α → Except Error Bool × γ) (g : γ) (r : Run α) : Run α :=
  filterItems φ r.tail g r.items

/-- The first `n` items. If there are so many, nothing else of the run matters. -/
def take (n : Nat) (r : Run α) : Run α :=
  if n ≤ r.items.length then ⟨r.items.take n, .done⟩ else r

/-- The items of a run, each replaced by several items. -/
def expandItems (f : α → Except Error (List β)) (t : Tail) : List α → Run β
  | [] => ⟨[], t⟩
  | x :: xs =>
    match f x with
    | .ok ys => (expandItems f t xs).prepend ys
    | .error e => ⟨[], .failed e⟩

/-- A run with each item replaced by several items, up to the first failure. -/
def expand (f : α → Except Error (List β)) (r : Run α) : Run β := expandItems f r.tail r.items

/-- The run of a list or of an error. -/
def ofExcept : Except Error (List α) → Run α
  | .ok xs => complete xs
  | .error e => ⟨[], .failed e⟩

/-- What a function makes of all items, or else the error after them. -/
def collect (φ : List α → Except Error (List β)) (r : Run α) : Run β :=
  match r.tail with
  | .done => ofExcept (φ r.items)
  | t => ⟨[], t⟩

/-- Several runs one after the other, up to the first error. -/
def concat : List (Run α) → Run α
  | [] => complete []
  | r :: rs => r.append (concat rs)

/-- The items of a run, each replaced by a run. -/
def flatMapItems (φ : γ → α → Run β × γ) (t : Tail) : γ → List α → Run β
  | _, [] => ⟨[], t⟩
  | g, x :: xs => (φ g x).1.append (flatMapItems φ t (φ g x).2 xs)

/-- The runs that a function makes of the items, one after the other and up to the first error. -/
def flatMap (φ : γ → α → Run β × γ) (g : γ) (r : Run α) : Run β := flatMapItems φ r.tail g r.items

@[simp]
theorem prepend_nil (r : Run α) : r.prepend [] = r := rfl

/-- The first run comes out before the second one is looked at. -/
theorem append_cons (x : α) (xs : List α) (t : Tail) (b : Run α) :
    append ⟨x :: xs, t⟩ b = (append ⟨xs, t⟩ b).prepend [x] := by
  cases t <;> rfl

/-- Behind nothing stands the second run alone. -/
@[simp]
theorem append_done (b : Run α) : append ⟨[], .done⟩ b = b := rfl

private theorem take_zero (r : Run α) : r.take 0 = ⟨[], .done⟩ := by
  simp [take]

/-- Where items are missing, the tail of the run is what comes. -/
private theorem take_succ_nil (n : Nat) (t : Tail) : (⟨[], t⟩ : Run α).take (n + 1) = ⟨[], t⟩ := by
  simp [take]

/-- The first items are taken off one by one. -/
theorem take_succ_cons (n : Nat) (x : α) (xs : List α) (t : Tail) :
    (⟨x :: xs, t⟩ : Run α).take (n + 1) = ((⟨xs, t⟩ : Run α).take n).prepend [x] := by
  by_cases h : n ≤ xs.length
  · simp [take, prepend, h]
  · simp [take, prepend, h]

end Run

/-! ### Steps as functions of the whole state -/

namespace Step

/-- A step of the items after a function. -/
def mapping (f : γ → α → StateM W (Except Error β × γ)) (pull : σ → Pull W α σ) (c : γ × σ) :
    Pull W β (γ × σ) :=
  map f c.1 (pull c.2)

/-- A step of the items that pass a test. -/
def filtering (f : γ → α → StateM W (Except Error Bool × γ)) (pull : σ → Pull W α σ) (c : γ × σ) :
    Pull W α (γ × σ) :=
  filter f c.1 (pull c.2)

/-- A step of the first items. -/
def taking (pull : σ → Pull W α σ) (c : Nat × σ) : Pull W α (Nat × σ) := take c.1 c.2 (pull c.2)

/-- A step of the items each replaced by several items. -/
def expanding (f : α → Except Error (List β)) (pull : σ → Pull W α σ) (c : List β × σ) :
    Pull W β (List β × σ) :=
  expand f c.1 c.2 (pull c.2)

/-- A step of what a function makes of all items. -/
def collecting (f : List α → StateM W (Except Error (List β))) (pull : σ → Pull W α σ) :
    List α × σ ⊕ List β → StateM W (Outcome β × (List α × σ ⊕ List β))
  | .inl (seen, s) => collect f seen (pull s)
  | .inr ys => pure ((emit ys).1, .inr (emit ys).2)

/-- A step of several sequences one after the other. -/
def joining (pull : σ → Pull W α σ) : List σ → StateM W (Outcome α × List σ)
  | [] => pure (.done, [])
  | s :: rest => do
    let (o, s, rest) ← concat rest (pull s)
    return (o, s :: rest)

/-- A step of the sequences that a function makes of the items; the one that is being read is there. -/
def flattening (f : γ → α → StateM W (Except Error τ × γ)) (pull : σ → Pull W α σ)
    (pullInner : τ → Pull W β τ) : γ × σ × Option τ → StateM W (Outcome β × γ × σ × Option τ)
  | (g, s, none) => outer f g (pull s)
  | (g, s, some t) => do
    let (o, t) ← inner (pullInner t)
    return (o, g, s, t)

end Step

/-! ### Callbacks -/

namespace Frame

variable {F : Frame W} {ω ω' : F.Situation}

/-- A callback answers as a function does, from a situation on. -/
def Answers (F : Frame W) (ω : F.Situation) (f : α → StateM W β) (φ : α → β) : Prop :=
  ∀ x ω₁, F.rely ω ω₁ → ∃ ω₂, f x (F.world ω₁) = (φ x, F.world ω₂) ∧ F.guarantee ω₁ ω₂

/-- Callbacks that answer from a situation on do so from every later one. -/
private theorem Answers.later {f : α → StateM W β} {φ : α → β} (h : F.Answers ω f φ) (hω : F.rely ω ω') :
    F.Answers ω' f φ :=
  fun x ω₂ h₂ => h x ω₂ (F.rely_trans hω h₂)

/-- A callback has given a sequence with a run, or has failed as the run does. -/
def Yields (F : Frame W) (pull : τ → StateM W (Outcome β × τ)) (ω : F.Situation) (r : Run β) :
    Except Error τ → Prop
  | .ok t => Runs F pull ω t r
  | .error e => r.Next (.failed e) r

/-- A callback gives a sequence with a run, or fails as the run does, from a situation on. What else it
gives is in `out`. -/
def Gives {δ : Type} (F : Frame W) (pull : τ → StateM W (Outcome β × τ)) (ω : F.Situation)
    (f : StateM W δ) (out : Except Error τ → δ) (r : Run β) : Prop :=
  ∀ ω₁, F.rely ω ω₁ → ∃ a ω₂, f (F.world ω₁) = (out a, F.world ω₂) ∧ F.guarantee ω₁ ω₂ ∧
    F.Yields pull ω₂ r a

/-- A callback gives the runs of a function for the items of a list, as far as they are asked for. -/
def GivesEach (F : Frame W) (pull : τ → StateM W (Outcome β × τ)) (ω : F.Situation)
    (f : γ → α → StateM W (Except Error τ × γ)) (φ : γ → α → Run β × γ) : γ → List α → Prop
  | _, [] => True
  | g, x :: xs => F.Gives pull ω (f g x) (·, (φ g x).2) (φ g x).1 ∧
      ((φ g x).1.tail = .done → F.GivesEach pull ω f φ (φ g x).2 xs)

section

variable {pull : τ → StateM W (Outcome β × τ)} {f : γ → α → StateM W (Except Error τ × γ)}
  {φ : γ → α → Run β × γ}

/-- So do callbacks that give runs. -/
private theorem GivesEach.later {g : γ} {xs : List α} (h : F.GivesEach pull ω f φ g xs) (hω : F.rely ω ω') :
    F.GivesEach pull ω' f φ g xs := by
  induction xs generalizing g with
  | nil => trivial
  | cons x xs ih => exact ⟨fun ω₂ h₂ => h.1 ω₂ (F.rely_trans hω h₂), fun ht => ih (h.2 ht)⟩

/-- A callback that gives the right run for every item does so along every list. -/
theorem GivesEach.of_forall (h : ∀ g x, F.Gives pull ω (f g x) (·, (φ g x).2) (φ g x).1) (g : γ)
    (xs : List α) : F.GivesEach pull ω f φ g xs := by
  induction xs generalizing g with
  | nil => trivial
  | cons x xs ih => exact ⟨h g x, fun _ => ih (φ g x).2⟩

end

end Frame

/-! ### Reports that are passed on -/

namespace Outcome

/-- The split between the reports that combinators look into and those they pass on. -/
private theorem item_or_not (o : Outcome α) : (∃ x, o = .item x) ∨ ∀ x, o ≠ .item x := by
  cases o with
  | item x => exact .inl ⟨x, rfl⟩
  | done | suspended | failed | skip => exact .inr fun _ h => by cases h

/-- Passing on changes nothing but the type of the items. -/
theorem pass_eq_self {o : Outcome α} (ho : ∀ x, o ≠ .item x) : o.pass = o := by
  cases o with
  | item x => exact absurd rfl (ho x)
  | done | suspended | failed | skip => rfl

end Outcome

section

variable {F : Frame W} {pull : σ → StateM W (Outcome α × σ)} {ω ω' : F.Situation} {s s' : σ}
  {r r' : Run α} {w w' w'' : W} {o : Outcome α} {g g' : γ}

/-- A report other than an item is passed on unchanged, and a run goes on as it does. -/
theorem Frame.Obeys.pass {pull' : τ → StateM W (Outcome β × τ)} {e : γ → σ → τ}
    {H : F.Situation → γ → Run α → Prop} {R : γ → Run α → Run β}
    {Y X : F.Situation → σ → Run α → Prop} (hR : ∀ t, R g ⟨[], t⟩ = ⟨[], t⟩) (ho : ∀ x, o ≠ .item x)
    (hn : r.Next o r') (hp : pull' (e g s) (F.world ω) = ((o.pass, e g s'), F.world ω'))
    (hg : F.guarantee ω ω') (hH : H ω' g r) (hy : F.Advances ω o → Y ω' s' r')
    (hx : F.Waits ω o → X ω' s' r') :
    F.Obeys pull' (Runs.Reached F pull' e H R Y) (Runs.Reached F pull' e H R X) ω (e g s) (R g r) := by
  cases hn with
  | item x xs t => exact absurd rfl (ho x)
  | done => rw [hR]; exact .done hp hg
  | failed P e he => rw [hR]; exact .failed he hp hg
  | suspended r d =>
    exact .suspended hp hg (fun hs => .inr ⟨g, s', r, hH, hy hs, rfl, rfl⟩)
      fun hs => .inr ⟨g, s', r, hH, hx hs, rfl, rfl⟩
  | skip r => exact .skip hp hg (.inr ⟨g, s', r, hH, hy trivial, rfl, rfl⟩)

/-! ### Item by item -/

section Map

variable {f : γ → α → StateM W (Except Error β × γ)} {φ : γ → α → Except Error β × γ} {x : α} {y : β}
  {e : Error}

/-- A mapping passes on everything but items. -/
theorem Step.mapping_pass (h : pull s w = ((o, s'), w')) (ho : ∀ x, o ≠ .item x) :
    mapping f pull (g, s) w = ((o.pass, g, s'), w') := by
  cases o with
  | item x => exact absurd rfl (ho x)
  | done | suspended | failed | skip => simp only [mapping, map, bind, StateT.bind, h]; rfl

/-- An item that the callback takes is delivered as what it makes of it. -/
theorem Step.mapping_ok (h : pull s w = ((.item x, s'), w')) (hf : f g x w' = ((.ok y, g'), w'')) :
    mapping f pull (g, s) w = ((.item y, g', s'), w'') := by
  simp only [mapping, map, bind, StateT.bind, h, hf]
  rfl

/-- A failure of the callback is reported in place of the item. -/
theorem Step.mapping_error (h : pull s w = ((.item x, s'), w'))
    (hf : f g x w' = ((.error e, g'), w'')) : mapping f pull (g, s) w = ((.failed e, g', s'), w'') := by
  simp only [mapping, map, bind, StateT.bind, h, hf]
  rfl

/-- The items after a function run as the function of the run. -/
theorem mapping_runs (hf : ∀ g, F.Answers ω (f g) (φ g)) (h : Runs F pull ω s r) (g : γ) :
    Runs F (Step.mapping f pull) ω (g, s) (r.map φ g) := by
  refine .simulate (e := Prod.mk) (H := fun ω _ _ => ∀ g, F.Answers ω (f g) (φ g))
    (R := fun g r => r.map φ g) (fun ω g s _ => .unknown ω (g, s))
    (fun h₁ hf g => (hf g).later h₁) ?_ hf h
  intro Y X hY ω g s r hω hf h
  obtain ⟨o, s', ω', r', ⟨hp, hg⟩, hn, hy, hx⟩ := h
  have h' : F.rely ω ω' := F.rely_guarantee hω hg
  obtain ⟨x, rfl⟩ | ho := o.item_or_not
  · obtain ⟨ω₂, hc, hg₂⟩ := hf g x ω' h'
    have h₂ : F.rely ω' ω₂ := F.rely_of_guarantee hg₂
    cases hn with
    | item x xs t =>
      rcases hφ : φ g x with ⟨e | y, g'⟩ <;> rw [hφ] at hc
      · have hr : Run.map φ g ⟨x :: xs, t⟩ = ⟨[], .failed e⟩ := by simp only [Run.map, Run.mapItems, hφ]
        simp only [hr]
        exact .failed rfl (Step.mapping_error hp hc) (F.guarantee_trans hg hg₂)
      · have hr : Run.map φ g ⟨x :: xs, t⟩ = (Run.map φ g' ⟨xs, t⟩).prepend [y] := by
          simp only [Run.map, Run.mapItems, hφ]
        simp only [hr]
        refine .item (Step.mapping_ok hp hc) (F.guarantee_trans hg hg₂) (.inr ?_)
        exact ⟨g', s', ⟨xs, t⟩, fun g => (hf g).later (F.rely_trans h' h₂), hY h₂ (hy trivial), rfl, rfl⟩
  · exact .pass (fun t => rfl) ho hn (Step.mapping_pass hp ho) hg (fun g => (hf g).later h') hy hx

end Map

section Filter

variable {f : γ → α → StateM W (Except Error Bool × γ)} {φ : γ → α → Except Error Bool × γ} {x : α}
  {e : Error}

/-- A filter passes on everything but items. -/
theorem Step.filtering_pass (h : pull s w = ((o, s'), w')) (ho : ∀ x, o ≠ .item x) :
    filtering f pull (g, s) w = ((o.pass, g, s'), w') := by
  cases o with
  | item x => exact absurd rfl (ho x)
  | done | suspended | failed | skip => simp only [filtering, filter, bind, StateT.bind, h]; rfl

/-- An item is delivered or skipped, as the test says. -/
theorem Step.filtering_ok {b : Bool} (h : pull s w = ((.item x, s'), w'))
    (hf : f g x w' = ((.ok b, g'), w'')) :
    filtering f pull (g, s) w = ((if b then .item x else .skip, g', s'), w'') := by
  cases b <;> simp only [filtering, filter, bind, StateT.bind, h, hf] <;> rfl

/-- A failure of the test is reported in place of the item. -/
theorem Step.filtering_error (h : pull s w = ((.item x, s'), w'))
    (hf : f g x w' = ((.error e, g'), w'')) :
    filtering f pull (g, s) w = ((.failed e, g', s'), w'') := by
  simp only [filtering, filter, bind, StateT.bind, h, hf]
  rfl

/-- The items that pass a test run as what passes it of the run. -/
theorem filtering_runs (hf : ∀ g, F.Answers ω (f g) (φ g)) (h : Runs F pull ω s r) (g : γ) :
    Runs F (Step.filtering f pull) ω (g, s) (r.filter φ g) := by
  refine .simulate (e := Prod.mk) (H := fun ω _ _ => ∀ g, F.Answers ω (f g) (φ g))
    (R := fun g r => r.filter φ g) (fun ω g s _ => .unknown ω (g, s))
    (fun h₁ hf g => (hf g).later h₁) ?_ hf h
  intro Y X hY ω g s r hω hf h
  obtain ⟨o, s', ω', r', ⟨hp, hg⟩, hn, hy, hx⟩ := h
  have h' : F.rely ω ω' := F.rely_guarantee hω hg
  obtain ⟨x, rfl⟩ | ho := o.item_or_not
  · obtain ⟨ω₂, hc, hg₂⟩ := hf g x ω' h'
    have h₂ : F.rely ω' ω₂ := F.rely_of_guarantee hg₂
    have hf₂ : ∀ g, F.Answers ω₂ (f g) (φ g) := fun g => (hf g).later (F.rely_trans h' h₂)
    cases hn with
    | item x xs t =>
      have hs := hY h₂ (hy trivial)
      rcases hφ : φ g x with ⟨e | b, g'⟩ <;> rw [hφ] at hc
      · have hr : Run.filter φ g ⟨x :: xs, t⟩ = ⟨[], .failed e⟩ := by
          simp only [Run.filter, Run.filterItems, hφ]
        simp only [hr]
        exact .failed rfl (Step.filtering_error hp hc) (F.guarantee_trans hg hg₂)
      · have hp' := Step.filtering_ok hp hc
        cases b with
        | true =>
          have hr : Run.filter φ g ⟨x :: xs, t⟩ = (Run.filter φ g' ⟨xs, t⟩).prepend [x] := by
            simp only [Run.filter, Run.filterItems, hφ]
          simp only [hr]
          exact .item hp' (F.guarantee_trans hg hg₂) (.inr ⟨g', s', ⟨xs, t⟩, hf₂, hs, rfl, rfl⟩)
        | false =>
          have hr : Run.filter φ g ⟨x :: xs, t⟩ = Run.filter φ g' ⟨xs, t⟩ := by
            simp only [Run.filter, Run.filterItems, hφ]
          simp only [hr]
          exact .skip hp' (F.guarantee_trans hg hg₂) (.inr ⟨g', s', ⟨xs, t⟩, hf₂, hs, rfl, rfl⟩)
  · exact .pass (fun t => rfl) ho hn (Step.filtering_pass hp ho) hg (fun g => (hf g).later h') hy hx

end Filter

/-- Before the limit a bounded prefix passes everything on. -/
theorem Step.taking_pass {n : Nat} (h : pull s w = ((o, s'), w')) (ho : ∀ x, o ≠ .item x) :
    taking pull (n + 1, s) w = ((o.pass, n + 1, s'), w') := by
  cases o with
  | item x => exact absurd rfl (ho x)
  | done | suspended | failed | skip => simp only [taking, take, bind, StateT.bind, h]; rfl

/-- Each item counts. -/
theorem Step.taking_item {n : Nat} {x : α} (h : pull s w = ((.item x, s'), w')) :
    taking pull (n + 1, s) w = ((.item x, n, s'), w') := by
  simp only [taking, take, bind, StateT.bind, h]
  rfl

/-- At the limit there is nothing more, whatever the input has. -/
private theorem taking_zero_runs (ω : F.Situation) (s : σ) : Runs F (Step.taking pull) ω (0, s) ⟨[], .done⟩ :=
  .of_obeys fun _ h₁ => .done rfl (F.guarantee_idle h₁)

/-- The first items run as those of the run. -/
theorem taking_runs (h : Runs F pull ω s r) (n : Nat) :
    Runs F (Step.taking pull) ω (n, s) (r.take n) := by
  refine .simulate (e := Prod.mk) (H := fun _ _ _ => True) (R := fun n r => r.take n) ?_
    (fun _ _ => trivial) ?_ trivial h
  · intro ω n s _
    cases n with
    | zero => exact (Run.take_zero _).symm ▸ taking_zero_runs ω s
    | succ n => exact .unknown ω (n + 1, s)
  · intro Y X hY ω n s r hω _ h
    obtain ⟨o, s', ω', r', ⟨hp, hg⟩, hn, hy, hx⟩ := h
    cases n with
    | zero => rw [Run.take_zero]; exact .done rfl (F.guarantee_idle hω)
    | succ n =>
      obtain ⟨x, rfl⟩ | ho := o.item_or_not
      · cases hn with
        | item x xs t =>
          rw [Run.take_succ_cons]
          refine .item (Step.taking_item hp) hg (.inr ?_)
          exact ⟨n, s', ⟨xs, t⟩, trivial, hy trivial, rfl, rfl⟩
      · exact .pass (Run.take_succ_nil n) ho hn (Step.taking_pass hp ho) hg trivial hy hx

section Expand

variable {f : α → Except Error (List β)} {x : α} {e : Error}

/-- Without pending items an expansion passes on everything but items. -/
theorem Step.expanding_pass (h : pull s w = ((o, s'), w')) (ho : ∀ x, o ≠ .item x) :
    expanding f pull ([], s) w = ((o.pass, [], s'), w') := by
  cases o with
  | item x => exact absurd rfl (ho x)
  | done | suspended | failed | skip => simp only [expanding, expand, bind, StateT.bind, h]; rfl

/-- An item without replacement is skipped. -/
theorem Step.expanding_nil (h : pull s w = ((.item x, s'), w')) (hf : f x = .ok []) :
    expanding f pull ([], s) w = ((.skip, [], s'), w') := by
  simp only [expanding, expand, bind, StateT.bind, h, hf]
  rfl

/-- The first replacement of an item is delivered at once, the others are pending. -/
theorem Step.expanding_cons {y : β} {ys : List β} (h : pull s w = ((.item x, s'), w'))
    (hf : f x = .ok (y :: ys)) : expanding f pull ([], s) w = ((.item y, ys, s'), w') := by
  simp only [expanding, expand, bind, StateT.bind, h, hf]
  rfl

/-- A failure of the function is reported in place of the item. -/
private theorem Step.expanding_error (h : pull s w = ((.item x, s'), w')) (hf : f x = .error e) :
    expanding f pull ([], s) w = ((.failed e, [], s'), w') := by
  simp only [expanding, expand, bind, StateT.bind, h, hf]
  rfl

/-- Items that are pending are delivered first. -/
theorem expanding_proceeds {X : F.Situation → List β × σ → Run β → Prop} {r : Run β} (ys : List β)
    (h : ∀ ω₁, F.Since ω ω₁ → Proceeds F (Step.expanding f pull) X ω₁ ([], s) r) :
    Proceeds F (Step.expanding f pull) X ω (ys, s) (r.prepend ys) := by
  induction ys generalizing ω with
  | nil => exact h ω (.refl ω)
  | cons y ys ih =>
    refine .of_obeys fun ω₁ h₁ => .item rfl (F.guarantee_idle h₁) (ih fun ω₂ h₂ => ?_)
    exact h ω₂ (.of_rely h₁ h₂)

/-- The items each replaced by several items run as those of the run. -/
theorem expanding_runs (h : Runs F pull ω s r) :
    Runs F (Step.expanding f pull) ω ([], s) (r.expand f) := by
  refine .coinduction (fun ω c r' => ∃ r, Runs F pull ω c.2 r ∧ r' = (r.expand f).prepend c.1) ?_
    ⟨r, h, rfl⟩
  rintro ω ⟨ys, s⟩ _ ⟨r, h, rfl⟩
  refine expanding_proceeds ys ?_
  refine h.induction (P := fun ω s r => ∀ ω₁, F.Since ω ω₁ →
    Proceeds F (Step.expanding f pull) _ ω₁ ([], s) (r.expand f)) (fun _ s ω₁ _ => .unknown ω₁ ([], s)) ?_
  intro ω s r h ω₁ h₁
  refine .of_obeys fun ω₂ h₂ => ?_
  obtain ⟨o, s', ω', r', ⟨hp, hg⟩, hn, hy, hx⟩ := h ω₂ (h₁.rely h₂)
  cases hn with
  | item x xs t =>
    obtain ⟨-, ih⟩ := hy trivial
    rcases hf : f x with e | ys
    · have hr : Run.expand f ⟨x :: xs, t⟩ = ⟨[], .failed e⟩ := by
        simp only [Run.expand, Run.expandItems, hf]
      rw [hr]
      exact .failed rfl (Step.expanding_error hp hf) hg
    · have hr : Run.expand f ⟨x :: xs, t⟩ = (Run.expand f ⟨xs, t⟩).prepend ys := by
        simp only [Run.expand, Run.expandItems, hf]
      rw [hr]
      cases ys with
      | nil => exact .skip (Step.expanding_nil hp hf) hg (ih ω' (.refl ω'))
      | cons y ys => exact .item (Step.expanding_cons hp hf) hg (expanding_proceeds ys ih)
  | done => exact .done (Step.expanding_pass hp nofun) hg
  | failed P e he => exact .failed he (Step.expanding_pass hp nofun) hg
  | suspended r d =>
    exact .suspended (Step.expanding_pass hp nofun) hg (fun hs => (hy hs).2 ω' (.refl ω'))
      fun hs => ⟨r, hx hs, rfl⟩
  | skip r => exact .skip (Step.expanding_pass hp nofun) hg ((hy trivial).2 ω' (.refl ω'))

end Expand

/-! ### All items at once -/

section Collect

variable {f : List α → StateM W (Except Error (List β))} {φ : List α → Except Error (List β)}
  {seen : List α} {x : α} {e : Error}

/-- Items are put on the list of what has been seen, silently. -/
theorem Step.collecting_item (h : pull s w = ((.item x, s'), w')) :
    collecting f pull (.inl (seen, s)) w = ((.skip, .inl (x :: seen, s')), w') := by
  simp only [collecting, collect, bind, StateT.bind, h]
  rfl

/-- Suspensions and errors are passed on and leave the list as it is. -/
theorem Step.collecting_pass (h : pull s w = ((o, s'), w')) (ho : ∀ x, o ≠ .item x)
    (hd : o ≠ .done) : collecting f pull (.inl (seen, s)) w = ((o.pass, .inl (seen, s')), w') := by
  cases o with
  | item x => exact absurd rfl (ho x)
  | done => exact absurd rfl hd
  | suspended | failed | skip => simp only [collecting, collect, bind, StateT.bind, h]; rfl

/-- At the end of the input the callback is called once, with all items in order. -/
theorem Step.collecting_ok {ys : List β} (h : pull s w = ((.done, s'), w'))
    (hf : f seen.reverse w' = (.ok ys, w'')) :
    collecting f pull (.inl (seen, s)) w = ((.skip, .inr ys), w'') := by
  simp only [collecting, collect, bind, StateT.bind, h, hf]
  rfl

/-- If the callback fails, then at the end of the input; what has been seen is kept. -/
theorem Step.collecting_error (h : pull s w = ((.done, s'), w'))
    (hf : f seen.reverse w' = (.error e, w'')) :
    collecting f pull (.inl (seen, s)) w = ((.failed e, .inl (seen, s')), w'') := by
  simp only [collecting, collect, bind, StateT.bind, h, hf]
  rfl

/-- What the callback has given is delivered as a list. -/
private theorem collecting_emit_runs (ys : List β) (ω : F.Situation) :
    Runs F (Step.collecting f pull) ω (.inr ys) (.complete ys) := by
  induction ys generalizing ω with
  | nil => exact .of_obeys fun _ h₁ => .done rfl (F.guarantee_idle h₁)
  | cons y ys ih => exact .of_obeys fun ω₁ h₁ => .item rfl (F.guarantee_idle h₁) (ih ω₁)

/-- What a function makes of all items runs as what it makes of those of the run. -/
theorem collecting_runs (hf : F.Answers ω f φ) (h : Runs F pull ω s r) :
    Runs F (Step.collecting f pull) ω (.inl ([], s)) (r.collect φ) := by
  refine .simulate (e := fun (seen : List α) s => Sum.inl (seen, s)) (H := fun ω _ _ => F.Answers ω f φ)
    (R := fun seen r => (r.prepend seen.reverse).collect φ) (fun ω seen s _ => .unknown ω _)
    (fun h₁ hf => hf.later h₁) ?_ hf h
  intro Y X hY ω seen s r hω hf h
  obtain ⟨o, s', ω', r', ⟨hp, hg⟩, hn, hy, hx⟩ := h
  have h' : F.rely ω ω' := F.rely_guarantee hω hg
  cases hn with
  | item x xs t =>
    have hr : (⟨x :: xs, t⟩ : Run α).prepend seen.reverse = .prepend (x :: seen).reverse ⟨xs, t⟩ := by
      simp [Run.prepend]
    simp only [hr]
    refine .skip (Step.collecting_item hp) hg (.inr ?_)
    exact ⟨x :: seen, s', ⟨xs, t⟩, hf.later h', hy trivial, rfl, rfl⟩
  | done =>
    obtain ⟨ω₂, hc, hg₂⟩ := hf seen.reverse ω' h'
    have hr : ((⟨[], .done⟩ : Run α).prepend seen.reverse).collect φ = .ofExcept (φ seen.reverse) := by
      simp [Run.prepend, Run.collect]
    simp only [hr]
    rcases hφ : φ seen.reverse with e | ys <;> rw [hφ] at hc
    · exact .failed rfl (Step.collecting_error hp hc) (F.guarantee_trans hg hg₂)
    · exact .skip (Step.collecting_ok hp hc) (F.guarantee_trans hg hg₂)
        (.inl (collecting_emit_runs ys ω₂))
  | failed P e he => exact .failed he (Step.collecting_pass hp nofun nofun) hg
  | suspended r d =>
    exact .suspended (Step.collecting_pass hp nofun nofun) hg
      (fun hs => .inr ⟨seen, s', r, hf.later h', hy hs, rfl, rfl⟩)
      fun hs => .inr ⟨seen, s', r, hf.later h', hx hs, rfl, rfl⟩
  | skip r =>
    refine .skip (Step.collecting_pass hp nofun nofun) hg (.inr ?_)
    exact ⟨seen, s', r, hf.later h', hy trivial, rfl, rfl⟩

end Collect

/-! ### Sequences of sequences -/

section Concat

variable {rest : List σ}

/-- A concatenation passes on everything but the end of its first sequence. -/
theorem Step.joining_pass (h : pull s w = ((o, s'), w')) (ho : o ≠ .done) :
    joining pull (s :: rest) w = ((o, s' :: rest), w') := by
  cases o with
  | done => exact absurd rfl ho
  | item | suspended | failed | skip =>
    simp only [joining, concat, bind, StateT.bind, h]; rfl

/-- At the end of the first sequence the next one takes its place. -/
theorem Step.joining_next {t : σ} (h : pull s w = ((.done, s'), w')) :
    joining pull (s :: t :: rest) w = ((.skip, t :: rest), w') := by
  simp only [joining, concat, bind, StateT.bind, h]
  rfl

/-- The end of the last sequence is the end. -/
theorem Step.joining_last (h : pull s w = ((.done, s'), w')) :
    joining pull [s] w = ((.done, [s']), w') := by
  simp only [joining, concat, bind, StateT.bind, h]
  rfl

/-- Several sequences one after the other run as their runs do. -/
theorem joining_runs {ss : List σ} {rs : List (Run α)} (h : List.Forall₂ (Runs F pull ω) ss rs) :
    Runs F (Step.joining pull) ω ss (Run.concat rs) := by
  induction h with
  | nil => exact .of_obeys fun _ h₁ => .done rfl (F.guarantee_idle h₁)
  | @cons s r ss rs h hs ih =>
    refine .simulate (e := fun (_ : Unit) s => s :: ss) (R := fun _ r => r.append (Run.concat rs))
      (H := fun ω _ _ => Runs F (Step.joining pull) ω ss (Run.concat rs)) (fun ω _ s _ => .unknown ω _)
      (fun h₁ ih => ih.later h₁) ?_ (g := ()) ih h
    intro Y X hY ω _ s r hω ih h
    obtain ⟨o, s', ω', r', ⟨hp, hg⟩, hn, hy, hx⟩ := h
    have ih' := ih.later (F.rely_guarantee hω hg)
    cases hn with
    | item x xs t =>
      simp only [Run.append_cons]
      refine .item (Step.joining_pass hp nofun) hg (.inr ?_)
      exact ⟨(), s', ⟨xs, t⟩, ih', hy trivial, rfl, rfl⟩
    | done =>
      cases hs with
      | nil => exact .done (Step.joining_last hp) hg
      | cons h₂ hs => exact .skip (Step.joining_next hp) hg (.inl ih')
    | failed P e he => exact .failed he (Step.joining_pass hp nofun) hg
    | suspended r d =>
      exact .suspended (Step.joining_pass hp nofun) hg
        (fun hs => .inr ⟨(), s', r, ih', hy hs, rfl, rfl⟩)
        fun hs => .inr ⟨(), s', r, ih', hx hs, rfl, rfl⟩
    | skip r =>
      refine .skip (Step.joining_pass hp nofun) hg (.inr ?_)
      exact ⟨(), s', r, ih', hy trivial, rfl, rfl⟩

end Concat

section FlatMap

variable {f : γ → α → StateM W (Except Error τ × γ)} {φ : γ → α → Run β × γ}
  {pullInner : τ → StateM W (Outcome β × τ)} {t t' : τ} {x : α} {e : Error}

/-- Between two inner sequences everything but items of the outer one is passed on. -/
theorem Step.flattening_outer (h : pull s w = ((o, s'), w')) (ho : ∀ x, o ≠ .item x) :
    flattening f pull pullInner (g, s, none) w = ((o.pass, g, s', none), w') := by
  cases o with
  | item x => exact absurd rfl (ho x)
  | done | suspended | failed | skip => simp only [flattening, outer, bind, StateT.bind, h]; rfl

/-- An item of the outer sequence opens an inner one, silently. -/
theorem Step.flattening_ok (h : pull s w = ((.item x, s'), w')) (hf : f g x w' = ((.ok t, g'), w'')) :
    flattening f pull pullInner (g, s, none) w = ((.skip, g', s', some t), w'') := by
  simp only [flattening, outer, bind, StateT.bind, h, hf]
  rfl

/-- A failure to open an inner sequence is reported in place of it. -/
theorem Step.flattening_error (h : pull s w = ((.item x, s'), w'))
    (hf : f g x w' = ((.error e, g'), w'')) :
    flattening f pull pullInner (g, s, none) w = ((.failed e, g', s', none), w'') := by
  simp only [flattening, outer, bind, StateT.bind, h, hf]
  rfl

/-- Inside an inner sequence the outer one is not touched. -/
theorem Step.flattening_inner {o : Outcome β} (h : pullInner t w = ((o, t'), w')) (ho : o ≠ .done) :
    flattening f pull pullInner (g, s, some t) w = ((o, g, s, some t'), w') := by
  cases o with
  | done => exact absurd rfl ho
  | item | suspended | failed | skip =>
    simp only [flattening, inner, bind, StateT.bind, h]; rfl

/-- The end of an inner sequence leads back to the outer one. -/
theorem Step.flattening_done (h : pullInner t w = ((.done, t'), w')) :
    flattening f pull pullInner (g, s, some t) w = ((.skip, g, s, none), w') := by
  simp only [flattening, inner, bind, StateT.bind, h]
  rfl

/-- An inner sequence runs as it does, and what there is after it begins if it comes to its end. -/
theorem flattening_inner_proceeds {X : F.Situation → γ × σ × Option τ → Run β → Prop} {r b : Run β}
    (h : Runs F pullInner ω t r)
    (hb : r.tail = .done → ∀ ω₁, F.Since ω ω₁ →
      Proceeds F (Step.flattening f pull pullInner) X ω₁ (g, s, none) b)
    (hX : ∀ ω₁ t r', F.rely ω ω₁ → Runs F pullInner ω₁ t r' → r'.tail = r.tail →
      X ω₁ (g, s, some t) (r'.append b)) :
    Proceeds F (Step.flattening f pull pullInner) X ω (g, s, some t) (r.append b) := by
  refine h.induction (P := fun ω t r => (r.tail = .done → ∀ ω₁, F.Since ω ω₁ →
      Proceeds F (Step.flattening f pull pullInner) X ω₁ (g, s, none) b) →
    (∀ ω₁ t r', F.rely ω ω₁ → Runs F pullInner ω₁ t r' → r'.tail = r.tail →
      X ω₁ (g, s, some t) (r'.append b)) →
    Proceeds F (Step.flattening f pull pullInner) X ω (g, s, some t) (r.append b))
    (fun ω t _ _ => .unknown ω _) ?_ hb hX
  intro ω t r h hb hX
  refine .of_obeys fun ω₁ h₁ => ?_
  obtain ⟨o, t', ω', r', ⟨hp, hg⟩, hn, hy, hx⟩ := h ω₁ h₁
  have h' : F.rely ω ω' := F.rely_guarantee h₁ hg
  have hb' : r.tail = .done → ∀ ω₂, F.Since ω' ω₂ →
      Proceeds F (Step.flattening f pull pullInner) X ω₂ (g, s, none) b :=
    fun ht ω₂ h₂ => hb ht ω₂ (.of_rely h' h₂)
  cases hn with
  | item x xs t =>
    rw [Run.append_cons]
    refine .item (Step.flattening_inner hp nofun) hg ((hy trivial).2 hb' ?_)
    exact fun ω₂ t r' h₂ => hX ω₂ t r' (F.rely_trans h' h₂)
  | done => exact .skip (Step.flattening_done hp) hg (hb' rfl ω' (.refl ω'))
  | failed P e he => exact .failed he (Step.flattening_inner hp nofun) hg
  | suspended r d =>
    refine .suspended (Step.flattening_inner hp nofun) hg (fun hs => (hy hs).2 hb' ?_)
      fun hs => hX ω' t' r h' (hx hs) rfl
    exact fun ω₂ t r' h₂ => hX ω₂ t r' (F.rely_trans h' h₂)
  | skip r =>
    refine .skip (Step.flattening_inner hp nofun) hg ((hy trivial).2 hb' ?_)
    exact fun ω₂ t r' h₂ => hX ω₂ t r' (F.rely_trans h' h₂)

variable (F pull f φ pullInner) in
/-- The state between two inner sequences, from which a run follows. -/
def FlatOuter (ω : F.Situation) (g : γ) (s : σ) (b : Run β) : Prop :=
  ∃ r, Runs F pull ω s r ∧ F.GivesEach pullInner ω f φ g r.items ∧ b = r.flatMap φ g

variable (F pull f φ pullInner) in
/-- The states of reading sequences made from items. Inside an inner sequence, the rest matters only if
that sequence comes to its end. -/
def Flat (ω : F.Situation) : γ × σ × Option τ → Run β → Prop
  | (g, s, none), b => FlatOuter F pull f φ pullInner ω g s b
  | (g, s, some t), b' => ∃ r b, Runs F pullInner ω t r ∧ b' = r.append b ∧
      (r.tail = .done → FlatOuter F pull f φ pullInner ω g s b)

/-- The state between two inner sequences is kept by changes of the world. -/
private theorem FlatOuter.later {b : Run β} (h : FlatOuter F pull f φ pullInner ω g s b) (hω : F.rely ω ω') :
    FlatOuter F pull f φ pullInner ω' g s b := by
  obtain ⟨r, h, hf, hb⟩ := h
  exact ⟨r, h.later hω, hf.later hω, hb⟩

/-- Inside an inner sequence, the reading proceeds if it does so after that sequence. -/
theorem flat_inner_proceeds {r b : Run β} (h : Runs F pullInner ω t r)
    (hb : r.tail = .done → FlatOuter F pull f φ pullInner ω g s b)
    (hp : r.tail = .done → ∀ ω₁, F.Since ω ω₁ → Proceeds F (Step.flattening f pull pullInner)
      (Flat F pull f φ pullInner) ω₁ (g, s, none) b) :
    Proceeds F (Step.flattening f pull pullInner) (Flat F pull f φ pullInner) ω (g, s, some t)
      (r.append b) := by
  refine flattening_inner_proceeds h hp fun ω₁ t r' h₁ h' ht => ?_
  exact ⟨r', b, h', rfl, fun hd => (hb (ht ▸ hd)).later h₁⟩

/-- Between two inner sequences, the reading proceeds. The induction is on the run of the outer sequence. -/
private theorem FlatOuter.proceeds {b : Run β} (h : FlatOuter F pull f φ pullInner ω g s b) :
    ∀ ω₁, F.Since ω ω₁ → Proceeds F (Step.flattening f pull pullInner) (Flat F pull f φ pullInner) ω₁
      (g, s, none) b := by
  obtain ⟨r, h, hf, rfl⟩ := h
  refine h.induction (P := fun ω s r => ∀ g, F.GivesEach pullInner ω f φ g r.items → ∀ ω₁,
    F.Since ω ω₁ → Proceeds F (Step.flattening f pull pullInner) (Flat F pull f φ pullInner) ω₁
      (g, s, none) (r.flatMap φ g)) (fun _ _ g _ ω₁ _ => .unknown ω₁ _) ?_ g hf
  intro ω s r h g hf ω₁ h₁
  refine .of_obeys fun ω₂ h₂ => ?_
  have h₂ : F.rely ω ω₂ := h₁.rely h₂
  obtain ⟨o, s', ω', r', ⟨hp, hg⟩, hn, hy, hx⟩ := h ω₂ h₂
  have h' : F.rely ω ω' := F.rely_guarantee h₂ hg
  cases hn with
  | item x xs t =>
    obtain ⟨hs, ih⟩ := hy trivial
    obtain ⟨hx, hxs⟩ := hf
    obtain ⟨a, ω₃, hc, hg₃, ha⟩ := hx ω' h'
    have h₃ : F.rely ω' ω₃ := F.rely_of_guarantee hg₃
    have hr : Run.flatMap φ g ⟨x :: xs, t⟩ = (φ g x).1.append (Run.flatMap φ (φ g x).2 ⟨xs, t⟩) := rfl
    rw [hr]
    cases a with
    | ok t =>
      refine .skip (Step.flattening_ok hp hc) (F.guarantee_trans hg hg₃) (flat_inner_proceeds ha ?_ ?_)
      · exact fun ht => ⟨_, hs.later h₃, (hxs ht).later (F.rely_trans h' h₃), rfl⟩
      · exact fun ht ω₄ h₄ => ih _ ((hxs ht).later h') ω₄ (.of_rely h₃ h₄)
    | error e =>
      have hp' : Step.flattening f pull pullInner (g, s, none) (F.world ω₂) = _ :=
        Step.flattening_error hp hc
      generalize (φ g x).1 = ri at ha
      cases ha with
      | failed P e he => exact .failed he hp' (F.guarantee_trans hg hg₃)
  | done => exact .done (Step.flattening_outer hp nofun) hg
  | failed P e he => exact .failed he (Step.flattening_outer hp nofun) hg
  | suspended r d =>
    exact .suspended (Step.flattening_outer hp nofun) hg
      (fun hs => (hy hs).2 g (hf.later h') ω' (.refl ω')) fun hs => ⟨r, hx hs, hf.later h', rfl⟩
  | skip r =>
    exact .skip (Step.flattening_outer hp nofun) hg ((hy trivial).2 g (hf.later h') ω' (.refl ω'))

/-- The sequences that a function makes of the items run as the runs that it makes of those of the
run. -/
theorem flattening_runs (hf : F.GivesEach pullInner ω f φ g r.items) (h : Runs F pull ω s r) :
    Runs F (Step.flattening f pull pullInner) ω (g, s, none) (r.flatMap φ g) := by
  refine .coinduction (Flat F pull f φ pullInner) ?_
    (show FlatOuter F pull f φ pullInner ω g s _ from ⟨r, h, hf, rfl⟩)
  rintro ω ⟨g, s, _ | t⟩ b h
  · exact h.proceeds ω (.refl ω)
  · obtain ⟨r, b, h, rfl, hb⟩ := h
    exact flat_inner_proceeds h hb fun ht => (hb ht).proceeds

end FlatMap

end

end LazyXPath
