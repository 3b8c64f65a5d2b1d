import LazyXPath.Sequence.Step
import Mathlib.Tactic.Choose

/-!
# Runs of sequences

The **run** of a sequence is what it delivers: its items in order, and what comes after them. A sequence
is pulled while the world changes around it, so a run has to be the same under every schedule of pulls
and changes. This is made precise by two notions.

* A **frame** says what may happen to the world between two pulls (`rely`), what a pull itself may do to
  it (`guarantee`), and when nothing is outstanding any more (`settled`). Its situations may hold more
  than the world, namely what is known about it.
* A state **runs** `r` from a situation (`Runs`) if every pull, in whatever later situation it takes
  place, reports what `r` says next, or a suspension instead. Suspensions may be reported for ever as
  long as something is outstanding. When nothing is outstanding, there are only finitely many pulls
  before the end.

`Runs` is a greatest fixed point around a least one: a suspension while something is outstanding may be
repeated for ever, everything else may not. `Runs.coinduction` and `Runs.induction` are the two ways to use it. The tail of a
run may be unknown. Then nothing is said about what comes after the items, which is how a run of a
combinator says that it does not look any further.
-/

namespace LazyXPath

/-! ### Runs and their reports -/

/-- What comes after the items of a run. -/
inductive Tail where
  | done
  /-- An error of the given kind. Which one it is may depend on the schedule. -/
  | fails (P : Error → Prop)
  /-- Nothing is said. -/
  | unknown

/-- The tail that consists of one error. -/
def Tail.failed (e : Error) : Tail := .fails (· = e)

/-- What a sequence delivers: items, and what comes after them. -/
structure Run (α : Type) where
  items : List α
  tail : Tail

namespace Run

variable {α : Type}

/-- The run of a complete list. -/
def complete (xs : List α) : Run α := ⟨xs, .done⟩

/-- The reports that a run allows next, and what remains of it. -/
inductive Next : Run α → Outcome α → Run α → Prop where
  | item (x : α) (xs : List α) (t : Tail) : Next ⟨x :: xs, t⟩ (.item x) ⟨xs, t⟩
  | done : Next ⟨[], .done⟩ .done ⟨[], .done⟩
  | failed (P : Error → Prop) (e : Error) (h : P e) : Next ⟨[], .fails P⟩ (.failed e) ⟨[], .fails P⟩
  | suspended (r : Run α) (d : DeferredId) : Next r (.suspended d) r
  | skip (r : Run α) : Next r .skip r

/-- No report changes what a run ends with. -/
theorem Next.tail_eq {r r' : Run α} {o : Outcome α} (h : r.Next o r') : r'.tail = r.tail := by
  cases h <;> rfl

end Run

/-! ### Frames -/

/-- The circumstances in which sequences are pulled. -/
structure Frame (W : Type) where
  Situation : Type
  world : Situation → W
  /-- What may happen between two pulls. -/
  rely : Situation → Situation → Prop
  /-- What may happen in a pull. -/
  guarantee : Situation → Situation → Prop
  /-- Nothing is outstanding. -/
  settled : Situation → Prop
  rely_trans : ∀ {a b c}, rely a b → rely b c → rely a c
  guarantee_trans : ∀ {a b c}, guarantee a b → guarantee b c → guarantee a c
  rely_of_guarantee : ∀ {a b}, guarantee a b → rely a b
  guarantee_idle : ∀ {a b}, rely a b → guarantee b b
  settled_of_rely : ∀ {a b}, rely a b → settled a → settled b

namespace Frame

variable {W α σ : Type} (F : Frame W) {ω ω₁ ω₂ : F.Situation}

/-- A situation that has been reached may stand still. -/
theorem rely_idle (h : F.rely ω ω₁) : F.rely ω₁ ω₁ := F.rely_of_guarantee (F.guarantee_idle h)

/-- What a pull does is something that may happen between two others. -/
theorem rely_guarantee (h : F.rely ω ω₁) (hg : F.guarantee ω₁ ω₂) : F.rely ω ω₂ :=
  F.rely_trans h (F.rely_of_guarantee hg)

/-- A situation or a later one. -/
def Since (ω ω₁ : F.Situation) : Prop := ω₁ = ω ∨ F.rely ω ω₁

namespace Since

variable {F}

theorem refl (ω : F.Situation) : F.Since ω ω := .inl rfl

/-- From now or from later, what happens next is later. -/
theorem rely (h : F.Since ω ω₁) (h₂ : F.rely ω₁ ω₂) : F.rely ω ω₂ := by
  obtain rfl | h := h
  · exact h₂
  · exact F.rely_trans h h₂

/-- A pull after a change leads to a later situation. -/
theorem guarantee (h : F.Since ω ω₁) {ω₃ : F.Situation} (h₂ : F.rely ω₁ ω₂) (hg : F.guarantee ω₂ ω₃) :
    F.rely ω ω₃ :=
  F.rely_guarantee (h.rely h₂) hg

/-- A change first, and then perhaps another one. -/
theorem of_rely (h : F.rely ω ω₁) (h₂ : F.Since ω₁ ω₂) : F.Since ω ω₂ := by
  obtain rfl | h₂ := h₂
  · exact .inr h
  · exact .inr (F.rely_trans h h₂)

end Since

/-- A pull in a situation, and the situation after it. -/
def Pulls (pull : σ → StateM W (Outcome α × σ)) (ω : F.Situation) (s : σ) (o : Outcome α) (s' : σ)
    (ω' : F.Situation) : Prop :=
  pull s (F.world ω) = ((o, s'), F.world ω') ∧ F.guarantee ω ω'

/-- A report after which the end has come closer. A suspension is one if nothing is outstanding. -/
def Advances (ω : F.Situation) : Outcome α → Prop
  | .item _ | .skip => True
  | .suspended _ => F.settled ω
  | .done | .failed _ => False

/-- A suspension while something is outstanding. -/
def Waits (ω : F.Situation) : Outcome α → Prop
  | .suspended _ => ¬F.settled ω
  | _ => False

/-- A pull is as it has to be: it reports what the run says, and the rest of the run is what `Y` or `X`
asks for, depending on whether the end has come closer. -/
def Obeys (pull : σ → StateM W (Outcome α × σ)) (Y X : F.Situation → σ → Run α → Prop)
    (ω : F.Situation) (s : σ) (r : Run α) : Prop :=
  ∃ o s' ω' r', F.Pulls pull ω s o s' ω' ∧ r.Next o r' ∧ (F.Advances ω o → Y ω' s' r') ∧
    (F.Waits ω o → X ω' s' r')

namespace Obeys

variable {F} {pull : σ → StateM W (Outcome α × σ)} {Y X : F.Situation → σ → Run α → Prop} {s s' : σ}
  {r : Run α}

theorem item {x : α} {xs : List α} {t : Tail}
    (hp : pull s (F.world ω) = ((.item x, s'), F.world ω₁)) (hg : F.guarantee ω ω₁)
    (hy : Y ω₁ s' ⟨xs, t⟩) : F.Obeys pull Y X ω s ⟨x :: xs, t⟩ :=
  ⟨_, _, _, _, ⟨hp, hg⟩, .item x xs t, fun _ => hy, False.elim⟩

/-- A silent step, behind which the whole run is still to come. -/
theorem skip (hp : pull s (F.world ω) = ((.skip, s'), F.world ω₁)) (hg : F.guarantee ω ω₁)
    (hy : Y ω₁ s' r) : F.Obeys pull Y X ω s r :=
  ⟨_, _, _, _, ⟨hp, hg⟩, .skip r, fun _ => hy, False.elim⟩

/-- The end is reported when nothing is left of a run that ends. -/
theorem done (hp : pull s (F.world ω) = ((.done, s'), F.world ω₁)) (hg : F.guarantee ω ω₁) :
    F.Obeys pull Y X ω s ⟨[], .done⟩ :=
  ⟨_, _, _, _, ⟨hp, hg⟩, .done, False.elim, False.elim⟩

/-- An error of the right kind is reported when nothing is left of a run that fails. -/
theorem failed {P : Error → Prop} {e : Error} (he : P e)
    (hp : pull s (F.world ω) = ((.failed e, s'), F.world ω₁)) (hg : F.guarantee ω ω₁) :
    F.Obeys pull Y X ω s ⟨[], .fails P⟩ :=
  ⟨_, _, _, _, ⟨hp, hg⟩, .failed P e he, False.elim, False.elim⟩

/-- An error may stand for the rest of a run whenever the run allows it. Nothing follows it that matters. -/
theorem of_next_failed {e : Error} {r' : Run α} (hn : r.Next (.failed e) r')
    (hp : pull s (F.world ω) = ((.failed e, s'), F.world ω₁)) (hg : F.guarantee ω ω₁) :
    F.Obeys pull Y X ω s r := by
  cases hn with
  | failed P e he => exact .failed he hp hg

/-- A suspension brings the end closer only if nothing is outstanding. -/
theorem suspended {d : DeferredId}
    (hp : pull s (F.world ω) = ((.suspended d, s'), F.world ω₁)) (hg : F.guarantee ω ω₁)
    (hy : F.settled ω → Y ω₁ s' r) (hx : ¬F.settled ω → X ω₁ s' r) : F.Obeys pull Y X ω s r :=
  ⟨_, _, _, _, ⟨hp, hg⟩, .suspended r d, hy, hx⟩

/-- What is asked of the states after a pull may be weakened. -/
theorem mono {Y' X' : F.Situation → σ → Run α → Prop} (hY : ∀ {ω s r}, Y ω s r → Y' ω s r)
    (hX : ∀ {ω s r}, X ω s r → X' ω s r) (h : F.Obeys pull Y X ω s r) :
    F.Obeys pull Y' X' ω s r := by
  obtain ⟨o, s', ω', r', hp, hn, hy, hx⟩ := h
  exact ⟨o, s', ω', r', hp, hn, fun ho => hY (hy ho), fun ho => hX (hx ho)⟩

end Obeys

end Frame

/-! ### What it means to run -/

section Runs

variable {W α σ : Type} (F : Frame W) (pull : σ → StateM W (Outcome α × σ))

/-- Every pull obeys the run up to its end or until something has to be waited for, after which `X` has
to hold. The functions give for each later situation the outcome of a pull, and what there is after
it. -/
inductive Proceeds (X : F.Situation → σ → Run α → Prop) : F.Situation → σ → Run α → Prop where
  | unknown (ω : F.Situation) (s : σ) : Proceeds X ω s ⟨[], .unknown⟩
  | pull {ω : F.Situation} {s : σ} {r : Run α} (outcome : F.Situation → Outcome α)
      (next : F.Situation → σ) (after : F.Situation → F.Situation) (rest : F.Situation → Run α)
      (pulls : ∀ ω', F.rely ω ω' → F.Pulls pull ω' s (outcome ω') (next ω') (after ω'))
      (reports : ∀ ω', F.rely ω ω' → r.Next (outcome ω') (rest ω'))
      (advances : ∀ ω', F.rely ω ω' → F.Advances ω' (outcome ω') →
        Proceeds X (after ω') (next ω') (rest ω'))
      (waits : ∀ ω', F.rely ω ω' → F.Waits ω' (outcome ω') → X (after ω') (next ω') (rest ω')) :
      Proceeds X ω s r

/-- A state runs `r` from a situation on. -/
def Runs (ω : F.Situation) (s : σ) (r : Run α) : Prop :=
  ∃ X : F.Situation → σ → Run α → Prop, (∀ ω s r, X ω s r → Proceeds F pull X ω s r) ∧ X ω s r

variable {F pull}

namespace Proceeds

variable {X X' : F.Situation → σ → Run α → Prop} {ω ω₁ : F.Situation} {s : σ} {r : Run α}

/-- To proceed, it is enough to obey in every later situation. -/
theorem of_obeys (h : ∀ ω₁, F.rely ω ω₁ → F.Obeys pull (Proceeds F pull X) X ω₁ s r) :
    Proceeds F pull X ω s r := by
  have h' : ∀ ω₁, ∃ o s' ω' r', F.rely ω ω₁ → F.Pulls pull ω₁ s o s' ω' ∧ r.Next o r' ∧
      (F.Advances ω₁ o → Proceeds F pull X ω' s' r') ∧ (F.Waits ω₁ o → X ω' s' r') := by
    intro ω₁
    by_cases h₁ : F.rely ω ω₁
    · obtain ⟨o, s', ω', r', h'⟩ := h ω₁ h₁
      exact ⟨o, s', ω', r', fun _ => h'⟩
    -- a situation that is not later needs some values, too
    · exact ⟨.skip, s, ω, r, fun h => absurd h h₁⟩
  choose o s' ω' r' h' using h'
  exact .pull o s' ω' r' (fun ω₁ h₁ => (h' ω₁ h₁).1) (fun ω₁ h₁ => (h' ω₁ h₁).2.1)
    (fun ω₁ h₁ => (h' ω₁ h₁).2.2.1) (fun ω₁ h₁ => (h' ω₁ h₁).2.2.2)

/-- A state that proceeds does so from every later situation on. -/
private theorem later (h : Proceeds F pull X ω s r) (hω : F.rely ω ω₁) : Proceeds F pull X ω₁ s r := by
  cases h with
  | unknown => exact .unknown ω₁ s
  | pull o s' ω' r' hp hn hy hx =>
    have hl : ∀ ω₂, F.rely ω₁ ω₂ → F.rely ω ω₂ := fun ω₂ h₂ => F.rely_trans hω h₂
    exact .pull o s' ω' r' (fun ω₂ h₂ => hp ω₂ (hl ω₂ h₂)) (fun ω₂ h₂ => hn ω₂ (hl ω₂ h₂))
      (fun ω₂ h₂ => hy ω₂ (hl ω₂ h₂)) (fun ω₂ h₂ => hx ω₂ (hl ω₂ h₂))

/-- The same of what is asked of the states after a wait. -/
theorem mono (hX : ∀ ω s r, X ω s r → X' ω s r) (h : Proceeds F pull X ω s r) :
    Proceeds F pull X' ω s r := by
  induction h with
  | unknown ω s => exact .unknown ω s
  | pull o s' ω' r' hp hn _ hx ih =>
    exact .pull o s' ω' r' hp hn ih fun ω₁ h₁ ho => hX _ _ _ (hx ω₁ h₁ ho)

/-- A pull obeys the run, unless nothing is said about it. -/
theorem obeys (h : Proceeds F pull X ω s r) (hr : r ≠ ⟨[], .unknown⟩) (hω : F.rely ω ω₁) :
    F.Obeys pull (Proceeds F pull X) X ω₁ s r := by
  cases h with
  | unknown => exact absurd rfl hr
  | pull o s' ω' r' hp hn hy hx =>
    exact ⟨o ω₁, s' ω₁, ω' ω₁, r' ω₁, hp ω₁ hω, hn ω₁ hω, hy ω₁ hω, hx ω₁ hω⟩

end Proceeds

namespace Runs

variable {ω ω₁ : F.Situation} {s : σ} {r : Run α}

/-- The greatest fixed point, unfolded once. -/
theorem proceeds (h : Runs F pull ω s r) : Proceeds F pull (Runs F pull) ω s r := by
  obtain ⟨X, hX, hx⟩ := h
  exact (hX ω s r hx).mono fun ω s r hx => ⟨X, hX, hx⟩

/-- **Coinduction**: a relation consists of runs, if every pull obeys the run until something has to be
waited for, and the relation holds again then. -/
theorem coinduction (X : F.Situation → σ → Run α → Prop)
    (hX : ∀ ω s r, X ω s r → Proceeds F pull X ω s r) (h : X ω s r) : Runs F pull ω s r :=
  ⟨X, hX, h⟩

/-- The greatest fixed point, folded once. -/
private theorem of_proceeds (h : Proceeds F pull (Runs F pull) ω s r) : Runs F pull ω s r := by
  refine coinduction (Proceeds F pull (Runs F pull)) (fun ω s r h => ?_) h
  exact h.mono fun ω s r h => h.proceeds

/-- To run, it is enough to obey in every later situation. -/
theorem of_obeys (h : ∀ ω₁, F.rely ω ω₁ → F.Obeys pull (Runs F pull) (Runs F pull) ω₁ s r) :
    Runs F pull ω s r :=
  of_proceeds (.of_obeys fun ω₁ h₁ => (h ω₁ h₁).mono proceeds id)

/-- Every state runs a run of which nothing is known. -/
theorem unknown (ω : F.Situation) (s : σ) : Runs F pull ω s ⟨[], .unknown⟩ :=
  of_proceeds (.unknown ω s)

/-- A run goes on in every later situation. -/
theorem later (h : Runs F pull ω s r) (hω : F.rely ω ω₁) : Runs F pull ω₁ s r :=
  of_proceeds (h.proceeds.later hω)

/-- After a suspension, the run goes on in any case. -/
theorem of_suspended (hy : F.settled ω → Runs F pull ω₁ s r) (hx : ¬F.settled ω → Runs F pull ω₁ s r) :
    Runs F pull ω₁ s r := by
  by_cases hs : F.settled ω
  · exact hy hs
  · exact hx hs

/-- A state that runs does so from every later situation on. -/
theorem since (h : Runs F pull ω s r) (hω : F.Since ω ω₁) : Runs F pull ω₁ s r := by
  obtain rfl | hω := hω
  · exact h
  · exact h.later hω

/-- **Induction**: along the pulls after which the end has come closer. -/
theorem induction {P : F.Situation → σ → Run α → Prop} (unknown : ∀ ω s, P ω s ⟨[], .unknown⟩)
    (step : ∀ ω s r, (∀ ω₁, F.rely ω ω₁ →
      F.Obeys pull (fun ω s r => Runs F pull ω s r ∧ P ω s r) (Runs F pull) ω₁ s r) → P ω s r)
    (h : Runs F pull ω s r) : P ω s r := by
  replace h := h.proceeds
  induction h with
  | unknown ω s => exact unknown ω s
  | pull o s' ω' r' hp hn hy hx ih =>
    refine step _ _ _ fun ω₁ h₁ => ⟨o ω₁, s' ω₁, ω' ω₁, r' ω₁, hp ω₁ h₁, hn ω₁ h₁, ?_, hx ω₁ h₁⟩
    exact fun ho => ⟨of_proceeds (hy ω₁ h₁ ho), ih ω₁ h₁ ho⟩

theorem obeys (h : Runs F pull ω s r) (hr : r ≠ ⟨[], .unknown⟩) (hω : F.rely ω ω₁) :
    F.Obeys pull (Runs F pull) (Runs F pull) ω₁ s r :=
  (h.proceeds.obeys hr hω).mono of_proceeds id

variable {β γ τ : Type} {pull' : τ → StateM W (Outcome β × τ)}

/-- What a simulation reaches: a run, or a state of the same form. -/
def Reached (F : Frame W) (pull' : τ → StateM W (Outcome β × τ)) (e : γ → σ → τ)
    (H : F.Situation → γ → Run α → Prop) (R : γ → Run α → Run β)
    (Y : F.Situation → σ → Run α → Prop) (ω : F.Situation) (t : τ) (r' : Run β) : Prop :=
  Runs F pull' ω t r' ∨ ∃ g s r, H ω g r ∧ Y ω s r ∧ t = e g s ∧ r' = R g r

/-- **Simulation**: a state that reads one sequence runs a function of its run, if this is so of every
single pull. Here `g` is what the state consists of besides the sequence, and `H` is what has to be
known about it. -/
theorem simulate {e : γ → σ → τ} {H : F.Situation → γ → Run α → Prop} {R : γ → Run α → Run β}
    (unknown : ∀ ω g s, H ω g ⟨[], .unknown⟩ → Runs F pull' ω (e g s) (R g ⟨[], .unknown⟩))
    (later : ∀ {ω ω₁ g r}, F.rely ω ω₁ → H ω g r → H ω₁ g r)
    (step : ∀ Y X : F.Situation → σ → Run α → Prop,
      (∀ {ω ω₁ s r}, F.rely ω ω₁ → Y ω s r → Y ω₁ s r) →
      ∀ ω g s r, F.rely ω ω → H ω g r → F.Obeys pull Y X ω s r →
        F.Obeys pull' (Reached F pull' e H R Y) (Reached F pull' e H R X) ω (e g s) (R g r))
    {g : γ} (hg : H ω g r) (h : Runs F pull ω s r) : Runs F pull' ω (e g s) (R g r) := by
  refine coinduction (Reached F pull' e H R (Runs F pull)) ?_ (.inr ⟨g, s, r, hg, h, rfl, rfl⟩)
  rintro ω _ _ (h | ⟨g, s, r, hg, h, rfl, rfl⟩)
  · exact h.proceeds.mono fun ω t r' h => .inl h
  -- the statement speaks about all later situations, so that it can be kept until the state is used
  refine h.induction (P := fun ω s r => ∀ ω₁ g, F.Since ω ω₁ → H ω₁ g r →
    Proceeds F pull' (Reached F pull' e H R (Runs F pull)) ω₁ (e g s) (R g r)) ?_ ?_ ω g (.refl ω) hg
  · intro ω s ω₁ g _ hg
    exact (unknown ω₁ g s hg).proceeds.mono fun ω t r' h => .inl h
  · intro ω s r h ω₁ g h₁ hg
    refine .of_obeys fun ω₂ h₂ => ?_
    refine (step _ _ ?_ ω₂ g s r (F.rely_idle h₂) (later h₂ hg) (h ω₂ (h₁.rely h₂))).mono ?_ id
    · rintro ω ω₁ s r h₁ ⟨hr, hP⟩
      exact ⟨hr.later h₁, fun ω₂ g h₂ => hP ω₂ g (.of_rely h₁ h₂)⟩
    · rintro ω _ _ (h | ⟨g, s, r, hg, ⟨-, hP⟩, rfl, rfl⟩)
      · exact h.proceeds.mono fun ω t r' h => .inl h
      · exact hP ω g (.refl ω) hg

/-- States with the same pulls have the same runs. -/
theorem embed {pull' : τ → StateM W (Outcome α × τ)} (e : σ → τ)
    (he : ∀ s w, pull' (e s) w = (((pull s w).1.1, e (pull s w).1.2), (pull s w).2))
    (h : Runs F pull ω s r) : Runs F pull' ω (e s) r := by
  refine simulate (e := fun _ : Unit => e) (H := fun _ _ _ => True) (R := fun _ r => r)
    (fun ω _ s _ => .unknown ω (e s)) (fun _ _ => trivial) ?_ (g := ()) trivial h
  intro Y X _ ω _ s r _ _ h
  obtain ⟨o, s', ω', r', ⟨hp, hg⟩, hn, hy, hx⟩ := h
  refine ⟨o, e s', ω', r', ⟨?_, hg⟩, hn, fun ho => .inr ⟨(), s', r', trivial, hy ho, rfl, rfl⟩, ?_⟩
  · rw [he, hp]
  · exact fun ho => .inr ⟨(), s', r', trivial, hx ho, rfl, rfl⟩

end Runs

end Runs

/-! ### Streams -/

namespace StreamOf

variable {W α κ : Type} {F : Frame W} {step : κ → StateM W (Outcome α × κ)} {ω : F.Situation}

/-- A stream that has ended delivers the items ahead, and then its end. -/
theorem runs_done (xs : List α) (ω : F.Situation) :
    Runs F (pull step) ω ⟨xs, .done⟩ ⟨xs, .done⟩ := by
  induction xs generalizing ω with
  | nil => exact .of_obeys fun ω₁ h₁ => .done rfl (F.guarantee_idle h₁)
  | cons x xs ih => exact .of_obeys fun ω₁ h₁ => .item rfl (F.guarantee_idle h₁) (ih ω₁)

/-- A pull of a stream without items ahead is a step of its cursor. -/
theorem pull_run {c c' : κ} {o : Outcome α} {w w' : W} (h : step c w = ((o, c'), w')) :
    pull step (.run c) w = ((o, ⟨[], statusAfter o c'⟩), w') := by
  change (settle (step c w).1, (step c w).2) = _
  rw [h]
  rfl

/-- A stream runs as its cursor does. -/
theorem runs_run {ω : F.Situation} {c : κ} {r : Run α} (h : Runs F step ω c r) :
    Runs F (pull step) ω (.run c) r := by
  refine .simulate (e := fun _ : Unit => run) (H := fun _ _ _ => True) (R := fun _ r => r)
    (fun ω _ s _ => .unknown ω _) (fun _ _ => trivial) ?_ (g := ()) trivial h
  intro Y X _ ω _ c r _ _ h
  obtain ⟨o, c', ω', r', ⟨hp, hg⟩, hn, hy, hx⟩ := h
  refine ⟨o, _, ω', r', ⟨pull_run hp, hg⟩, hn, fun ho => ?_, fun ho => ?_⟩
  · cases o with
    | item | skip | suspended => exact .inr ⟨(), c', r', trivial, hy ho, rfl, rfl⟩
    | done | failed => exact ho.elim
  · cases o with
    | suspended => exact .inr ⟨(), c', r', trivial, hx ho, rfl, rfl⟩
    | item | skip | done | failed => exact ho.elim

/-- After its end, a stream reports the end for ever. -/
theorem pull_of_done {s s' : StreamOf α κ} {w w' : W} (h : pull step s w = ((.done, s'), w')) (w₁ : W) :
    pull step s' w₁ = ((.done, s'), w₁) := by
  obtain ⟨ahead, status⟩ := s
  cases ahead with
  | cons x xs => cases h
  | nil =>
    cases status with
    | done => cases h; rfl
    | failed e => cases h
    | running c =>
      replace h : (settle (step c w).1, (step c w).2) = ((.done, s'), w') := h
      rcases hc : step c w with ⟨⟨o, c'⟩, w''⟩
      rw [hc] at h
      cases h
      rfl

end StreamOf

/-! ### A latch -/

/-- The smallest frame in which something is outstanding: a latch, which may be set once. -/
def Frame.latch : Frame Bool where
  Situation := Bool
  world := id
  rely a b := a = true → b = true
  guarantee a b := a = b
  settled a := a = true
  rely_trans h h' ha := h' (h ha)
  guarantee_trans := .trans
  rely_of_guarantee h ha := h ▸ ha
  guarantee_idle _ := rfl
  settled_of_rely h := h

/-- A list that is delivered when the latch has been set. -/
def awaiting {α : Type} (xs : List α) : StateM Bool (Outcome α × List α) := do
  match ← get, xs with
  | false, xs => return (.suspended "latch", xs)
  | true, [] => return (.done, [])
  | true, x :: xs => return (.item x, xs)

/-- Under every schedule the list comes out, even though the latch may stay open for ever. -/
theorem awaiting_runs {α : Type} (w : Bool) (xs : List α) :
    Runs .latch awaiting w xs (.complete xs) := by
  refine .coinduction (fun _ xs r => r = .complete xs) ?_ rfl
  rintro w xs _ rfl
  induction xs generalizing w with
  | nil =>
    refine .of_obeys fun w' h' => ?_
    have hg := Frame.latch.guarantee_idle h'
    cases w' with
    | false => exact .suspended rfl hg nofun fun _ => rfl
    | true => exact .done rfl hg
  | cons x xs ih =>
    refine .of_obeys fun w' h' => ?_
    have hg := Frame.latch.guarantee_idle h'
    cases w' with
    | false => exact .suspended rfl hg nofun fun _ => rfl
    | true => exact .item rfl hg (ih true)

end LazyXPath
