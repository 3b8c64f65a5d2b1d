import LazyXPath.Proofs.Schedule
import LazyXPath.Stream.Machine
import Mathlib.Data.List.Forall2

/-!
# Streams in lockstep

Two streams are **in lockstep** if every pull of one of them does to the world what the same pull of the
other one does, and reports the same. An error may be worded differently, as long as its code is the same
(`Outcome.Alike`). Streams in lockstep cannot be told apart by any schedule (`play_alike`).

Two cases of this are used for calls.

* A stream that **forwards** another one is in lockstep with it (`forward_lockstep`).
* Calls whose functions are still to be chosen are in lockstep if their choices **agree**
  (`Dispatch.Agrees`): for all complete arguments they choose the same function, or both fail with the
  same code (`Dispatch.Agrees.lockstep`). This is so if the candidates come in another order, and if the
  call goes by another name.
-/

namespace LazyXPath

variable {W α σ τ : Type}

/-! ### Reports alike -/

/-- Outcomes that are the same, up to the wording of an error. -/
inductive Outcome.Alike : Outcome α → Outcome α → Prop
  | same (o : Outcome α) : Alike o o
  | failed {e e' : Error} (h : e.code = e'.code) : Alike (.failed e) (.failed e')

private theorem Outcome.Alike.trans {o o' o'' : Outcome α} (h : o.Alike o') (h' : o'.Alike o'') : o.Alike o'' := by
  cases h with
  | same => exact h'
  | failed h =>
    cases h' with
    | same => exact .failed h
    | failed h' => exact .failed (h.trans h')

/-- A relation between states is kept by pulls, which do the same to the world and report alike. -/
def Lockstep (pull : σ → StateM W (Outcome α × σ)) (pull' : τ → StateM W (Outcome α × τ))
    (R : σ → τ → Prop) : Prop :=
  ∀ s t w, R s t → (pull s w).1.1.Alike (pull' t w).1.1 ∧ R (pull s w).1.2 (pull' t w).1.2 ∧
    (pull s w).2 = (pull' t w).2

section

variable {pull : σ → StateM W (Outcome α × σ)} {pull' : τ → StateM W (Outcome α × τ)} {R : σ → τ → Prop}

/-- One pull in lockstep, from the outcomes of both. -/
theorem Lockstep.of_pulls {s s' : σ} {t t' : τ} {o o' : Outcome α} {w w' : W}
    (hs : pull s w = ((o, s'), w')) (ht : pull' t w = ((o', t'), w')) (ho : o.Alike o') (hR : R s' t') :
    (pull s w).1.1.Alike (pull' t w).1.1 ∧ R (pull s w).1.2 (pull' t w).1.2 ∧
      (pull s w).2 = (pull' t w).2 := by
  rw [hs, ht]
  exact ⟨ho, hR, rfl⟩

/-- **Lockstep under every schedule**: the reports are alike, one by one, and the world is the same. -/
theorem play_alike (hR : Lockstep pull pull' R) {s : σ} {t : τ} (h : R s t) (moves : List (W → W)) (w : W) :
    List.Forall₂ Outcome.Alike (play pull moves s w).1 (play pull' moves t w).1 ∧
      (play pull moves s w).2.2 = (play pull' moves t w).2.2 := by
  induction moves generalizing s t w with
  | nil => exact ⟨.nil, rfl⟩
  | cons m moves ih =>
    obtain ⟨ho, h', hw⟩ := hR s t (m w) h
    have hrest := ih h' (pull s (m w)).2
    simp only [play]
    rw [← hw]
    exact ⟨.cons ho hrest.1, hrest.2⟩

end

section

variable {env : Environment} {E : Engine}

private theorem forall₂_alike_trans {os os' os'' : List (Outcome α)} (h : List.Forall₂ Outcome.Alike os os')
    (h' : List.Forall₂ Outcome.Alike os' os'') : List.Forall₂ Outcome.Alike os os'' := by
  induction h generalizing os'' with
  | nil => exact h'
  | cons ho _ ih =>
    cases h' with
    | cons ho' h' => exact .cons (ho.trans ho') (ih h')

/-- Results of calls, with the worlds that the calls leave, which **cannot be told apart**: the worlds are the
same, and the streams give the same reports and do the same to the world, whatever happens between the
pulls. -/
structure SameRun (env : Environment) (E : Engine) (r r' : Except Error Stream × World) : Prop where
  world : r.2 = r'.2
  reports : ∀ moves : List (World → World),
    List.Forall₂ Outcome.Alike (play (streamStep env E) moves (Stream.orFailed r.1) r.2).1
      (play (streamStep env E) moves (Stream.orFailed r'.1) r'.2).1
  worlds : ∀ moves : List (World → World),
    (play (streamStep env E) moves (Stream.orFailed r.1) r.2).2.2 =
      (play (streamStep env E) moves (Stream.orFailed r'.1) r'.2).2.2

theorem SameRun.refl (r : Except Error Stream × World) : SameRun env E r r where
  world := rfl
  reports _ := List.forall₂_same.2 fun o _ => .same o
  worlds _ := rfl

theorem SameRun.trans {r r' r'' : Except Error Stream × World} (h : SameRun env E r r')
    (h' : SameRun env E r' r'') : SameRun env E r r'' where
  world := h.world.trans h'.world
  reports moves := forall₂_alike_trans (h.reports moves) (h'.reports moves)
  worlds moves := (h.worlds moves).trans (h'.worlds moves)

theorem Lockstep.sameRun {R : Stream → Stream → Prop} (hR : Lockstep (streamStep env E) (streamStep env E) R)
    (result result' : Except Error Stream) (h : R (Stream.orFailed result) (Stream.orFailed result'))
    (w : World) : SameRun env E (result, w) (result', w) where
  world := rfl
  reports moves := (play_alike hR h moves w).1
  worlds moves := (play_alike hR h moves w).2

/-- Failures with one code cannot be told apart. -/
theorem SameRun.error {e e' : Error} (h : e.code = e'.code) (w : World) :
    SameRun env E (.error e, w) (.error e', w) := by
  have hR : Lockstep (streamStep env E) (streamStep env E) fun s t => s = .failed e ∧ t = .failed e' := by
    rintro _ _ w ⟨rfl, rfl⟩
    exact ⟨.failed h, ⟨rfl, rfl⟩, rfl⟩
  exact hR.sameRun (.error e) (.error e') ⟨rfl, rfl⟩ w

/-! ### Streams that are forwarded -/

/-- A step of a cursor that forwards a stream. -/
theorem cursor_forward_step {s s' : Stream} {o : Outcome Item} {w w' : World}
    (h : streamStep env E s w = ((o, s'), w')) :
    Cursor.step env E (.forward s) w = ((o, .forward s'), w') := by
  simp only [Cursor.step, bind, StateT.bind, h]
  rfl

/-- A stream after its last report. -/
def Stream.Over (s : Stream) : Prop := s = .empty ∨ ∃ e, s = .failed e

/-- The streams that are reached from a stream and from one that forwards it. -/
inductive Forwarded : Stream → Stream → Prop
  | running (s : Stream) : Forwarded (.run (.forward s)) s
  | ended {s : Stream} (h : s.Over) : Forwarded s s

/-- After the end or an error, a stream is over. -/
theorem streamStep_over {s s' : Stream} {o : Outcome Item} {w w' : World}
    (h : streamStep env E s w = ((o, s'), w')) (ho : o.IsEnding) :
    ∀ c, s' = ⟨[], StreamOf.statusAfter o c⟩ := by
  intro c
  obtain ⟨_ | ⟨x, ahead⟩, status⟩ := s
  · cases status with
    | done =>
      cases h
      rfl
    | failed e =>
      cases h
      rfl
    | running c' =>
      have h : (StreamOf.settle (c'.step env E w).1, (c'.step env E w).2) = ((o, s'), w') := h
      rcases hc : c'.step env E w with ⟨⟨o', c''⟩, w''⟩
      rw [hc] at h
      cases h
      cases o' with
      | done | failed => rfl
      | item | suspended | skip => exact ho.elim
  · cases h
    exact ho.elim

private theorem Stream.Over.step {s : Stream} (h : s.Over) (w : World) :
    ∃ o, streamStep env E s w = ((o, s), w) := by
  obtain rfl | ⟨e, rfl⟩ := h
  · exact ⟨.done, rfl⟩
  · exact ⟨.failed e, rfl⟩

/-- **Forwarding** is not noticed. -/
theorem forward_lockstep : Lockstep (streamStep env E) (streamStep env E) Forwarded := by
  intro s t w hR
  cases hR with
  | running =>
    rcases hp : streamStep env E t w with ⟨⟨o, t'⟩, w'⟩
    have hf : streamStep env E (.run (.forward t)) w =
        ((o, ⟨[], StreamOf.statusAfter o (.forward t')⟩), w') :=
      streamStep_eq_pull env E _ ▸ StreamOf.pull_run (cursor_forward_step hp)
    have hR' : Forwarded ⟨[], StreamOf.statusAfter o (.forward t')⟩ t' := by
      cases o with
      | item | suspended | skip => exact .running t'
      | done =>
        rw [streamStep_over hp trivial (.forward t')]
        exact .ended (.inl rfl)
      | failed e =>
        rw [streamStep_over hp trivial (.forward t')]
        exact .ended (.inr ⟨e, rfl⟩)
    rw [← hp]
    exact Lockstep.of_pulls hf hp (.same o) hR'
  | ended h =>
    obtain ⟨o, hp⟩ : ∃ o, streamStep env E s w = ((o, s), w) := h.step w
    exact Lockstep.of_pulls hp hp (.same o) (.ended h)

theorem SameRun.forwarded (s : Stream) (w : World) :
    SameRun env E (.ok (.run (.forward s)), w) (.ok s, w) :=
  forward_lockstep.sameRun (.ok (.run (.forward s))) (.ok s) (.running s) w

/-! ### Choices that agree -/

/-- Two calls whose functions are still to be chosen come to the same choice, whatever the complete
arguments are, or both fail with the same code. -/
structure Dispatch.Agrees (forest : Forest) (d d' : Dispatch) : Prop where
  scope : d.scope = d'.scope
  choice : ∀ arguments, (∃ c, d.select forest arguments = .ok c ∧ d'.select forest arguments = .ok c) ∨
    ∃ e e', d.select forest arguments = .error e ∧ d'.select forest arguments = .error e' ∧
      e.code = e'.code

/-- The streams that are reached by two calls: they collect the same arguments, are about to choose, have
failed, or are the same. -/
inductive Dispatch.Paired (d d' : Dispatch) : Stream → Stream → Prop
  | gather (gathered : List (List Item)) (seen : List Item) (current : Stream) (rest : List Stream) :
      Paired d d' (.run (.gather d gathered seen current rest)) (.run (.gather d' gathered seen current rest))
  | choose (arguments : List (List Item)) :
      Paired d d' (.run (.dispatch d arguments)) (.run (.dispatch d' arguments))
  | failed {e e' : Error} (h : e.code = e'.code) : Paired d d' (.failed e) (.failed e')
  | same (s : Stream) : Paired d d' s s

namespace Dispatch

variable {d d' : Dispatch}

theorem paired_stream (d d' : Dispatch) (arguments : List Stream) :
    Paired d d' (d.stream arguments) (d'.stream arguments) := by
  cases arguments with
  | nil => exact .choose []
  | cons s rest => exact .gather [] [] s rest

/-- One pull while arguments are collected. -/
theorem gather_lockstep (env : Environment) (E : Engine) (d d' : Dispatch) (gathered : List (List Item))
    (seen : List Item) (current : Stream) (rest : List Stream) (w : World) :
    ∃ o s s' w', streamStep env E (.run (.gather d gathered seen current rest)) w = ((o, s), w') ∧
      streamStep env E (.run (.gather d' gathered seen current rest)) w = ((o, s'), w') ∧
      Paired d d' s s' := by
  have step (d : Dispatch) : streamStep env E (.run (.gather d gathered seen current rest)) w =
      (StreamOf.settle ((Cursor.gather d gathered seen current rest).step env E w).1,
        ((Cursor.gather d gathered seen current rest).step env E w).2) := rfl
  rcases hp : streamStep env E current w with ⟨⟨o, current'⟩, w'⟩
  rw [step d, step d']
  simp only [Cursor.step, Step.gather, bind, StateT.bind, hp]
  cases o with
  | item x => exact ⟨_, _, _, _, rfl, rfl, .gather gathered (x :: seen) current' rest⟩
  | done =>
    cases rest with
    | nil => exact ⟨_, _, _, _, rfl, rfl, .choose (seen.reverse :: gathered).reverse⟩
    | cons t ts => exact ⟨_, _, _, _, rfl, rfl, .gather (seen.reverse :: gathered) [] t ts⟩
  | suspended | skip => exact ⟨_, _, _, _, rfl, rfl, .gather gathered seen current' rest⟩
  | failed e => exact ⟨_, _, _, _, rfl, rfl, .same (.failed e)⟩

/-- The pull in which a function is chosen and called. -/
theorem streamStep_dispatch_ok {arguments converted : List (List Item)} {f : Function}
    (h : d.select env.forest arguments = .ok (f, converted)) (w : World) :
    streamStep env E (.run (.dispatch d arguments)) w =
      match E.call f d.scope (converted.map .ofList) w with
      | (.ok s, w') => ((.skip, .run (.forward s)), w')
      | (.error e, w') => ((.failed e, .failed e), w') := by
  rcases hc : E.call f d.scope (converted.map .ofList) w with ⟨_ | s, w'⟩
  all_goals
    have hstep : streamStep env E (.run (.dispatch d arguments)) w =
        (StreamOf.settle (dispatchStep env.forest E d arguments w).1,
          (dispatchStep env.forest E d arguments w).2) := rfl
    simp only [hstep, dispatchStep, h, bind, StateT.bind, hc]
    rfl

theorem streamStep_dispatch_error {arguments : List (List Item)} {e : Error}
    (h : d.select env.forest arguments = .error e) (w : World) :
    streamStep env E (.run (.dispatch d arguments)) w = ((.failed e, .failed e), w) := by
  have hstep : streamStep env E (.run (.dispatch d arguments)) w =
      (StreamOf.settle (dispatchStep env.forest E d arguments w).1,
        (dispatchStep env.forest E d arguments w).2) := rfl
  simp only [hstep, dispatchStep, h]
  rfl

/-- **Calls whose choices agree** are in lockstep. -/
theorem Agrees.lockstep (h : d.Agrees env.forest d') :
    Lockstep (streamStep env E) (streamStep env E) (Paired d d') := by
  intro s t w hR
  cases hR with
  | gather gathered seen current rest =>
    obtain ⟨o, s, s', w', hs, hs', hR⟩ :=
      gather_lockstep env E d d' gathered seen current rest w
    exact Lockstep.of_pulls hs hs' (.same o) hR
  | choose arguments =>
    obtain ⟨⟨f, converted⟩, hd, hd'⟩ | ⟨e, e', hd, hd', hcode⟩ := h.choice arguments
    · have hs := streamStep_dispatch_ok (E := E) hd w
      have hs' := streamStep_dispatch_ok (E := E) hd' w
      rw [← h.scope] at hs'
      rw [hs, hs']
      exact ⟨.same _, .same _, rfl⟩
    · exact Lockstep.of_pulls (streamStep_dispatch_error hd w) (streamStep_dispatch_error hd' w)
        (.failed hcode) (.failed hcode)
  | failed he => exact ⟨.failed he, .failed he, rfl⟩
  | same => exact ⟨.same _, .same _, rfl⟩

end Dispatch

end

end LazyXPath
