import LazyXPath.Proofs.Schedule
import LazyXPath.Stream.Conversion
import Mathlib.Data.List.Forall2

/-!
# Actions in step

Two actions are run side by side, each in a world of its own. A **coupling** says which worlds are alike,
and also when it is broken: nothing is promised about the second world any more, and the first one stays
broken for good. The actions are **in step** if, from worlds that are alike, they come to such worlds again
and to related results, unless the coupling has been broken on the way (`Coupling.InStep`).

The rules of this module say this of the steps of combinators: if the pulls of two sequences are in step and
the callbacks do the same in both worlds, then the steps are in step. The outcomes are the same, and only the
states may differ, by a relation of one's choice that is reflexive. Sequences whose pulls are in step give the
same reports under every schedule (`Coupling.play_inStep`).
-/

namespace LazyXPath

variable {W α β γ σ τ : Type}

/-! ### Relations between results -/

section

variable {R : α → α → Prop} {S : β → β → Prop}

/-- Both components of a pair are related. -/
def Both (R : α → α → Prop) (S : β → β → Prop) (p q : α × β) : Prop := R p.1 q.1 ∧ S p.2 q.2

/-- Two attempts have related results, or fail with the same error. -/
inductive Attempts (R : α → α → Prop) : Except Error α → Except Error α → Prop
  | ok {a b : α} (h : R a b) : Attempts R (.ok a) (.ok b)
  | error (e : Error) : Attempts R (.error e) (.error e)

/-- Functions that take related arguments to related results take related attempts to such attempts. -/
theorem Attempts.map {f g : α → β} {r r' : Except Error α} (h : Attempts R r r')
    (hf : ∀ a b, R a b → S (f a) (g b)) : Attempts S (r.map f) (r'.map g) := by
  cases h with
  | ok h => exact .ok (hf _ _ h)
  | error e => exact .error e

/-- Attempts made with related results: the first failure is the same on both sides. -/
theorem Attempts.bind {f g : α → Except Error β} {r r' : Except Error α} (h : Attempts R r r')
    (hf : ∀ a b, R a b → Attempts S (f a) (g b)) : Attempts S (r >>= f) (r' >>= g) := by
  cases h with
  | ok h => exact hf _ _ h
  | error e => exact .error e

variable [Std.Refl R] [Std.Refl S]

instance : Std.Refl (Both R S) := ⟨fun p => ⟨Std.Refl.refl p.1, Std.Refl.refl p.2⟩⟩

instance : Std.Refl (Attempts R) where
  refl r := by
    cases r with
    | ok a => exact .ok (Std.Refl.refl a)
    | error e => exact .error e

omit [Std.Refl S] in
/-- Equal attempts are related, as the relation is reflexive. -/
theorem Attempts.of_eq {r r' : Except Error α} (h : r = r') : Attempts R r r' := h ▸ Std.Refl.refl r

instance reflOptionRel : Std.Refl (Option.Rel R) where
  refl o := by
    cases o with
    | none => exact .none
    | some a => exact .some (Std.Refl.refl a)

instance reflLiftRel : Std.Refl (Sum.LiftRel R S) where
  refl s := by
    cases s with
    | inl a => exact .inl (Std.Refl.refl a)
    | inr b => exact .inr (Std.Refl.refl b)

instance reflForall₂ : Std.Refl (List.Forall₂ R) := ⟨List.forall₂_refl⟩

end

/-! ### Couplings -/

/-- A coupling of two worlds. -/
structure Coupling (W : Type) where
  alike : W → W → Prop
  /-- In the first world something has happened after which nothing is known about the second one. -/
  broken : W → Prop

/-- Two actions are in step: a broken coupling stays broken, and otherwise they lead from worlds that are
alike to such worlds and to related results, or break the coupling. -/
def Coupling.InStep (C : Coupling W) (x y : StateM W β) (Q : β → β → Prop) : Prop :=
  ∀ w, (C.broken w → C.broken (x w).2) ∧
    ∀ w', C.alike w w' → C.broken (x w).2 ∨ C.alike (x w).2 (y w').2 ∧ Q (x w).1 (y w').1

/-- An action that does the same in both worlds. -/
abbrev Coupling.Steady (C : Coupling W) (x : StateM W β) : Prop := C.InStep x x Eq

namespace Coupling

variable {C : Coupling W} {x y : StateM W β} {k l : β → StateM W γ} {Q : β → β → Prop} {R : γ → γ → Prop}

/-- Actions that do nothing are in step if their results are related. -/
theorem InStep.of_pure {a b : β} (h : Q a b) : C.InStep (pure a) (pure b) Q :=
  fun _ => ⟨id, fun _ hw => .inr ⟨hw, h⟩⟩

/-- The relation between the results may be weakened. -/
theorem InStep.mono {Q' : β → β → Prop} (hx : C.InStep x y Q) (h : ∀ a b, Q a b → Q' a b) :
    C.InStep x y Q' :=
  fun w => ⟨(hx w).1, fun w' hw => ((hx w).2 w' hw).imp_right fun hq => ⟨hq.1, h _ _ hq.2⟩⟩

/-- Actions one after the other. If the first ones break the coupling, then it stays broken because the
second action is in step with itself. -/
theorem InStep.bind [Std.Refl Q] (hx : C.InStep x y Q) (hk : ∀ a b, Q a b → C.InStep (k a) (l b) R) :
    C.InStep (x >>= k) (y >>= l) R := by
  intro w
  have hself := (hk (x w).1 (x w).1 (Std.Refl.refl _) (x w).2).1
  refine ⟨fun hb => hself ((hx w).1 hb), fun w' hw => ?_⟩
  obtain hb | ⟨hw, hq⟩ := (hx w).2 w' hw
  · exact .inl (hself hb)
  · exact (hk _ _ hq (x w).2).2 (y w').2 hw

/-- After an action that does the same in both worlds it is enough to compare what is done with one and the
same result. -/
theorem Steady.bind {R : γ → γ → Prop} (hx : C.Steady x) (hk : ∀ a, C.InStep (k a) (l a) R) :
    C.InStep (x >>= k) (x >>= l) R := by
  refine InStep.bind hx ?_
  rintro a _ rfl
  exact hk a

/-- **Schedules in step**: the reports are the same, unless the coupling is broken. -/
theorem play_inStep {pull pull' : σ → StateM W (Outcome α × σ)} {S : σ → σ → Prop} [Std.Refl S]
    (hp : ∀ s s', S s s' → C.InStep (pull s) (pull' s') (Both Eq S)) {moves : List (W → W)}
    (hm : ∀ m ∈ moves, (∀ w, C.broken w → C.broken (m w)) ∧ ∀ w w', C.alike w w' → C.alike (m w) (m w'))
    {s s' : σ} (hs : S s s') (w : W) :
    (C.broken w → C.broken (play pull moves s w).2.2) ∧
      ∀ w', C.alike w w' → C.broken (play pull moves s w).2.2 ∨
        C.alike (play pull moves s w).2.2 (play pull' moves s' w').2.2 ∧
          (play pull moves s w).1 = (play pull' moves s' w').1 := by
  induction moves generalizing s s' w with
  | nil => exact ⟨id, fun w' hw => .inr ⟨hw, rfl⟩⟩
  | cons m moves ih =>
    obtain ⟨hbroken, halike⟩ := hm m (.head _)
    have ih {s s' : σ} (hs : S s s') (w : W) := ih (fun m hmem => hm m (.tail _ hmem)) hs w
    have hlater := (ih (Std.Refl.refl (pull s (m w)).1.2) (pull s (m w)).2).1
    refine ⟨fun hb => hlater ((hp s s' hs (m w)).1 (hbroken w hb)), fun w' hw => ?_⟩
    obtain hb | ⟨hw, ho, hs⟩ := (hp s s' hs (m w)).2 (m w') (halike w w' hw)
    · exact .inl (hlater hb)
    · obtain hb | ⟨hw, hreports⟩ := (ih hs (pull s (m w)).2).2 _ hw
      · exact .inl hb
      · exact .inr ⟨hw, congrArg₂ List.cons ho hreports⟩

end Coupling

/-! ### Steps of combinators -/

section

variable {C : Coupling W} {S : σ → σ → Prop} [Std.Refl S] {pull pull' : Step.Pull W α σ}

/-- Mappings by one callback are in step if their pulls are. -/
theorem Step.map_inStep {f : γ → α → StateM W (Except Error β × γ)} {g : γ} (hf : ∀ x, C.Steady (f g x))
    (hp : C.InStep pull pull' (Both Eq S)) :
    C.InStep (Step.map f g pull) (Step.map f g pull') (Both Eq (Both Eq S)) := by
  refine hp.bind ?_
  rintro ⟨o, s⟩ ⟨_, s'⟩ ⟨rfl, hs⟩
  cases o with
  | item x =>
    refine (hf x).bind ?_
    rintro ⟨_ | y, g'⟩ <;> exact .of_pure ⟨rfl, rfl, hs⟩
  | done | suspended | failed | skip => exact .of_pure ⟨rfl, rfl, hs⟩

/-- Filters by one predicate are in step if their pulls are. -/
theorem Step.filter_inStep {f : γ → α → StateM W (Except Error Bool × γ)} {g : γ}
    (hf : ∀ x, C.Steady (f g x)) (hp : C.InStep pull pull' (Both Eq S)) :
    C.InStep (Step.filter f g pull) (Step.filter f g pull') (Both Eq (Both Eq S)) := by
  refine hp.bind ?_
  rintro ⟨o, s⟩ ⟨_, s'⟩ ⟨rfl, hs⟩
  cases o with
  | item x =>
    refine (hf x).bind ?_
    rintro ⟨_ | _ | _, g'⟩ <;> exact .of_pure ⟨rfl, rfl, hs⟩
  | done | suspended | failed | skip => exact .of_pure ⟨rfl, rfl, hs⟩

/-- Bounded prefixes of the same length are in step if their pulls are. -/
theorem Step.take_inStep {n : Nat} {s s' : σ} (hs : S s s') (hp : C.InStep pull pull' (Both Eq S)) :
    C.InStep (Step.take n s pull) (Step.take n s' pull') (Both Eq (Both Eq S)) := by
  cases n with
  | zero => exact .of_pure ⟨rfl, rfl, hs⟩
  | succ n =>
    refine hp.bind ?_
    rintro ⟨o, s⟩ ⟨_, s'⟩ ⟨rfl, hs⟩
    cases o <;> exact .of_pure ⟨rfl, rfl, hs⟩

/-- Expansions with the same pending items are in step if their pulls are. -/
theorem Step.expand_inStep {f : α → Except Error (List β)} {pending : List β} {s s' : σ} (hs : S s s')
    (hp : C.InStep pull pull' (Both Eq S)) :
    C.InStep (Step.expand f pending s pull) (Step.expand f pending s' pull') (Both Eq (Both Eq S)) := by
  cases pending with
  | cons y ys => exact .of_pure ⟨rfl, rfl, hs⟩
  | nil =>
    refine hp.bind ?_
    rintro ⟨o, s⟩ ⟨_, s'⟩ ⟨rfl, hs⟩
    cases o with
    | item x =>
      dsimp only
      split <;> exact .of_pure ⟨rfl, rfl, hs⟩
    | done | suspended | failed | skip => exact .of_pure ⟨rfl, rfl, hs⟩

/-- Counters that have come to the same number are in step if their pulls are. -/
theorem Step.count_inStep {finish : Nat → Except Error β} {n : Nat} (hp : C.InStep pull pull' (Both Eq S)) :
    C.InStep (Step.count finish n pull) (Step.count finish n pull') (Both Eq (Both Eq (Option.Rel S))) := by
  refine hp.bind ?_
  rintro ⟨o, s⟩ ⟨_, s'⟩ ⟨rfl, hs⟩
  cases o with
  | done =>
    dsimp only
    split <;> exact .of_pure ⟨rfl, rfl, .none⟩
  | item | suspended | failed | skip => exact .of_pure ⟨rfl, rfl, .some hs⟩

/-- Collections that have seen the same items are in step if their pulls are. -/
theorem Step.collect_inStep {f : List α → StateM W (Except Error (List β))} {seen : List α}
    (hf : ∀ xs, C.Steady (f xs)) (hp : C.InStep pull pull' (Both Eq S)) :
    C.InStep (Step.collect f seen pull) (Step.collect f seen pull')
      (Both Eq (Sum.LiftRel (Both Eq S) Eq)) := by
  refine hp.bind ?_
  rintro ⟨o, s⟩ ⟨_, s'⟩ ⟨rfl, hs⟩
  cases o with
  | done =>
    refine (hf seen.reverse).bind ?_
    rintro (_ | ys)
    · exact .of_pure ⟨rfl, .inl ⟨rfl, hs⟩⟩
    · exact .of_pure ⟨rfl, .inr rfl⟩
  | item | suspended | failed | skip => exact .of_pure ⟨rfl, .inl ⟨rfl, hs⟩⟩

/-- The inner sequences and the states of the callback may differ as well. -/
theorem Step.outer_inStep {f : γ → α → StateM W (Except Error τ × γ)} {g g' : γ} {G : γ → γ → Prop}
    {U : τ → τ → Prop} [Std.Refl G] [Std.Refl U]
    (hf : ∀ x, C.InStep (f g x) (f g' x) (Both (Attempts U) G)) (hg : G g g')
    (hp : C.InStep pull pull' (Both Eq S)) :
    C.InStep (Step.outer (β := β) f g pull) (Step.outer f g' pull')
      (Both Eq (Both G (Both S (Option.Rel U)))) := by
  refine hp.bind ?_
  rintro ⟨o, s⟩ ⟨_, s'⟩ ⟨rfl, hs⟩
  cases o with
  | item x =>
    refine (hf x).bind ?_
    rintro ⟨_, g₁⟩ ⟨_, g₁'⟩ ⟨ht, hg⟩
    cases ht with
    | ok ht => exact .of_pure ⟨rfl, hg, hs, .some ht⟩
    | error e => exact .of_pure ⟨rfl, hg, hs, .none⟩
  | done | suspended | failed | skip => exact .of_pure ⟨rfl, hg, hs, .none⟩

/-- Inner sequences end in both worlds at once. -/
theorem Step.inner_inStep (hp : C.InStep pull pull' (Both Eq S)) :
    C.InStep (Step.inner pull) (Step.inner pull') (Both Eq (Option.Rel S)) := by
  refine hp.bind ?_
  rintro ⟨o, s⟩ ⟨_, s'⟩ ⟨rfl, hs⟩
  cases o with
  | done => exact .of_pure ⟨rfl, .none⟩
  | item | suspended | failed | skip => exact .of_pure ⟨rfl, .some hs⟩

/-- Concatenations are in step if the pulls of their current sequences are, and the sequences still to come
are related one by one. -/
theorem Step.concat_inStep {rest rest' : List σ} (hr : List.Forall₂ S rest rest')
    (hp : C.InStep pull pull' (Both Eq S)) :
    C.InStep (Step.concat rest pull) (Step.concat rest' pull') (Both Eq (Both S (List.Forall₂ S))) := by
  refine hp.bind ?_
  rintro ⟨o, s⟩ ⟨_, s'⟩ ⟨rfl, hs⟩
  cases o with
  | done =>
    cases hr with
    | nil => exact .of_pure ⟨rfl, hs, .nil⟩
    | cons ht hr => exact .of_pure ⟨rfl, ht, hr⟩
  | item | suspended | failed | skip => exact .of_pure ⟨rfl, hs, hr⟩

end

/-! ### One item from each of several sequences -/

/-- Slots with the same item, whose sequences are related. -/
inductive Step.Slot.Rel (S : σ → σ → Prop) : Slot α σ → Slot α σ → Prop
  | mk {s s' : σ} (h : S s s') (item : Option α) : Rel S ⟨s, item⟩ ⟨s', item⟩

/-- Rounds whose slots are related one by one. -/
inductive Step.Round.Rel (S : σ → σ → Prop) : Round α σ → Round α σ → Prop
  | mk {before before' after after' : List (Slot α σ)} {t t' : Slot α σ}
      (hb : List.Forall₂ (Slot.Rel S) before before') (ht : t.Rel S t')
      (ha : List.Forall₂ (Slot.Rel S) after after') (waiting : Option DeferredId) :
      Rel S ⟨before, t, after, waiting⟩ ⟨before', t', after', waiting⟩

/-- Gatherings with the same items, whose sequences are related. -/
inductive Step.Gathering.Rel (S : σ → σ → Prop) : Gathering α σ → Gathering α σ → Prop
  | mk (gathered : List (List α)) (seen : List α) {s s' : σ} {rest rest' : List σ} (hs : S s s')
      (hr : List.Forall₂ S rest rest') : Rel S ⟨gathered, seen, s, rest⟩ ⟨gathered, seen, s', rest'⟩

section

variable {C : Coupling W} {S : σ → σ → Prop} [Std.Refl S] {pull pull' : Step.Pull W α σ}

instance : Std.Refl (Step.Slot.Rel (α := α) S) := ⟨fun t => .mk (Std.Refl.refl t.input) t.item⟩

instance : Std.Refl (Step.Round.Rel (α := α) S) :=
  ⟨fun r => .mk (Std.Refl.refl r.before) (Std.Refl.refl r.current) (Std.Refl.refl r.after) r.waiting⟩

instance : Std.Refl (Step.Gathering.Rel (α := α) S) :=
  ⟨fun g => .mk g.gathered g.seen (Std.Refl.refl g.current) (Std.Refl.refl g.rest)⟩

omit [Std.Refl S] in
/-- Related slots have found the same items. -/
private theorem Step.Slot.Rel.map_item {ts ts' : List (Step.Slot α σ)} (h : List.Forall₂ (Step.Slot.Rel S) ts ts') :
    ts.map (·.item) = ts'.map (·.item) := by
  induction h with
  | nil => rfl
  | cons ht _ ih =>
    cases ht with
    | mk _ item => exact congrArg (item :: ·) ih

omit [Std.Refl S] in
/-- Related rounds go over to related slots, or are complete with the same items. -/
private theorem Step.Round.Rel.next {r r' : Step.Round α σ} (h : r.Rel S r') :
    Both Eq (Sum.LiftRel (Step.Round.Rel S) Eq) (Step.Round.next (β := β) r) r'.next := by
  obtain ⟨hb, ht, ha, waiting⟩ := h
  have hvisited := List.rel_reverse (List.Forall₂.cons ht hb)
  cases ha with
  | cons hnext hafter => exact ⟨rfl, .inl (.mk (.cons ht hb) hnext hafter waiting)⟩
  | nil =>
    -- all have been visited: another round begins if one of them waits, and the items are there otherwise
    unfold Step.Round.next
    dsimp only
    revert hvisited
    generalize (_ :: _ : List (Step.Slot α σ)).reverse = slots
    generalize (_ :: _ : List (Step.Slot α σ)).reverse = slots'
    intro hslots
    cases waiting with
    | none => exact ⟨rfl, .inr (Step.Slot.Rel.map_item hslots)⟩
    | some d =>
      cases hslots with
      | nil => exact ⟨rfl, .inr rfl⟩
      | cons hnext hrest => exact ⟨rfl, .inl (.mk .nil hnext hrest none)⟩

/-- Rounds are in step if the pulls of their current slots are. -/
theorem Step.zip_inStep {r r' : Step.Round α σ} (hr : r.Rel S r') (hp : C.InStep pull pull' (Both Eq S)) :
    C.InStep (Step.zip (β := β) r pull) (Step.zip r' pull') (Both Eq (Sum.LiftRel (Step.Round.Rel S) Eq)) := by
  refine hp.bind ?_
  rintro ⟨o, s⟩ ⟨_, s'⟩ ⟨rfl, hs⟩
  have hnumber : r.number = r'.number := by
    cases hr with
    | mk hb ht ha waiting => exact congrArg (· + 1) hb.length_eq
  have hsame := hr
  obtain ⟨hb, ⟨_, item⟩, ha, waiting⟩ := hr
  cases o with
  | item x =>
    cases item with
    | none => exact .of_pure ⟨rfl, .inl (.mk hb (.mk hs (some x)) ha waiting)⟩
    | some y =>
      exact .of_pure ⟨congrArg (fun n => Outcome.failed (.notSingle n)) hnumber, .inl hsame⟩
  | done => exact .of_pure (Step.Round.Rel.mk hb (.mk hs item) ha waiting).next
  | suspended d => exact .of_pure (Step.Round.Rel.mk hb (.mk hs item) ha (waiting.or (some d))).next
  | failed | skip => exact .of_pure ⟨rfl, .inl (.mk hb (.mk hs item) ha waiting)⟩

/-- Gatherings are in step if the pulls of their current sequences are. -/
theorem Step.gather_inStep {g g' : Step.Gathering α σ} (hg : g.Rel S g')
    (hp : C.InStep pull pull' (Both Eq S)) :
    C.InStep (Step.gather (β := β) g pull) (Step.gather g' pull')
      (Both Eq (Sum.LiftRel (Step.Gathering.Rel S) Eq)) := by
  refine hp.bind ?_
  rintro ⟨o, s⟩ ⟨_, s'⟩ ⟨rfl, hs⟩
  obtain ⟨gathered, seen, -, hr⟩ := hg
  cases o with
  | item x => exact .of_pure ⟨rfl, .inl (.mk gathered (x :: seen) hs hr)⟩
  | done =>
    cases hr with
    | nil => exact .of_pure ⟨rfl, .inr rfl⟩
    | cons ht hr => exact .of_pure ⟨rfl, .inl (.mk (seen.reverse :: gathered) [] ht hr)⟩
  | suspended | failed | skip => exact .of_pure ⟨rfl, .inl (.mk gathered seen hs hr)⟩

/-! ### Conversions and truth values -/

variable {pull pull' : Step.Pull W Item σ}

/-- Conversions in the same state are in step if the pulls of their inputs are. -/
theorem Conversion.step_inStep (forest : Forest) (c : Conversion) {s s' : σ} (hs : S s s')
    (hp : C.InStep pull pull' (Both Eq S)) :
    C.InStep (c.step forest s pull) (c.step forest s' pull') (Both Eq (Both Eq S)) := by
  unfold Conversion.step
  split
  · exact .of_pure ⟨rfl, rfl, hs⟩
  · refine hp.bind ?_
    rintro ⟨o, s⟩ ⟨_, s'⟩ ⟨rfl, hs⟩
    cases o <;> exact .of_pure ⟨rfl, rfl, hs⟩

/-- Truth values are decided at the same step, as both see the same items. -/
theorem Step.truth_inStep (forest : Forest) (position : Option Nat) (first : Option Bool)
    (hp : C.InStep pull pull' (Both Eq S)) :
    C.InStep (Step.truth forest position first pull) (Step.truth forest position first pull')
      (Both Eq (Sum.LiftRel (Both Eq S) S)) := by
  refine hp.bind ?_
  rintro ⟨o, s⟩ ⟨_, s'⟩ ⟨rfl, hs⟩
  cases o with
  | done => cases first <;> exact .of_pure ⟨rfl, .inr hs⟩
  | item x =>
    cases first with
    | some b => cases x <;> exact .of_pure ⟨rfl, .inl ⟨rfl, hs⟩⟩
    | none =>
      cases x with
      | node n => exact .of_pure ⟨rfl, .inr hs⟩
      | atomic v =>
        dsimp only
        split <;> exact .of_pure ⟨rfl, .inl ⟨rfl, hs⟩⟩
      | map | array | function => exact .of_pure ⟨rfl, .inl ⟨rfl, hs⟩⟩
  | suspended | failed | skip => exact .of_pure ⟨rfl, .inl ⟨rfl, hs⟩⟩

end

end LazyXPath
