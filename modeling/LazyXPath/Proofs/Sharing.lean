import LazyXPath.Proofs.Delivery.Combinator
import LazyXPath.Proofs.Production
import LazyXPath.Stream.Machine

/-!
# Shared buffers

What a stream produces depends on the buffers it reads, and what is found in a buffer depends on what its
source produces. The source may read other buffers in turn. There is no order among buffers by which
this could be told from the world alone, so each buffer gets a **rank** when it is made: its source reads
only buffers of smaller ranks. A **pledge** is a rank together with the run that is found in a buffer, and a
**situation** is a world with pledges.

`regime env values k` is the regime of streams that read only buffers of ranks below `k`. It is defined by
recursion on the rank, because a situation is in order for such streams only if the sources of these
buffers produce the rest of what was pledged, each under the regime of its own rank (`Served`). While a
buffer is being read, its source is between two reports; this is why drift leaves alone the buffers of
ranks below `k`, and steps leave alone the others.

The main results are `reader_produces`, that a reader finds what was pledged, and `Produces.lift`, that a
stream keeps producing the same among more buffers.

Streams are pulled by an engine of some depth, and a reader pulls the source of its buffer by the engine
below. The depth stands beside the world. It has to exceed the rank.
-/

namespace LazyXPath

/-! ### Engines of some depth -/

section

variable {δ : Type} (env : Environment)

/-- What an engine does, at the depth that stands beside the world. -/
def atDepth (f : Engine → Action δ) : StateM (World × Nat) δ := fun p =>
  let r := f (.ofDepth env p.2) p.1
  (r.1, r.2, p.2)

/-- The steps of cursors. -/
def cursorStep (c : Cursor) : StateM (World × Nat) (Outcome Item × Cursor) :=
  atDepth env fun E => c.step env E

/-- The pulls of streams. -/
def streamPull : Stream → StateM (World × Nat) (Outcome Item × Stream) := StreamOf.pull (cursorStep env)

/-- Pulls in an engine of a depth that stands beside the world. -/
theorem streamPull_eq (s : Stream) : streamPull env s = atDepth env fun E => streamStep env E s := by
  obtain ⟨ahead, status⟩ := s
  cases ahead with
  | nil => cases status <;> rfl
  | cons x xs => rfl

variable {env}

/-- Taken apart, such a pull is a step in the engine of this depth. -/
private theorem streamStep_of_pull {s s' : Stream} {o : Outcome Item} {w w' : World} {depth : Nat}
    (h : streamPull env s (w, depth) = ((o, s'), w', depth)) :
    streamStep env (.ofDepth env depth) s w = ((o, s'), w') := by
  rw [streamPull_eq] at h
  have h₁ : (streamStep env (.ofDepth env depth) s w).1 = (o, s') := congrArg Prod.fst h
  have h₂ : (streamStep env (.ofDepth env depth) s w).2 = w' := congrArg (fun p => p.2.1) h
  exact Prod.ext h₁ h₂

end

/-! ### Situations -/

/-- What is found in a buffer, and a bound for the ranks of the buffers that its source reads. -/
structure Pledge where
  rank : Nat
  run : Run Item

/-- A world, the pledges of buffers, and the depth of an engine. -/
structure Situation where
  pledges : BufferId → Option Pledge
  world : World
  depth : Nat

/-- The entries of a cache compute what the operators are resolved to. -/
def OperatorCache.Coherent (c : OperatorCache) : Prop := ∀ p ∈ c.entries, p.1.resolve = .ok p.2.rule

/-- The values that have arrived are the ones that are expected, the operators are what they ought to be,
and pledges are about buffers that exist. -/
structure Situation.Sane (values : List (DeferredId × Except Error (List Item))) (ω : Situation) :
    Prop where
  arrivals : ∀ d v, ω.world.arrivals.lookup d = some v → values.lookup d = some v
  operators : ω.world.operators.Coherent
  pledged : ∀ b p, ω.pledges b = some p → b < ω.world.buffers.size

/-- Pledges and values stay, and buffers grow. -/
structure Evolves (ω ω' : Situation) : Prop where
  pledges : ∀ b p, ω.pledges b = some p → ω'.pledges b = some p
  arrivals : ∀ d v, ω.world.arrivals.lookup d = some v → ω'.world.arrivals.lookup d = some v
  buffers : ∀ (b : BufferId) (β : Buffer), ω.world.buffers[b]? = some β →
    ∃ β' : Buffer, ω'.world.buffers[b]? = some β' ∧ β.items.size ≤ β'.items.size

namespace Evolves

variable {ω ω' ω'' : Situation}

theorem refl (ω : Situation) : Evolves ω ω :=
  ⟨fun _ _ h => h, fun _ _ h => h, fun _ β h => ⟨β, h, Nat.le_refl _⟩⟩

theorem trans (h : Evolves ω ω') (h' : Evolves ω' ω'') : Evolves ω ω'' where
  pledges b p hp := h'.pledges b p (h.pledges b p hp)
  arrivals d v hv := h'.arrivals d v (h.arrivals d v hv)
  buffers b β hβ := by
    obtain ⟨β', hβ', hle⟩ := h.buffers b β hβ
    obtain ⟨β'', hβ'', hle'⟩ := h'.buffers b β' hβ'
    exact ⟨β'', hβ'', Nat.le_trans hle hle'⟩

end Evolves

/-- An evolution towards a sane situation that leaves alone the buffers of the kind `S`, by number and
rank. No pledges of this kind are made. -/
structure Moves (values : List (DeferredId × Except Error (List Item))) (S : BufferId → Nat → Prop)
    (ω ω' : Situation) : Prop where
  evolves : Evolves ω ω'
  sane : ω'.Sane values
  kept : ∀ b p, ω'.pledges b = some p → S b p.rank →
    ω.pledges b = some p ∧ ω'.world.buffers[b]? = ω.world.buffers[b]?

namespace Moves

variable {values : List (DeferredId × Except Error (List Item))} {S S' : BufferId → Nat → Prop}
  {ω ω' ω'' : Situation}

theorem refl (h : ω.Sane values) : Moves values S ω ω := ⟨.refl ω, h, fun _ _ hp _ => ⟨hp, rfl⟩⟩

theorem trans (h : Moves values S ω ω') (h' : Moves values S ω' ω'') : Moves values S ω ω'' where
  evolves := h.evolves.trans h'.evolves
  sane := h'.sane
  kept b p hp hS := by
    obtain ⟨hp', hb'⟩ := h'.kept b p hp hS
    obtain ⟨hp, hb⟩ := h.kept b p hp' hS
    exact ⟨hp, hb'.trans hb⟩

theorem mono (h : Moves values S ω ω') (hS : ∀ b r, S' b r → S b r) : Moves values S' ω ω' :=
  ⟨h.evolves, h.sane, fun b p hp hb => h.kept b p hp (hS b p.rank hb)⟩

/-- The depth does not matter. -/
theorem atDepth (h : ω.Sane values) (depth : Nat) : Moves values S ω { ω with depth } :=
  ⟨⟨fun _ _ h => h, fun _ _ h => h, fun _ β h => ⟨β, h, Nat.le_refl _⟩⟩,
    ⟨h.arrivals, h.operators, h.pledged⟩, fun _ _ hp _ => ⟨hp, rfl⟩⟩

end Moves

/-! ### Regimes by rank -/

section

variable (env : Environment) (values : List (DeferredId × Except Error (List Item)))

/-- What is demanded of the buffers of ranks below `k`. It does not depend on anything else. -/
structure Standard (k : Nat) where
  holds : Situation → Prop
  sane : ∀ {ω}, holds ω → ω.Sane values
  stable : ∀ {ω ω'}, holds ω → Moves values (fun _ r => r < k) ω ω' → holds ω'

variable {values} in
/-- The regime of a standard. -/
abbrev Standard.regime {k : Nat} (S : Standard values k) : Regime (World × Nat) where
  Situation := Situation
  world ω := (ω.world, ω.depth)
  Valid ω := k < ω.depth ∧ S.holds ω
  evolves := Evolves
  drift ω ω' := Moves values (fun _ r => r < k) ω ω' ∧ ω'.depth = ω.depth
  effect ω ω' := Moves values (fun _ r => k ≤ r) ω ω' ∧ ω'.depth = ω.depth
  settled ω := ∀ d v, values.lookup d = some v → ω.world.arrivals.lookup d = some v
  evolves_refl := .refl
  evolves_trans := .trans
  drift_trans h h' := ⟨h.1.trans h'.1, h'.2.trans h.2⟩
  effect_trans h h' := ⟨h.1.trans h'.1, h'.2.trans h.2⟩
  evolves_of_drift h := h.1.evolves
  evolves_of_effect h := h.1.evolves
  drift_of_valid h := ⟨.refl (S.sane h.2), rfl⟩
  drift_of_effect h := ⟨.refl h.1.sane, rfl⟩
  effect_of_drift h := ⟨.refl h.1.sane, rfl⟩
  valid_of_drift h h' := ⟨h'.2 ▸ h.1, S.stable h.2 h'.1⟩
  settled_of_evolves h hs d v hv := h.arrivals d v (hs d v hv)

variable {values} in
/-- The rest of a run is still to be produced by the source of a buffer, or it is the end or an error that is
kept instead of the source. -/
inductive Remains {k : Nat} (S : Standard values k) (ω : Situation) :
    Option Stream → Option Error → Run Item → Prop where
  | source {s : Stream} {r : Run Item} (h : Produces S.regime (streamPull env) ω s r) :
      Remains S ω (some s) none r
  | done : Remains S ω none none ⟨[], .done⟩
  | failed {e : Error} {P : Error → Prop} (h : P e) : Remains S ω none (some e) ⟨[], .fails P⟩

variable {values} in
/-- A buffer holds the first items of a run, and the rest remains. -/
def Served {k : Nat} (S : Standard values k) (ω : Situation) (b : BufferId) (r : Run Item) : Prop :=
  ∃ (β : Buffer) (rest : Run Item), ω.world.buffers[b]? = some β ∧ r = rest.prepend β.items.toList ∧
    Remains env S ω β.source β.error rest

variable {env values} in
/-- A buffer that has not changed is served later, too. -/
private theorem Served.later {k : Nat} {S : Standard values k} {ω ω' : Situation} {b : BufferId}
    {r : Run Item} (h : Served env S ω b r) (hω : Evolves ω ω')
    (hb : ω'.world.buffers[b]? = ω.world.buffers[b]?) : Served env S ω' b r := by
  obtain ⟨⟨items, source, error⟩, rest, hβ, hr, hs⟩ := h
  refine ⟨⟨items, source, error⟩, rest, hb.trans hβ, hr, ?_⟩
  cases hs with
  | source h => exact .source (Produces.later (F := S.regime) h hω)
  | done => exact .done
  | failed h => exact .failed h

/-- The standard for buffers of ranks below `k`: they are served under the regimes of their ranks. -/
def standard : (k : Nat) → Standard values k
  | 0 => {
      holds := Situation.Sane values
      sane := id
      stable := fun _ h => h.sane }
  | k + 1 => {
      holds := fun ω => (standard k).holds ω ∧
        ∀ b r, ω.pledges b = some ⟨k, r⟩ → Served env (standard k) ω b r
      sane := fun h => (standard k).sane h.1
      stable := fun {ω ω'} h h' => by
        refine ⟨(standard k).stable h.1 (h'.mono fun _ r hr => Nat.lt_succ_of_lt hr), fun b r hb => ?_⟩
        obtain ⟨hb', heq⟩ := h'.kept b ⟨k, r⟩ hb (Nat.lt_succ_self k)
        exact (h.2 b r hb').later h'.evolves heq }

/-- The regime of streams that read buffers of ranks below `k`. -/
abbrev regime (k : Nat) : Regime (World × Nat) := (standard env values k).regime

variable {env values}

/-- The recursion over ranks, unfolded: every buffer of a smaller rank is served under the regime of its own.
-/
theorem standard_holds_iff {k : Nat} {ω : Situation} : (standard env values k).holds ω ↔
    ω.Sane values ∧ ∀ b p, ω.pledges b = some p → p.rank < k →
      Served env (standard env values p.rank) ω b p.run := by
  induction k with
  | zero => exact ⟨fun h => ⟨h, fun _ _ _ hr => absurd hr (Nat.not_lt_zero _)⟩, And.left⟩
  | succ k ih =>
    constructor
    · rintro ⟨h, hk⟩
      obtain ⟨hs, hlt⟩ := ih.mp h
      refine ⟨hs, fun b p hp hr => ?_⟩
      obtain hr | hr := Nat.lt_succ_iff_lt_or_eq.mp hr
      · exact hlt b p hp hr
      · obtain ⟨_, r⟩ := p
        subst hr
        exact hk b r hp
    · rintro ⟨hs, hlt⟩
      refine ⟨ih.mpr ⟨hs, fun b p hp hr => hlt b p hp (Nat.lt_succ_of_lt hr)⟩, fun b r hb => ?_⟩
      exact hlt b ⟨k, r⟩ hb (Nat.lt_succ_self k)

end

/-! ### More buffers -/

section

variable {env : Environment} {values : List (DeferredId × Except Error (List Item))} {j k : Nat}
  {ω ω' : Situation}

/-- A situation is in order again, if the buffers are as they were before or are served anew. -/
theorem holds_renew (h : (standard env values k).holds ω) (hω : Evolves ω ω') (hs : ω'.Sane values)
    (hb : ∀ b p, ω'.pledges b = some p → p.rank < k →
      (ω.pledges b = some p ∧ ω'.world.buffers[b]? = ω.world.buffers[b]?) ∨
        Served env (standard env values p.rank) ω' b p.run) :
    (standard env values k).holds ω' := by
  refine standard_holds_iff.mpr ⟨hs, fun b p hp hr => ?_⟩
  obtain ⟨hp', heq⟩ | hserved := hb b p hp hr
  · exact ((standard_holds_iff.mp h).2 b p hp' hr).later hω heq
  · exact hserved

/-- There is an engine below. -/
theorem exists_depth_eq (h : (regime env values k).Valid ω) : ∃ depth, ω.depth = depth + 1 :=
  Nat.exists_eq_add_one_of_ne_zero (Nat.ne_of_gt (Nat.zero_lt_of_lt h.1))

/-- What is in order for more buffers is so for fewer. -/
theorem valid_of_le (hjk : j ≤ k) (h : (regime env values k).Valid ω) :
    (regime env values j).Valid ω := by
  obtain ⟨hs, hlt⟩ := standard_holds_iff.mp h.2
  refine ⟨Nat.lt_of_le_of_lt hjk h.1, standard_holds_iff.mpr ⟨hs, fun b p hp hr => ?_⟩⟩
  exact hlt b p hp (Nat.lt_of_lt_of_le hr hjk)

/-- What is in order for fewer buffers is so for more, if the others are as they were before. -/
theorem valid_of_kept (h : (regime env values k).Valid ω)
    (hm : Moves values (fun _ r => j ≤ r ∧ r < k) ω ω') (hd : ω'.depth = ω.depth)
    (h' : (regime env values j).Valid ω') : (regime env values k).Valid ω' := by
  refine ⟨hd ▸ h.1, holds_renew h.2 hm.evolves hm.sane fun b p hp hr => ?_⟩
  by_cases hrj : p.rank < j
  · exact .inr ((standard_holds_iff.mp h'.2).2 b p hp hrj)
  · exact .inl (hm.kept b p hp ⟨Nat.le_of_not_lt hrj, hr⟩)

/-- What a stream of a smaller rank does is something that one of a larger rank may do. -/
theorem effect_of_le (hjk : j ≤ k) (h : (regime env values j).effect ω ω') :
    (regime env values k).effect ω ω' :=
  ⟨h.1.mono fun _ _ hr => Nat.le_trans hjk hr, h.2⟩

/-- What may happen beside a stream of a larger rank may happen beside one of a smaller rank. -/
private theorem drift_of_le (hjk : j ≤ k) (h : (regime env values k).drift ω ω') :
    (regime env values j).drift ω ω' :=
  ⟨h.1.mono fun _ _ hr => Nat.lt_of_lt_of_le hr hjk, h.2⟩

variable {α σ : Type} {pull : σ → StateM (World × Nat) (Outcome α × σ)} {s : σ} {r : Run α} {xs : List α}

/-- A pull under the regime of fewer buffers is one under the regime of more. The other buffers stay as
they are: no step touches them, and no drift does. -/
theorem Reports.lift {Q : Outcome α → Situation → σ → Prop} {ω₁ : Situation} (hjk : j ≤ k)
    (hm : Moves values (fun _ r => j ≤ r ∧ r < k) ω ω₁ ∧ ω₁.depth = ω.depth)
    (h : Reports (regime env values j) pull Q ω₁ s) :
    Reports (regime env values k) pull (fun o ω' s' =>
      Q o ω' s' ∧ Moves values (fun _ r => j ≤ r ∧ r < k) ω ω' ∧ ω'.depth = ω.depth) ω₁ s := by
  refine h.induction (P := fun (ω₁ : Situation) s =>
    Moves values (fun _ r => j ≤ r ∧ r < k) ω ω₁ ∧ ω₁.depth = ω.depth →
      Reports (regime env values k) pull (fun o ω' s' => Q o ω' s' ∧
        Moves values (fun _ r => j ≤ r ∧ r < k) ω ω' ∧ ω'.depth = ω.depth) ω₁ s) ?_ hm
  intro ω₁ s h hm
  refine .of_steps fun ω₂ h₂ => ?_
  obtain ⟨o, s', ω', hp, he, hy, hq⟩ := h ω₂ (drift_of_le hjk h₂)
  have hm' : Moves values (fun _ r => j ≤ r ∧ r < k) ω ω' ∧ ω'.depth = ω.depth :=
    ⟨(hm.1.trans (h₂.1.mono fun _ _ hr => hr.2)).trans (he.1.mono fun _ _ hr => hr.1),
      he.2.trans (h₂.2.trans hm.2)⟩
  exact ⟨o, s', ω', hp, effect_of_le hjk he, fun ho => (hy ho).2 hm', fun ho => ⟨hq ho, hm'⟩⟩

/-- **Lifting**: a stream keeps producing the same among more buffers. -/
theorem Produces.lift (hjk : j ≤ k) (h : Produces (regime env values j) pull ω s r) :
    Produces (regime env values k) pull ω s r := by
  refine .coinduction (fun ω s r => Produces (regime env values j) pull ω s r) ?_ h
  intro ω s r h hr ω₁ h₁ hv
  have hsane := (standard env values k).sane hv.2
  refine ((h.reports hr h₁ (valid_of_le hjk hv)).lift hjk ⟨.refl hsane, rfl⟩).mono ?_
  rintro o ω' s' - ⟨hc, hm, hd⟩
  exact hc.transfer (valid_of_kept hv hm hd hc.valid) id fun _ h => .inr h

/-- A stream delivers the same among more buffers. -/
private theorem Delivers.lift (hjk : j ≤ k) (h : Delivers (regime env values j) pull ω s xs) :
    Delivers (regime env values k) pull ω s xs :=
  produces_complete_iff.1 ((produces_complete_iff.2 h).lift hjk)

/-- The same for actions that give a stream. -/
theorem opens_of_le {δ : Type} {f : StateM (World × Nat) δ} {out : σ → δ} (hjk : j ≤ k)
    (h : (regime env values j).Opens pull ω f out xs) : (regime env values k).Opens pull ω f out xs := by
  intro ω₁ h₁ hv
  obtain ⟨s, ω₂, hf, he, hv₂, hd⟩ := h ω₁ h₁ (valid_of_le hjk hv)
  refine ⟨s, ω₂, hf, effect_of_le hjk he, ?_, hd.lift hjk⟩
  exact valid_of_kept hv (he.1.mono fun _ _ hr => hr.1) he.2 hv₂

end

/-! ### Readers -/

section

variable {env : Environment} {values : List (DeferredId × Except Error (List Item))} {j k : Nat}
  {ω ω' : Situation} {b : BufferId} {r : Run Item} {xs : List Item} {s s' : Stream} {o : Outcome Item}

/-- The situation after a pull of the source of a buffer has been recorded. -/
def Situation.record (ω : Situation) (b : BufferId) (o : Outcome Item) (s : Stream) (depth : Nat) :
    Situation :=
  ⟨ω.pledges, { ω.world with buffers := ω.world.buffers.modify b (·.record o s) }, depth⟩

/-- The same situation for the engine below. -/
def Situation.below (ω : Situation) : Situation := { ω with depth := ω.depth - 1 }

/-- A buffer after a pull of its source. -/
private theorem record_buffers_self {β : Buffer} (h : ω.world.buffers[b]? = some β) (o : Outcome Item)
    (s : Stream) (depth : Nat) : (ω.record b o s depth).world.buffers[b]? = some (β.record o s) := by
  simp only [Situation.record, Array.getElem?_modify, if_true, h, Option.map_some]

/-- Other buffers are not changed by it. -/
private theorem record_buffers_of_ne {b' : BufferId} (h : b' ≠ b) (o : Outcome Item) (s : Stream) (depth : Nat) :
    (ω.record b o s depth).world.buffers[b']? = ω.world.buffers[b']? := by
  simp only [Situation.record, Array.getElem?_modify, if_neg h.symm]

/-- Buffers only grow. -/
private theorem BufferOf.size_record {α σ : Type} (β : BufferOf α σ) (o : Outcome α) (s : σ) :
    β.items.size ≤ (β.record o s).items.size := by
  cases o with
  | item x => simp [record]
  | done | suspended | failed | skip => exact Nat.le_refl _

/-- Recording a pull changes only one buffer. -/
theorem Moves.record (h : ω.Sane values) (hb : ω.pledges b = some ⟨j, r⟩) (o : Outcome Item) (s : Stream)
    (depth : Nat) : Moves values (fun b' r => b' ≠ b ∨ r ≠ j) ω (ω.record b o s depth) where
  evolves := by
    refine ⟨fun _ _ h => h, fun _ _ h => h, fun b' β hβ => ?_⟩
    by_cases hb' : b' = b
    · subst hb'
      exact ⟨_, record_buffers_self hβ o s depth, β.size_record o s⟩
    · exact ⟨β, (record_buffers_of_ne hb' o s depth).trans hβ, Nat.le_refl _⟩
  sane := ⟨h.arrivals, h.operators, fun b' p hp => by
    simpa [Situation.record] using h.pledged b' p hp⟩
  kept b' p hp hS := by
    refine ⟨hp, record_buffers_of_ne ?_ o s depth⟩
    rintro rfl
    have hp : ω.pledges b' = some p := hp
    rw [hb] at hp
    cases hp
    exact hS.elim (absurd rfl) (absurd rfl)

/-- A buffer is served again when its source has reported what comes next. -/
theorem served_record {items : Array Item} {rest : Run Item} {ω₀ : Situation} (depth : Nat)
    (hr : r = rest.prepend items.toList) (hω : Evolves ω (ω.record b o s' depth))
    (hb : ω.world.buffers[b]? = some ⟨items, some s, none⟩)
    (hc : Reported (regime env values j) (Produces (regime env values j) (streamPull env)) ω₀ rest o
      ω s') : Served env (standard env values j) (ω.record b o s' depth) b r := by
  have hb' := record_buffers_self hb o s' depth
  obtain ⟨x, xs, t, rfl, rfl, h⟩ | ⟨rfl, rfl⟩ | ⟨P, e, rfl, rfl, he⟩ | ⟨d, rfl, -, h⟩ := hc.cases
  · refine ⟨_, _, hb', ?_, .source (Produces.later (F := regime env values j) h hω)⟩
    simp [BufferOf.record, hr, Run.prepend]
  · exact ⟨_, _, hb', hr, .done⟩
  · exact ⟨_, _, hb', hr, .failed he⟩
  · exact ⟨_, _, hb', hr, .source (Produces.later (F := regime env values j) h hω)⟩

/-- A reader that does not have to pull the source. -/
theorem cursorStep_reader_peek {w : World} {β : Buffer} {position : Nat} (h : w.buffers[b]? = some β)
    (hp : β.peek position = .inl o) (depth : Nat) : cursorStep env (.reader b position) (w, depth) =
      ((o, .reader b (BufferOf.positionAfter position o)), w, depth) := by
  simp only [cursorStep, atDepth, Cursor.step, readerStep, World.peekBuffer, bind, StateT.bind, get,
    getThe, MonadStateOf.get, StateT.get, pure, h, hp]
  rfl

/-- A reader that pulls the source, by the engine below. -/
theorem cursorStep_reader_pull {w w' : World} {β : Buffer} {position depth : Nat}
    (h : w.buffers[b]? = some β) (hs : β.peek position = .inr s)
    (hp : streamPull env s (w, depth) = ((o, s'), w', depth)) :
    cursorStep env (.reader b position) (w, depth + 1) =
      ((o, .reader b (BufferOf.positionAfter position o)),
        { w' with buffers := w'.buffers.modify b (·.record o s') }, depth + 1) := by
  have hp' : (Engine.ofDepth env (depth + 1)).step s w = ((o, s'), w') := streamStep_of_pull hp
  have hpeek : World.peekBuffer b position w = (.inr s, w) := by
    simp only [World.peekBuffer, bind, StateT.bind, get, getThe, MonadStateOf.get, StateT.get, pure, h, hs]
    rfl
  simp only [cursorStep, atDepth, Cursor.step, readerStep, bind, StateT.bind, hpeek, hp']
  rfl

/-- A run without its first items. -/
def Run.drop {α : Type} (n : Nat) (r : Run α) : Run α := ⟨r.items.drop n, r.tail⟩

/-- The rest of a run after the items in front of it. -/
theorem Run.drop_prepend {α : Type} {items : Array α} (rest : Run α) :
    (rest.prepend items.toList).drop items.size = rest := by
  simp [drop, prepend]

/-- The reports of a reader: it is somewhere in the buffer, and finds the rest of what was pledged. -/
def Reading (j : Nat) (b : BufferId) (r : Run Item) (ω : Situation) (c : Cursor) (r' : Run Item) : Prop :=
  ω.pledges b = some ⟨j, r⟩ ∧ ∃ (position : Nat) (β : Buffer), c = .reader b position ∧
    r' = r.drop position ∧ ω.world.buffers[b]? = some β ∧ position ≤ β.items.size

/-- What is known about a situation between two pulls of the source of the buffer `b`, in the course of a
pull of a reader that has begun in the situation `ω₀`. -/
structure Pulling (values : List (DeferredId × Except Error (List Item))) (j k : Nat) (b : BufferId)
    (items : Array Item) (ω₀ ω : Situation) (s : Stream) : Prop where
  buffer : ω.world.buffers[b]? = some ⟨items, some s, none⟩
  moves : Moves values (fun b' r => b' ≠ b ∧ j ≤ r ∧ r < k) ω₀ ω
  depth : ω.depth = ω₀.depth

/-- The engine below sees the same buffers. -/
private theorem Moves.below {S : BufferId → Nat → Prop} (h : Moves values S ω ω') :
    Moves values S ω.below ω'.below :=
  ⟨⟨h.evolves.pledges, h.evolves.arrivals, h.evolves.buffers⟩,
    ⟨h.sane.arrivals, h.sane.operators, h.sane.pledged⟩, h.kept⟩

/-- When the source has reported, everything is in order again. -/
theorem valid_record {items : Array Item} {rest : Run Item} {ω₀ ω₁ : Situation}
    (hv : (regime env values k).Valid ω₀) (hb : ω₀.pledges b = some ⟨j, r⟩)
    (hrun : r = rest.prepend items.toList) (hbuf : ω.world.buffers[b]? = some ⟨items, some s, none⟩)
    (hm : Moves values (fun b' r => b' ≠ b ∧ j ≤ r ∧ r < k) ω₀ ω)
    (hc : Reported (regime env values j) (Produces (regime env values j) (streamPull env)) ω₁ rest o
      ω s') : (regime env values k).Valid (ω.record b o s' ω₀.depth) := by
  have hbω : ω.pledges b = some ⟨j, r⟩ := hm.evolves.pledges b _ hb
  have hr := Moves.record hm.sane hbω o s' ω₀.depth
  have hm := hm.trans (hr.mono fun _ _ hr => .inl hr.1)
  refine ⟨hv.1, holds_renew hv.2 hm.evolves hm.sane fun b' p hp hlt => ?_⟩
  by_cases hb' : b' = b
  · subst hb'
    obtain rfl : (⟨j, r⟩ : Pledge) = p := Option.some.inj (hbω.symm.trans hp)
    exact .inr (served_record _ hrun hr.evolves hbuf hc)
  by_cases hj : j ≤ p.rank
  · exact .inl (hm.kept b' p hp ⟨hb', hj, hlt⟩)
  · have hserved := (standard_holds_iff.mp hc.valid.2).2 b' p hp (Nat.lt_of_not_le hj)
    exact .inr (hserved.later hr.evolves (record_buffers_of_ne hb' o s' _))

/-- A pull of a reader that has caught up with its buffer, along the pull of the source. -/
theorem catching_up_reports {items : Array Item} {rest : Run Item} {ω₀ : Situation} (hjk : j < k)
    (hv : (regime env values k).Valid ω₀) (hb : ω₀.pledges b = some ⟨j, r⟩)
    (hrun : r = rest.prepend items.toList)
    (hs : Reports (regime env values j) (streamPull env)
      (Reported (regime env values j) (Produces (regime env values j) (streamPull env)) ω₀.below rest)
      ω.below s) (hp : Pulling values j k b items ω₀ ω s) :
    Reports (regime env values k) (cursorStep env)
      (Reported (regime env values k) (Reading j b r) ω₀ rest) ω (.reader b items.size) := by
  refine hs.induction (P := fun (ωs : Situation) s => ∀ ω, (regime env values j).drift ωs ω.below →
    Pulling values j k b items ω₀ ω s → Reports (regime env values k) (cursorStep env)
      (Reported (regime env values k) (Reading j b r) ω₀ rest) ω (.reader b items.size)) ?_ ω
    ⟨.refl ⟨hp.moves.sane.arrivals, hp.moves.sane.operators, hp.moves.sane.pledged⟩, rfl⟩ hp
  clear hs hp
  intro ωs s h ω hωs hp
  refine .of_steps fun ω₁ h₁ => ?_
  have hd₁ : ω₁.depth = ω₀.depth := h₁.2.trans hp.depth
  have hb₁ : ω₁.pledges b = some ⟨j, r⟩ :=
    h₁.1.evolves.pledges b _ (hp.moves.evolves.pledges b _ hb)
  have hbuf₁ : ω₁.world.buffers[b]? = some ⟨items, some s, none⟩ :=
    (h₁.1.kept b _ hb₁ hjk).2.trans hp.buffer
  -- the source is pulled by the engine below
  have hωs₁ : (regime env values j).drift ωs ω₁.below :=
    ⟨hωs.1.trans (h₁.1.below.mono fun _ _ hr => Nat.lt_trans hr hjk),
      (congrArg (· - 1) h₁.2).trans hωs.2⟩
  obtain ⟨o, s', ω', hpull, he, hy, hq⟩ := h ω₁.below hωs₁
  have hpull : streamPull env s (ω₁.world, ω₁.depth - 1) = ((o, s'), ω'.world, ω'.depth) := hpull
  have hd' : ω'.depth = ω₁.depth - 1 := he.2
  have hsucc : ω₁.depth = ω₁.depth - 1 + 1 := by have := hv.1; omega
  have hpeek : (⟨items, some s, none⟩ : Buffer).peek items.size = .inr s := by simp [BufferOf.peek]
  have hstep : cursorStep env (.reader b items.size) (ω₁.world, ω₁.depth) =
      ((o, .reader b (BufferOf.positionAfter items.size o)),
        (ω'.record b o s' ω₁.depth).world, ω₁.depth) := by
    rw [hd'] at hpull
    rw [hsucc]
    exact cursorStep_reader_pull hbuf₁ hpeek hpull
  -- from the pull of the source to the situation after it has been recorded
  have hsane₁ := h₁.1.sane
  have hm₁ : Moves values (fun _ r => j ≤ r) ω₁ ω' := (Moves.atDepth hsane₁ _).trans he.1
  have hb' : ω'.pledges b = some ⟨j, r⟩ := hm₁.evolves.pledges b _ hb₁
  have hbuf' : ω'.world.buffers[b]? = some ⟨items, some s, none⟩ :=
    (hm₁.kept b _ hb' (Nat.le_refl j)).2.trans hbuf₁
  have hr := Moves.record he.1.sane hb' o s' ω₁.depth
  have heff : (regime env values k).effect ω₁ (ω'.record b o s' ω₁.depth) := by
    refine ⟨(hm₁.mono fun _ r hr => ?_).trans (hr.mono fun _ r hr => .inr ?_), rfl⟩ <;> omega
  have hm : Moves values (fun b' r => b' ≠ b ∧ j ≤ r ∧ r < k) ω₀ ω' :=
    (hp.moves.trans (h₁.1.mono fun _ _ hr => hr.2.2)).trans (hm₁.mono fun _ _ hr => hr.2.1)
  by_cases ho : o = .skip
  · subst ho
    refine .skip hstep heff ((hy rfl).2 _ ⟨?_, ?_⟩ ⟨record_buffers_self hbuf' _ _ _, ?_, hd₁⟩)
    · exact (hr.mono fun _ _ hr => .inr (Nat.ne_of_lt hr)).trans (Moves.atDepth hr.sane _)
    · exact hd'.symm
    · exact hm.trans (hr.mono fun _ _ hr => .inl hr.1)
  · have hc := hq ho
    have hv' : (regime env values k).Valid (ω'.record b o s' ω₁.depth) :=
      hd₁ ▸ valid_record hv hb hrun hbuf' hm hc
    refine .report hstep heff ho ?_
    have hbuf'' := record_buffers_self hbuf' o s' ω₁.depth
    obtain ⟨x, xs, t, rfl, rfl, -⟩ | ⟨rfl, rfl⟩ | ⟨P, e, rfl, rfl, he⟩ | ⟨d, rfl, hns, -⟩ := hc.cases
    · refine .item hv' ⟨hb', items.size + 1, _, rfl, ?_, hbuf'', ?_⟩
      · simp [hrun, Run.drop, Run.prepend, List.drop_append]
      · simp [BufferOf.record]
    · exact .done hv'
    · exact .failed hv' he
    · refine .suspended hv' hns ⟨hb', items.size, _, rfl, ?_, hbuf'', Nat.le_refl _⟩
      rw [hrun, Run.drop_prepend]

/-- **Readers**: what is found in a buffer is what was pledged. -/
theorem reader_produces {β : Buffer} {position : Nat} (hjk : j < k) (hb : ω.pledges b = some ⟨j, r⟩)
    (hβ : ω.world.buffers[b]? = some β) (hp : position ≤ β.items.size) :
    Produces (regime env values k) (cursorStep env) ω (.reader b position) (r.drop position) := by
  refine .coinduction (Reading j b r) ?_ ⟨hb, position, β, rfl, rfl, hβ, hp⟩
  clear hb hβ hp
  rintro ω _ _ ⟨hb, position, β₀, rfl, rfl, hβ₀, hp⟩ hne ω₁ h₁ hv
  have hb₁ : ω₁.pledges b = some ⟨j, r⟩ := h₁.pledges b _ hb
  obtain ⟨β, rest, hβ, hr, hs⟩ := (standard_holds_iff.mp hv.2).2 b _ hb₁ hjk
  have hr : r = rest.prepend β.items.toList := hr
  have hp : position ≤ β.items.size := by
    obtain ⟨β', hβ', hle⟩ := h₁.buffers b β₀ hβ₀
    obtain rfl : β' = β := Option.some.inj (hβ'.symm.trans hβ)
    exact Nat.le_trans hp hle
  -- without a pull of the source
  have peek {o : Outcome Item} (ho : β.peek position = .inl o)
      (hc : ∀ ω₂, (regime env values k).Valid ω₂ → ω₂.pledges b = some ⟨j, r⟩ →
        ω₂.world.buffers[b]? = some β → Reported (regime env values k) (Reading j b r) ω₁
          (r.drop position) o ω₂ (.reader b (BufferOf.positionAfter position o))) :
      Reports (regime env values k) (cursorStep env)
        (Reported (regime env values k) (Reading j b r) ω₁ (r.drop position)) ω₁
        (.reader b position) := by
    refine .of_steps fun ω₂ h₂ => ?_
    have hb₂ : ω₂.pledges b = some ⟨j, r⟩ := h₂.1.evolves.pledges b _ hb₁
    have hβ₂ : ω₂.world.buffers[b]? = some β := (h₂.1.kept b _ hb₂ hjk).2.trans hβ
    refine .reported (cursorStep_reader_peek hβ₂ ho ω₂.depth) ⟨.refl h₂.1.sane, rfl⟩ ?_
    exact hc ω₂ ((regime env values k).valid_of_drift hv h₂) hb₂ hβ₂
  suffices h : Reports (regime env values k) (cursorStep env)
      (Reported (regime env values k) (Reading j b r) ω₁ (r.drop position)) ω₁
      (.reader b position) from
    h.mono fun o ω' s' _ hc => hc.mono fun _ _ _ h => .inr h
  obtain hlt | rfl := Nat.lt_or_eq_of_le hp
  · have hx : β.items[position]? = some β.items[position] := Array.getElem?_eq_getElem hlt
    have hdrop : r.drop position = ⟨β.items[position] :: r.items.drop (position + 1), r.tail⟩ := by
      have hlen : position < r.items.length := by simp [hr, Run.prepend]; omega
      rw [Run.drop, List.drop_eq_getElem_cons hlen]
      simp [hr, Run.prepend, hlt]
    refine peek (o := .item β.items[position]) (by simp [BufferOf.peek, hx]) fun ω₂ hv₂ hb₂ hβ₂ => ?_
    rw [hdrop]
    exact .item hv₂ ⟨hb₂, position + 1, β, rfl, rfl, hβ₂, hlt⟩
  · have hrest : r.drop β.items.size = rest := by rw [hr, Run.drop_prepend]
    rw [hrest] at hne peek ⊢
    obtain ⟨items, source, error⟩ := β
    cases hs with
    | done =>
      exact peek (o := .done) (by simp [BufferOf.peek]) fun ω₂ hv₂ _ _ => .done hv₂
    | @failed e P he =>
      exact peek (o := .failed e) (by simp [BufferOf.peek]) fun ω₂ hv₂ _ _ => .failed hv₂ he
    | @source s _ hs =>
      have hsane := (standard env values k).sane hv.2
      have hbelow : (regime env values j).Valid ω₁.below := by
        refine ⟨?_, (standard env values j).stable (valid_of_le (Nat.le_of_lt hjk) hv).2 (.atDepth hsane _)⟩
        have := hv.1
        simp only [Situation.below]
        omega
      have hs : Produces (regime env values j) (streamPull env) ω₁ s rest := hs
      exact catching_up_reports hjk hv hb₁ hr
        (hs.reports hne (Moves.atDepth (S := fun _ _ => True) hsane _).evolves hbelow)
        ⟨hβ, .refl hsane, rfl⟩

/-- A reading of a buffer from the beginning. -/
theorem buffered_produces (hjk : j < k) (hb : ω.pledges b = some ⟨j, r⟩)
    (hsane : ω.Sane values) : Produces (regime env values k) (streamPull env) ω (.run (.reader b 0)) r := by
  have hlt : b < ω.world.buffers.size := hsane.pledged b _ hb
  exact StreamOf.produces_run (reader_produces hjk hb (Array.getElem?_eq_getElem hlt) (Nat.zero_le _))

/-- A buffer that holds a complete list is read once more by a new reader, which delivers this list. -/
theorem buffered_opens (hjk : j < k) (hb : ω.pledges b = some ⟨j, .complete xs⟩) :
    (regime env values k).Opens (streamPull env) ω (atDepth env fun E => E.replay (.buffered b)) id xs := by
  intro ω₁ h₁ hv
  have hb₁ : ω₁.pledges b = some ⟨j, .complete xs⟩ := h₁.pledges b _ hb
  have hsane := (standard env values k).sane hv.2
  refine ⟨.run (.reader b 0), ω₁, ?_, ⟨.refl hsane, rfl⟩, hv,
    produces_complete_iff.1 (buffered_produces hjk hb₁ hsane)⟩
  obtain ⟨depth, hd⟩ := exists_depth_eq hv
  simp only [atDepth, hd]
  rfl

/-! ### New buffers -/

/-- The situation with a new buffer. -/
def Situation.newBuffer (ω : Situation) (s : Stream) (p : Pledge) : Situation where
  pledges := Function.update ω.pledges ω.world.buffers.size (some p)
  world := { ω.world with buffers := ω.world.buffers.push (.start s) }
  depth := ω.depth

theorem newBuffer_pledges_self (ω : Situation) (s : Stream) (p : Pledge) :
    (ω.newBuffer s p).pledges ω.world.buffers.size = some p :=
  Function.update_self ..

/-- Earlier pledges are kept. -/
private theorem newBuffer_pledges_of_ne (hb : b ≠ ω.world.buffers.size) (s : Stream) (p : Pledge) :
    (ω.newBuffer s p).pledges b = ω.pledges b :=
  Function.update_of_ne hb ..

/-- So are earlier buffers. -/
private theorem newBuffer_buffers_of_ne (hb : b ≠ ω.world.buffers.size) (s : Stream) (p : Pledge) :
    (ω.newBuffer s p).world.buffers[b]? = ω.world.buffers[b]? := by
  simp only [Situation.newBuffer, Array.getElem?_push, if_neg hb]

/-- A new buffer leaves the others alone. -/
theorem Moves.newBuffer (h : ω.Sane values) (s : Stream) (p : Pledge) :
    Moves values (fun b r => b ≠ ω.world.buffers.size ∨ r ≠ p.rank) ω (ω.newBuffer s p) where
  evolves := by
    refine ⟨fun b p' hp => ?_, fun _ _ h => h, fun b β hβ => ⟨β, ?_, Nat.le_refl _⟩⟩
    · rw [newBuffer_pledges_of_ne (Nat.ne_of_lt (h.pledged b p' hp)), hp]
    · obtain ⟨hlt, -⟩ := Array.getElem?_eq_some_iff.mp hβ
      rw [newBuffer_buffers_of_ne (Nat.ne_of_lt hlt), hβ]
  sane := by
    refine ⟨h.arrivals, h.operators, fun b p' hp => ?_⟩
    have hsize : (ω.newBuffer s p).world.buffers.size = ω.world.buffers.size + 1 := Array.size_push ..
    rw [hsize]
    by_cases hb : b = ω.world.buffers.size
    · exact hb ▸ Nat.lt_succ_self _
    · rw [newBuffer_pledges_of_ne hb] at hp
      exact Nat.lt_succ_of_lt (h.pledged b p' hp)
  kept b p' hp hS := by
    by_cases hb : b = ω.world.buffers.size
    · subst hb
      rw [newBuffer_pledges_self] at hp
      cases hp
      exact hS.elim (absurd rfl) (absurd rfl)
    · exact ⟨newBuffer_pledges_of_ne hb s p ▸ hp, newBuffer_buffers_of_ne hb s p⟩

/-- A new buffer over a stream that produces a run, which is pledged. -/
theorem newBuffer_valid (hv : (regime env values k).Valid ω)
    (h : Produces (regime env values j) (streamPull env) ω s r) :
    (regime env values k).Valid (ω.newBuffer s ⟨j, r⟩) := by
  have hm := Moves.newBuffer ((standard env values k).sane hv.2) s ⟨j, r⟩
  refine ⟨hv.1, holds_renew hv.2 hm.evolves hm.sane fun b p hp _ => ?_⟩
  by_cases hb : b = ω.world.buffers.size
  · subst hb
    rw [newBuffer_pledges_self] at hp
    cases hp
    refine .inr ⟨.start s, r, by simp [Situation.newBuffer], rfl, .source ?_⟩
    exact Produces.later (F := regime env values j) h hm.evolves
  · exact .inl (hm.kept b p hp (.inl hb))

/-- A new buffer of a smaller rank is something that a stream may make. -/
theorem newBuffer_effect (hv : (regime env values k).Valid ω) (hjk : j < k) (s : Stream)
    (r : Run Item) : (regime env values k).effect ω (ω.newBuffer s ⟨j, r⟩) := by
  refine ⟨(Moves.newBuffer ((standard env values k).sane hv.2) s ⟨j, r⟩).mono fun _ r hr => .inr ?_, rfl⟩
  exact Nat.ne_of_gt (Nat.lt_of_lt_of_le hjk hr)

end

end LazyXPath
