import LazyXPath.Proofs.Delivery

/-!
# Productions

A state **produces** a run under a regime (`Produces`) if its reports are the items of the run in order and
then its end or its error, with suspensions in between. This is what a delivery is for a complete list
(`produces_complete_iff`). As for deliveries, anything may happen between two reports, and a pull that
begins when nothing is outstanding is not suspended. If the tail of the run is unknown, nothing is said
about what comes after the items.

`Produces.simulate` is the way to find the run of a state that reads another one. What a production means
for a schedule is said by `Producing.play_allows` and `Producing.play_ends`.
-/

namespace LazyXPath

variable {W α β σ τ : Type}

section

variable (F : Regime W) (pull : σ → StateM W (Outcome α × σ))

/-- A report is the next one of a run, in a pull that has begun in the situation `ω₀`; and there is `X` for
the rest. -/
inductive Reported (X : F.Situation → σ → Run α → Prop) (ω₀ : F.Situation) :
    Run α → Outcome α → F.Situation → σ → Prop where
  | item {ω : F.Situation} {s : σ} {x : α} {xs : List α} {t : Tail} (valid : F.Valid ω) (rest : X ω s ⟨xs, t⟩) :
      Reported X ω₀ ⟨x :: xs, t⟩ (.item x) ω s
  | done {ω : F.Situation} {s : σ} (valid : F.Valid ω) : Reported X ω₀ ⟨[], .done⟩ .done ω s
  | failed {ω : F.Situation} {s : σ} {P : Error → Prop} {e : Error} (valid : F.Valid ω) (error : P e) :
      Reported X ω₀ ⟨[], .fails P⟩ (.failed e) ω s
  | suspended {ω : F.Situation} {s : σ} {r : Run α} {d : DeferredId} (valid : F.Valid ω)
      (outstanding : ¬F.settled ω₀) (rest : X ω s r) : Reported X ω₀ r (.suspended d) ω s

/-- A state produces a run from a situation on. -/
def Produces (ω : F.Situation) (s : σ) (r : Run α) : Prop :=
  ∃ X : F.Situation → σ → Run α → Prop, (∀ ω s r, X ω s r → r ≠ ⟨[], .unknown⟩ → ∀ ω₁, F.evolves ω ω₁ →
    F.Valid ω₁ → Reports F pull (Reported F X ω₁ r) ω₁ s) ∧ X ω s r

variable {F pull}

/-! ### The next report -/

namespace Reported

variable {X X' : F.Situation → σ → Run α → Prop} {ω₀ ω₁ ω : F.Situation} {r : Run α} {o : Outcome α} {s : σ}

/-- What comes next is the same for a state with the same rest, also under another regime. -/
theorem transfer {V : Type} {G : Regime V} {Y : G.Situation → τ → Run α → Prop} {ω₀' ω' : G.Situation} {t : τ}
    (h : Reported F X ω₀ r o ω s) (hv : G.Valid ω') (hs : G.settled ω₀' → F.settled ω₀)
    (hX : ∀ r', X ω s r' → Y ω' t r') : Reported G Y ω₀' r o ω' t := by
  cases h with
  | item _ h => exact .item hv (hX _ h)
  | done => exact .done hv
  | failed _ he => exact .failed hv he
  | suspended _ hns h => exact .suspended hv (fun h => hns (hs h)) (hX _ h)

theorem valid (h : Reported F X ω₀ r o ω s) : F.Valid ω := by
  cases h <;> assumption

theorem cases (h : Reported F X ω₀ r o ω s) :
    (∃ x xs t, o = .item x ∧ r = ⟨x :: xs, t⟩ ∧ X ω s ⟨xs, t⟩) ∨ (o = .done ∧ r = ⟨[], .done⟩) ∨
      (∃ P e, o = .failed e ∧ r = ⟨[], .fails P⟩ ∧ P e) ∨
        ∃ d, o = .suspended d ∧ ¬F.settled ω₀ ∧ X ω s r := by
  cases h with
  | item _ h => exact .inl ⟨_, _, _, rfl, rfl, h⟩
  | done => exact .inr (.inl ⟨rfl, rfl⟩)
  | failed _ he => exact .inr (.inr (.inl ⟨_, _, rfl, rfl, he⟩))
  | suspended _ hns h => exact .inr (.inr (.inr ⟨_, rfl, hns, h⟩))

theorem mono (hX : ∀ ω s r, X ω s r → X' ω s r) (h : Reported F X ω₀ r o ω s) : Reported F X' ω₀ r o ω s :=
  h.transfer h.valid id fun r' => hX ω s r'

private theorem ne_skip (h : Reported F X ω₀ r o ω s) : o ≠ .skip := by
  cases h <;> exact nofun

/-- What comes next in a pull that has begun later. -/
theorem since (h₀ : F.evolves ω₀ ω₁) (h : Reported F X ω₁ r o ω s) : Reported F X ω₀ r o ω s :=
  h.transfer h.valid (F.settled_of_evolves h₀) fun _ hX => hX

end Reported

/-- A step with the report that has to come next. -/
theorem Regime.Steps.reported {P : F.Situation → σ → Prop} {X : F.Situation → σ → Run α → Prop}
    {ω₀ ω ω' : F.Situation} {r : Run α} {o : Outcome α} {s s' : σ}
    (hp : pull s (F.world ω) = ((o, s'), F.world ω')) (he : F.effect ω ω')
    (h : Reported F X ω₀ r o ω' s') : F.Steps pull P (Reported F X ω₀ r) ω s :=
  .report hp he h.ne_skip h

/-! ### Productions -/

namespace Produces

variable {ω ω₁ : F.Situation} {s : σ} {r : Run α}

theorem reports (h : Produces F pull ω s r) (hr : r ≠ ⟨[], .unknown⟩) (h₁ : F.evolves ω ω₁)
    (hv : F.Valid ω₁) : Reports F pull (Reported F (Produces F pull) ω₁ r) ω₁ s := by
  obtain ⟨X, hX, h⟩ := h
  exact (hX ω s r h hr ω₁ h₁ hv).mono fun o ω' s' _ h' => h'.mono fun ω s r h => ⟨X, hX, h⟩

/-- **Coinduction**: a relation consists of productions, if every pull reports what comes next, and then
there is a production or the relation holds again. -/
theorem coinduction (X : F.Situation → σ → Run α → Prop)
    (hX : ∀ ω s r, X ω s r → r ≠ ⟨[], .unknown⟩ → ∀ ω₁, F.evolves ω ω₁ → F.Valid ω₁ →
      Reports F pull (Reported F (fun ω s r => Produces F pull ω s r ∨ X ω s r) ω₁ r) ω₁ s)
    (h : X ω s r) : Produces F pull ω s r := by
  refine ⟨fun ω s r => Produces F pull ω s r ∨ X ω s r, ?_, .inr h⟩
  rintro ω s r (h | h) hr ω₁ h₁ hv
  · exact (h.reports hr h₁ hv).mono fun o ω' s' _ h' => h'.mono fun ω s r h => .inl h
  · exact hX ω s r h hr ω₁ h₁ hv

private theorem of_reports (h : r ≠ ⟨[], .unknown⟩ → ∀ ω₁, F.evolves ω ω₁ → F.Valid ω₁ →
    Reports F pull (Reported F (Produces F pull) ω₁ r) ω₁ s) : Produces F pull ω s r := by
  refine coinduction (fun ω' s' r' => F.evolves ω ω' ∧ s' = s ∧ r' = r) ?_ ⟨F.evolves_refl ω, rfl, rfl⟩
  rintro ω' _ _ ⟨h', rfl, rfl⟩ hr ω₁ h₁ hv
  refine (h hr ω₁ (F.evolves_trans h' h₁) hv).mono fun o ω₂ s' _ h₂ => ?_
  exact h₂.mono fun ω s r h => .inl h

/-- Nothing is said about a run that is unknown. -/
theorem unknown (ω : F.Situation) (s : σ) : Produces F pull ω s ⟨[], .unknown⟩ :=
  of_reports fun hr => absurd rfl hr

/-- A production goes on in every later situation. -/
theorem later (h : Produces F pull ω s r) (h₁ : F.evolves ω ω₁) : Produces F pull ω₁ s r :=
  of_reports fun hr _ h₂ hv => h.reports hr (F.evolves_trans h₁ h₂) hv

/-- A report that a single step makes, whatever drift there is before it. -/
theorem of_step (h : ∀ ω₁, F.evolves ω ω₁ → F.Valid ω₁ →
    F.Steps pull (fun ω s => F.Valid ω ∧ Produces F pull ω s r) (Reported F (Produces F pull) ω₁ r) ω₁ s) :
    Produces F pull ω s r := by
  refine of_reports fun hr ω₁ h₁ hv => .of_steps fun ω₂ h₂ => ?_
  have h₁₂ : F.evolves ω₁ ω₂ := F.evolves_of_drift h₂
  refine (h ω₂ (F.evolves_trans h₁ h₁₂) (F.valid_of_drift hv h₂)).mono (fun ω' s' he hp => ?_)
    fun o ω' s' _ hc => hc.since h₁₂
  refine (hp.2.reports hr (F.evolves_refl ω') hp.1).mono fun o ω₃ s₃ _ hc => hc.since ?_
  exact F.evolves_trans h₁₂ (F.evolves_of_effect he)

variable {γ : Type} {pull' : τ → StateM W (Outcome β × τ)}

/-- If a production is reached by a step without a report, then the pull goes on with it. -/
theorem resume {X : F.Situation → σ → Run α → Prop} {ω₀ : F.Situation} (hr : r ≠ ⟨[], .unknown⟩)
    (h : F.Steps pull (fun ω s => F.Valid ω ∧ Produces F pull ω s r) (Reported F (Produces F pull) ω₀ r) ω s)
    (h₀ : F.evolves ω₀ ω) :
    F.Steps pull (Reports F pull (Reported F (fun ω s r => Produces F pull ω s r ∨ X ω s r) ω₀ r))
      (Reported F (fun ω s r => Produces F pull ω s r ∨ X ω s r) ω₀ r) ω s := by
  refine h.mono (fun ω' s' he ⟨hv, h⟩ => ?_) fun o ω' s' _ hc => hc.mono fun _ _ _ h => .inl h
  have h' : F.evolves ω₀ ω' := F.evolves_trans h₀ (F.evolves_of_effect he)
  refine (h.reports hr (F.evolves_refl ω') hv).mono fun o ω₁ s₁ _ hc => ?_
  exact (hc.since h').mono fun _ _ _ h => .inl h

/-- **Simulation**: a state that reads one sequence produces a function of its run, if this is so of every
single report. Here `g` is what the state consists of besides the sequence, and `H` is what has to be
known about it. Errors and suspensions are passed on. The states that are reached from an item may be used
for the rest of the run already. -/
theorem simulate {e : γ → σ → τ} {H : F.Situation → γ → Run α → Prop} {R : γ → Run α → Run β}
    (later : ∀ {ω ω₁ g r}, F.evolves ω ω₁ → H ω g r → H ω₁ g r)
    (pass : ∀ {g s s' w w' o}, (∀ x, o ≠ .item x) → o ≠ .done → pull s w = ((o, s'), w') →
      pull' (e g s) w = ((o.pass, e g s'), w'))
    (unknown : ∀ {ω g}, H ω g ⟨[], .unknown⟩ → R g ⟨[], .unknown⟩ = ⟨[], .unknown⟩)
    (fails : ∀ {ω g P}, H ω g ⟨[], .fails P⟩ → R g ⟨[], .fails P⟩ = ⟨[], .fails P⟩)
    (item : ∀ {ω₀ ω ω' g s s' x xs t}, H ω' g ⟨x :: xs, t⟩ →
      (∀ {ω g s}, H ω g ⟨xs, t⟩ → Produces F pull ω s ⟨xs, t⟩ → Produces F pull' ω (e g s) (R g ⟨xs, t⟩)) →
      pull s (F.world ω) = ((.item x, s'), F.world ω') → F.effect ω ω' → F.Valid ω' →
      Produces F pull ω' s' ⟨xs, t⟩ →
      F.Steps pull' (fun ω t' => F.Valid ω ∧ Produces F pull' ω t' (R g ⟨x :: xs, t⟩))
        (Reported F (Produces F pull') ω₀ (R g ⟨x :: xs, t⟩)) ω (e g s))
    (done : ∀ {ω₀ ω ω' g s s'}, H ω' g ⟨[], .done⟩ → pull s (F.world ω) = ((.done, s'), F.world ω') →
      F.effect ω ω' → F.Valid ω' →
      F.Steps pull' (fun ω t' => F.Valid ω ∧ Produces F pull' ω t' (R g ⟨[], .done⟩))
        (Reported F (Produces F pull') ω₀ (R g ⟨[], .done⟩)) ω (e g s))
    {g : γ} (hg : H ω g r) (h : Produces F pull ω s r) : Produces F pull' ω (e g s) (R g r) := by
  -- along the items, and for a fixed run by coinduction because of suspensions
  induction hn : r.items.length using Nat.strongRecOn generalizing ω g s r with
  | ind n ih =>
    refine coinduction (fun ω t r' => ∃ g s, H ω g r ∧ Produces F pull ω s r ∧ t = e g s ∧ r' = R g r) ?_
      ⟨g, s, hg, h, rfl, rfl⟩
    rintro ω _ _ ⟨g, s, hg, h, rfl, rfl⟩ hr ω₁ h₁ hv
    have hr' : r ≠ ⟨[], .unknown⟩ := by
      rintro rfl
      exact hr (unknown hg)
    refine (h.reports hr' h₁ hv).bind (pass nofun nofun) ?_
    intro ω₂ s₁ o s' ω' h₂ hp he _ hc
    have hg' : H ω' g r := later (F.evolves_trans h₁ (F.evolves_trans h₂ (F.evolves_of_effect he))) hg
    cases hc with
    | item hv' h =>
      refine (resume hr (item hg' ?_ hp he hv' h) h₂)
      exact fun hg h => ih _ (by simp [← hn]) hg h rfl
    | done hv' => exact resume hr (done hg' hp he hv') h₂
    | failed hv' hP =>
      have hp' := pass (g := g) (o := .failed _) nofun nofun hp
      rw [fails hg']
      exact .reported hp' he (.failed hv' hP)
    | suspended hv' hs h =>
      have hp' := pass (g := g) (o := .suspended _) nofun nofun hp
      exact .reported hp' he (.suspended hv' hs (.inr ⟨g, s', hg', h, rfl, rfl⟩))

/-- States with the same pulls produce the same. -/
theorem embed {pull' : τ → StateM W (Outcome α × τ)} (e : σ → τ)
    (he : ∀ s w, pull' (e s) w = (((pull s w).1.1, e (pull s w).1.2), (pull s w).2))
    (h : Produces F pull ω s r) : Produces F pull' ω (e s) r := by
  have step {s s' : σ} {w w' : W} {o : Outcome α} (hp : pull s w = ((o, s'), w')) :
      pull' (e s) w = ((o, e s'), w') := by rw [he, hp]
  refine coinduction (fun ω t r => ∃ s, t = e s ∧ Produces F pull ω s r) ?_ ⟨s, rfl, h⟩
  rintro ω _ r ⟨s, rfl, h⟩ hr ω₁ h₁ hv
  refine (h.reports hr h₁ hv).bind (fun hp => step hp) fun _ hp hf _ hc => .reported (step hp) hf ?_
  exact hc.transfer hc.valid id fun r' h => .inr ⟨_, rfl, h⟩

end Produces

/-- A production of a complete list is a delivery. -/
theorem produces_complete_iff {ω : F.Situation} {s : σ} {xs : List α} :
    Produces F pull ω s (.complete xs) ↔ Delivers F pull ω s xs := by
  have hne (xs : List α) : Run.complete xs ≠ ⟨[], .unknown⟩ := nofun
  constructor
  · intro h
    refine .coinduction (fun ω s xs => Produces F pull ω s (.complete xs)) ?_ h
    intro ω s xs h ω₁ h₁ hv
    refine (h.reports (hne xs) h₁ hv).mono fun o ω' s' _ hc => ?_
    cases hc with
    | item hv h => exact .item hv (.inr h)
    | done hv => exact .done hv
    | suspended hv hs h => exact .suspended hv hs (.inr h)
  · intro h
    refine .coinduction (fun ω s r => ∃ xs, r = .complete xs ∧ Delivers F pull ω s xs) ?_ ⟨xs, rfl, h⟩
    rintro ω s _ ⟨xs, rfl, h⟩ - ω₁ h₁ hv
    refine (h.reports h₁ hv).mono fun o ω' s' _ hc => ?_
    cases hc with
    | item hv h => exact .item hv (.inr ⟨_, rfl, h⟩)
    | done hv => exact .done hv
    | suspended hv hs h => exact .suspended hv hs (.inr ⟨_, rfl, h⟩)

end

/-! ### Streams -/

section

variable {F : Regime W} {ω : F.Situation} {κ : Type} {step : κ → StateM W (Outcome α × κ)}

/-- A stream that has failed. -/
theorem StreamOf.produces_failed {P : Error → Prop} {e : Error} (h : P e) (ω : F.Situation) :
    Produces F (StreamOf.pull step) ω (.failed e) ⟨[], .fails P⟩ :=
  .of_step fun _ _ hv => .reported rfl (F.effect_of_drift (F.drift_of_valid hv)) (.failed hv h)

/-- A stream produces what its cursor does. -/
theorem StreamOf.produces_run {c : κ} {r : Run α} (h : Produces F step ω c r) :
    Produces F (StreamOf.pull step) ω (.run c) r := by
  refine .coinduction (fun ω s r => ∃ c, s = .run c ∧ Produces F step ω c r) ?_ ⟨c, rfl, h⟩
  rintro ω _ r ⟨c, rfl, h⟩ hr ω₁ h₁ hv
  refine (h.reports hr h₁ hv).bind StreamOf.pull_run fun _ hp he ho h' => .report (StreamOf.pull_run hp) he ho ?_
  cases h' with
  | item hv h => exact .item hv (.inr ⟨_, rfl, h⟩)
  | done hv => exact .done hv
  | failed hv he => exact .failed hv he
  | suspended hv hs h => exact .suspended hv hs (.inr ⟨_, rfl, h⟩)

end

/-! ### Schedules -/

section

variable {F : Regime W} {pull : σ → StateM W (Outcome α × σ)} {ω : F.Situation} {s : σ} {r : Run α}

variable (F pull) in
/-- Between two steps: the run is still to be produced by a pull that has begun. If nothing was outstanding
when it began, it is not suspended. -/
def Producing (ω : F.Situation) (s : σ) (r : Run α) : Prop :=
  F.drift ω ω ∧ (r ≠ ⟨[], .unknown⟩ →
    ∃ ω₀, F.evolves ω₀ ω ∧ Reports F pull (Reported F (Produces F pull) ω₀ r) ω s)

theorem Produces.producing (h : Produces F pull ω s r) (hv : F.Valid ω) : Producing F pull ω s r :=
  ⟨F.drift_of_valid hv, fun hr => ⟨ω, F.evolves_refl ω, h.reports hr (F.evolves_refl ω) hv⟩⟩

/-- One step after a change of the world, which leads to the situation `ω₁`. -/
theorem Producing.step (h : Producing F pull ω s r) (hr : r ≠ ⟨[], .unknown⟩) {m : W → W} (hm : F.Permits m) :
    ∃ o s' ω₁ ω' r', F.drift ω ω₁ ∧ F.world ω₁ = m (F.world ω) ∧
      pull s (m (F.world ω)) = ((o, s'), F.world ω') ∧ F.evolves ω₁ ω' ∧ (o ≠ .skip → F.Valid ω') ∧
      r.Next o r' ∧ (¬o.IsEnding → Producing F pull ω' s' r') := by
  obtain ⟨hω, h⟩ := h
  obtain ⟨ω₀, h₀, h⟩ := h hr
  obtain ⟨ω₁, h₁, hw⟩ := hm ω hω
  obtain ⟨o, s', ω', hp, he, hy, hq⟩ := h.steps h₁
  rw [hw] at hp
  have h' : F.evolves ω₁ ω' := F.evolves_of_effect he
  have hd : F.drift ω' ω' := F.drift_of_effect he
  by_cases ho : o = .skip
  · subst ho
    have h₀' : F.evolves ω₀ ω' := F.evolves_trans h₀ (F.evolves_trans (F.evolves_of_drift h₁) h')
    exact ⟨.skip, s', ω₁, ω', r, h₁, hw, hp, h', absurd rfl, .skip r, fun _ => ⟨hd, fun _ => ⟨ω₀, h₀', hy rfl⟩⟩⟩
  · have hc := hq ho
    obtain ⟨r', hn, hrest⟩ : ∃ r', r.Next o r' ∧ (¬o.IsEnding → Producing F pull ω' s' r') := by
      cases hc with
      | item hv h => exact ⟨_, .item .., fun _ => h.producing hv⟩
      | done hv => exact ⟨_, .done, fun ho => absurd trivial ho⟩
      | failed hv he => exact ⟨_, .failed _ _ he, fun ho => absurd trivial ho⟩
      | suspended hv hs h => exact ⟨_, .suspended .., fun _ => h.producing hv⟩
    exact ⟨o, s', ω₁, ω', r', h₁, hw, hp, h', fun _ => hc.valid, hn, hrest⟩

/-- **Soundness**: a schedule shows nothing but the run. -/
theorem Producing.play_allows (h : Producing F pull ω s r) {moves : List (W → W)}
    (hm : ∀ m ∈ moves, F.Permits m) : r.Allows (play pull moves s (F.world ω)).1 := by
  induction moves generalizing ω s r with
  | nil => exact .nil r
  | cons m moves ih =>
    by_cases hr : r = ⟨[], .unknown⟩
    · subst hr
      exact .unknown _
    · obtain ⟨o, s', ω₁, ω', r', -, -, hp, -, -, hn, h'⟩ := h.step hr (hm m (.head _))
      simp only [play, hp]
      exact .cons hn fun ho => ih (h' ho) fun m hmem => hm m (.tail _ hmem)

/-- A schedule that ends with the first report. -/
theorem Reports.play_report {Q : Outcome α → F.Situation → σ → Prop} (h : Reports F pull Q ω s)
    (hω : F.drift ω ω) {moves : List (W → W)} (hm : ∀ m ∈ moves, F.Permits m) {skips : List (Outcome α)}
    {o : Outcome α} {s' : σ} {w : W} (hp : play pull moves s (F.world ω) = (skips ++ [o], s', w))
    (hskips : ∀ o ∈ skips, o = .skip) (ho : o ≠ .skip) :
    ∃ ω', w = F.world ω' ∧ F.evolves ω ω' ∧ Q o ω' s' := by
  induction moves generalizing ω s skips with
  | nil => simp [play] at hp
  | cons m moves ih =>
    obtain ⟨ω₁, h₁, hw⟩ := hm m (.head _) ω hω
    obtain ⟨o₁, s₁, ω₂, hstep, he, hy, hq⟩ := h.steps h₁
    have h₂ : F.evolves ω ω₂ := F.evolves_trans (F.evolves_of_drift h₁) (F.evolves_of_effect he)
    rw [hw] at hstep
    simp only [play, hstep, Prod.mk.injEq] at hp
    obtain ⟨hreports, hstate⟩ := hp
    cases skips with
    | nil =>
      obtain ⟨rfl, hnil⟩ : o₁ = o ∧ (play pull moves s₁ (F.world ω₂)).1 = [] := by simpa using hreports
      obtain rfl : moves = [] := by
        cases moves with
        | nil => rfl
        | cons => simp [play] at hnil
      obtain ⟨rfl, rfl⟩ : s₁ = s' ∧ F.world ω₂ = w := by simpa [play] using hstate
      exact ⟨ω₂, rfl, h₂, hq ho⟩
    | cons o₂ skips =>
      obtain ⟨rfl, hrest⟩ : o₁ = o₂ ∧ (play pull moves s₁ (F.world ω₂)).1 = skips ++ [o] := by
        simpa using hreports
      obtain ⟨hskip, hskips⟩ := List.forall_mem_cons.1 hskips
      obtain ⟨ω', hw', h', hQ⟩ := ih (hy hskip) (F.drift_of_effect he) (fun m hmem => hm m (.tail _ hmem))
        (Prod.ext hrest hstate) hskips
      exact ⟨ω', hw', F.evolves_trans h₂ h', hQ⟩

/-- **Progress**: when nothing is outstanding, a schedule comes to the end. -/
theorem Produces.play_ends (h : Produces F pull ω s r) (hr : r.tail ≠ .unknown) (hv : F.Valid ω)
    (hs : F.settled ω) {moves : Nat → W → W} (hm : ∀ n, F.Permits (moves n)) :
    ∃ n, ∃ o ∈ (play pull ((List.range n).map moves) s (F.world ω)).1, o.IsEnding := by
  obtain ⟨xs, t⟩ := r
  induction xs generalizing ω s moves with
  | nil =>
    have hne : (⟨[], t⟩ : Run α) ≠ ⟨[], .unknown⟩ := fun heq => hr (congrArg Run.tail heq)
    obtain ⟨n, os, o, s', ω', hp, -, -, hc⟩ :=
      (h.reports hne (F.evolves_refl ω) hv).play_reports (F.drift_of_valid hv) hm
    have hmem : o ∈ (play pull ((List.range n).map moves) s (F.world ω)).1 := by
      rw [hp]
      exact List.mem_append_right _ (.head _)
    cases hc with
    | done | failed => exact ⟨n, _, hmem, trivial⟩
    | suspended _ hns => exact absurd hs hns
  | cons x xs ih =>
    obtain ⟨n, os, o, s', ω', hp, h', -, hc⟩ :=
      (h.reports nofun (F.evolves_refl ω) hv).play_reports (F.drift_of_valid hv) hm
    cases hc with
    | item hv' h =>
      obtain ⟨m, o, ho, hend⟩ := ih hv' (F.settled_of_evolves h' hs) (fun i => hm (n + i)) h hr
      exact ⟨n + m, o, mem_play_add hp ho, hend⟩
    | suspended _ hns => exact absurd hs hns

/-- **Progress**: when nothing is outstanding any more, a schedule comes to the end. A pull that began
before may still be suspended. -/
theorem Producing.play_ends (h : Producing F pull ω s r) (hr : r.tail ≠ .unknown) (hs : F.settled ω)
    {moves : Nat → W → W} (hm : ∀ n, F.Permits (moves n)) :
    ∃ n, ∃ o ∈ (play pull ((List.range n).map moves) s (F.world ω)).1, o.IsEnding := by
  obtain ⟨hω, h⟩ := h
  obtain ⟨ω₀, -, h⟩ := h fun heq => hr (congrArg Run.tail heq)
  obtain ⟨n, os, o, s', ω', hp, h', -, hc⟩ := h.play_reports hω hm
  have hs' : F.settled ω' := F.settled_of_evolves h' hs
  have hmem : o ∈ (play pull ((List.range n).map moves) s (F.world ω)).1 := by
    rw [hp]
    exact List.mem_append_right _ (.head _)
  cases hc with
  | item hv h | suspended hv _ h =>
    obtain ⟨m, o, ho, hend⟩ := h.play_ends hr hv hs' fun i => hm (n + i)
    exact ⟨n + m, o, mem_play_add hp ho, hend⟩
  | done | failed => exact ⟨n, _, hmem, trivial⟩

end

end LazyXPath
