import LazyXPath.Proofs.Schedule

/-!
# Deliveries

`Runs` allows for a change of the world after every single step. Sequences that share a buffer are more
sensitive than that. A reader of the buffer pulls its source step by step, and as long as the source has
not reported anything, nobody else may touch the buffer. So what may happen between two reports has to
be told apart from what may happen between two steps.

* A **regime** says what may happen at all (`evolves`), what may happen from outside before there is a
  report (`drift`), what a single step may do (`effect`), and which situations are in order when a report
  is made (`Valid`).
* A state **reports** (`Reports`) if there is a report after finitely many steps, whatever drift there is
  in between.
* A state **delivers** a list (`Delivers`) if its reports are the items of the list in order and then the
  end, with suspensions in between. A pull that begins when nothing is outstanding is not suspended.

`Reports` is a least fixed point and `Delivers` a greatest one. What they mean for a schedule is said by
`Delivering.play_allows`, `Delivering.play_ends` and `Reports.play_reports`.
-/

namespace LazyXPath

/-- The circumstances in which sequences are pulled that share something. -/
structure Regime (W : Type) where
  Situation : Type
  world : Situation → W
  /-- What has to hold whenever something is reported. -/
  Valid : Situation → Prop
  /-- What may happen at all. -/
  evolves : Situation → Situation → Prop
  /-- What may happen between two steps before there is a report. -/
  drift : Situation → Situation → Prop
  /-- What a step may do. -/
  effect : Situation → Situation → Prop
  /-- Nothing is outstanding. -/
  settled : Situation → Prop
  evolves_refl : ∀ a, evolves a a
  evolves_trans : ∀ {a b c}, evolves a b → evolves b c → evolves a c
  drift_trans : ∀ {a b c}, drift a b → drift b c → drift a c
  effect_trans : ∀ {a b c}, effect a b → effect b c → effect a c
  evolves_of_drift : ∀ {a b}, drift a b → evolves a b
  evolves_of_effect : ∀ {a b}, effect a b → evolves a b
  drift_of_valid : ∀ {a}, Valid a → drift a a
  drift_of_effect : ∀ {a b}, effect a b → drift b b
  effect_of_drift : ∀ {a b}, drift a b → effect b b
  valid_of_drift : ∀ {a b}, Valid a → drift a b → Valid b
  settled_of_evolves : ∀ {a b}, evolves a b → settled a → settled b

variable {W α β σ τ : Type}

/-! ### Reports -/

section Reports

variable (F : Regime W) (pull : σ → StateM W (Outcome α × σ))

/-- One step, after which there is `P` or, if something is reported, `Q`. -/
def Regime.Steps (P : F.Situation → σ → Prop) (Q : Outcome α → F.Situation → σ → Prop)
    (ω : F.Situation) (s : σ) : Prop :=
  ∃ o s' ω', pull s (F.world ω) = ((o, s'), F.world ω') ∧ F.effect ω ω' ∧
    (o = .skip → P ω' s') ∧ (o ≠ .skip → Q o ω' s')

/-- Something is reported after finitely many steps, and then there is `Q`. -/
def Reports (Q : Outcome α → F.Situation → σ → Prop) (ω : F.Situation) (s : σ) : Prop :=
  ∀ P : F.Situation → σ → Prop,
    (∀ ω s, (∀ ω₁, F.drift ω ω₁ → F.Steps pull P Q ω₁ s) → P ω s) → P ω s

variable {F pull}

namespace Regime.Steps

variable {P P' : F.Situation → σ → Prop} {Q Q' : Outcome α → F.Situation → σ → Prop}
  {ω ω' : F.Situation} {s s' : σ}

theorem skip (hp : pull s (F.world ω) = ((.skip, s'), F.world ω')) (he : F.effect ω ω')
    (h : P ω' s') : F.Steps pull P Q ω s :=
  ⟨.skip, s', ω', hp, he, fun _ => h, fun ho => absurd rfl ho⟩

theorem report {o : Outcome α} (hp : pull s (F.world ω) = ((o, s'), F.world ω')) (he : F.effect ω ω')
    (ho : o ≠ .skip) (h : Q o ω' s') : F.Steps pull P Q ω s :=
  ⟨o, s', ω', hp, he, fun h => absurd h ho, fun _ => h⟩

theorem mono (hP : ∀ ω' s', F.effect ω ω' → P ω' s' → P' ω' s')
    (hQ : ∀ o ω' s', F.effect ω ω' → Q o ω' s' → Q' o ω' s') (h : F.Steps pull P Q ω s) :
    F.Steps pull P' Q' ω s := by
  obtain ⟨o, s', ω', hp, he, hy, hq⟩ := h
  exact ⟨o, s', ω', hp, he, fun ho => hP ω' s' he (hy ho), fun ho => hQ o ω' s' he (hq ho)⟩

end Regime.Steps

namespace Reports

variable {Q Q' : Outcome α → F.Situation → σ → Prop} {ω ω₁ : F.Situation} {s : σ}

theorem of_steps (h : ∀ ω₁, F.drift ω ω₁ → F.Steps pull (Reports F pull Q) Q ω₁ s) :
    Reports F pull Q ω s := by
  intro P hP
  refine hP ω s fun ω₁ h₁ => (h ω₁ h₁).mono ?_ fun _ _ _ _ hq => hq
  exact fun ω' s' _ h' => h' P hP

/-- **Induction** along the steps before the report. -/
theorem induction {P : F.Situation → σ → Prop} (h : Reports F pull Q ω s)
    (step : ∀ ω s, (∀ ω₁, F.drift ω ω₁ →
      F.Steps pull (fun ω' s' => Reports F pull Q ω' s' ∧ P ω' s') Q ω₁ s) → P ω s) : P ω s := by
  refine (h (fun ω s => Reports F pull Q ω s ∧ P ω s) fun ω s h => ⟨?_, step ω s h⟩).2
  exact of_steps fun ω₁ h₁ => (h ω₁ h₁).mono (fun _ _ _ => And.left) fun _ _ _ _ hq => hq

theorem steps (h : Reports F pull Q ω s) (h₁ : F.drift ω ω₁) :
    F.Steps pull (Reports F pull Q) Q ω₁ s := by
  refine h.induction (P := fun ω s => ∀ ω₁, F.drift ω ω₁ → F.Steps pull (Reports F pull Q) Q ω₁ s)
    (fun ω s h ω₁ h₁ => (h ω₁ h₁).mono (fun _ _ _ => And.left) fun _ _ _ _ hq => hq) ω₁ h₁

/-- Drift changes nothing. -/
theorem drift (h : Reports F pull Q ω s) (h₁ : F.drift ω ω₁) : Reports F pull Q ω₁ s :=
  of_steps fun _ h₂ => h.steps (F.drift_trans h₁ h₂)

/-- What is known about the report, together with the fact that it comes later. -/
theorem mono (h : Reports F pull Q ω s)
    (hQ : ∀ o ω' s', F.evolves ω ω' → Q o ω' s' → Q' o ω' s') : Reports F pull Q' ω s := by
  refine h.induction (P := fun ω₁ s => F.evolves ω ω₁ → Reports F pull Q' ω₁ s) ?_ (F.evolves_refl ω)
  intro ω₁ s h h₁
  refine of_steps fun ω₂ h₂ => (h ω₂ h₂).mono (fun ω' s' he h' => h'.2 ?_) fun o ω' s' he => hQ o ω' s' ?_
  · exact F.evolves_trans h₁ (F.evolves_trans (F.evolves_of_drift h₂) (F.evolves_of_effect he))
  · exact F.evolves_trans h₁ (F.evolves_trans (F.evolves_of_drift h₂) (F.evolves_of_effect he))

/-- A state that reads another one reports, if it passes on the steps without a report and does what it
ought to do with the report. -/
theorem bind {pull' : τ → StateM W (Outcome β × τ)} {Q' : Outcome β → F.Situation → τ → Prop}
    {e : σ → τ} (h : Reports F pull Q ω s)
    (skip : ∀ {s s' w w'}, pull s w = ((.skip, s'), w') → pull' (e s) w = ((.skip, e s'), w'))
    (report : ∀ {ω₁ s₁ o s' ω'}, F.evolves ω ω₁ → pull s₁ (F.world ω₁) = ((o, s'), F.world ω') →
      F.effect ω₁ ω' → o ≠ .skip → Q o ω' s' →
      F.Steps pull' (Reports F pull' Q') Q' ω₁ (e s₁)) : Reports F pull' Q' ω (e s) := by
  refine h.induction (P := fun ω₁ s => F.evolves ω ω₁ → Reports F pull' Q' ω₁ (e s)) ?_
    (F.evolves_refl ω)
  intro ω₁ s h h₁
  refine of_steps fun ω₂ h₂ => ?_
  obtain ⟨o, s', ω', hp, he, hy, hq⟩ := h ω₂ h₂
  have h₂' : F.evolves ω ω₂ := F.evolves_trans h₁ (F.evolves_of_drift h₂)
  by_cases ho : o = .skip
  · subst ho
    exact .skip (skip hp) he ((hy rfl).2 (F.evolves_trans h₂' (F.evolves_of_effect he)))
  · exact report h₂' hp he ho (hq ho)

end Reports

end Reports

/-! ### Deliveries -/

section Delivers

variable (F : Regime W) (pull : σ → StateM W (Outcome α × σ))

/-- A report is the next one of a list, in a pull that has begun in the situation `ω₀`; and there is `X`
for the rest. -/
inductive Continues (X : F.Situation → σ → List α → Prop) (ω₀ : F.Situation) :
    List α → Outcome α → F.Situation → σ → Prop where
  | item {ω : F.Situation} {s : σ} {x : α} {xs : List α} (valid : F.Valid ω) (rest : X ω s xs) :
      Continues X ω₀ (x :: xs) (.item x) ω s
  | done {ω : F.Situation} {s : σ} (valid : F.Valid ω) : Continues X ω₀ [] .done ω s
  | suspended {ω : F.Situation} {s : σ} {xs : List α} {d : DeferredId} (valid : F.Valid ω)
      (outstanding : ¬F.settled ω₀) (rest : X ω s xs) : Continues X ω₀ xs (.suspended d) ω s

/-- A state delivers a list from a situation on. -/
def Delivers (ω : F.Situation) (s : σ) (xs : List α) : Prop :=
  ∃ X : F.Situation → σ → List α → Prop, (∀ ω s xs, X ω s xs → ∀ ω₁, F.evolves ω ω₁ → F.Valid ω₁ →
    Reports F pull (Continues F X ω₁ xs) ω₁ s) ∧ X ω s xs

variable {F pull}

/-- What comes next is the same for a state with the same rest, also under another regime. -/
theorem Continues.transfer {V : Type} {G : Regime V} {X : F.Situation → σ → List α → Prop}
    {Y : G.Situation → τ → List α → Prop} {ω₀ ω : F.Situation} {ω₀' ω' : G.Situation} {xs : List α}
    {o : Outcome α} {s : σ} {t : τ} (h : Continues F X ω₀ xs o ω s) (hv : G.Valid ω')
    (hs : G.settled ω₀' → F.settled ω₀) (hX : ∀ ys, X ω s ys → Y ω' t ys) :
    Continues G Y ω₀' xs o ω' t := by
  cases h with
  | item _ h => exact .item hv (hX _ h)
  | done => exact .done hv
  | suspended _ hns h => exact .suspended hv (fun h => hns (hs h)) (hX _ h)

private theorem Continues.valid {X : F.Situation → σ → List α → Prop} {ω₀ ω : F.Situation} {xs : List α}
    {o : Outcome α} {s : σ} (h : Continues F X ω₀ xs o ω s) : F.Valid ω := by
  cases h <;> assumption

theorem Continues.mono {X X' : F.Situation → σ → List α → Prop} {ω₀ ω : F.Situation} {xs : List α}
    {o : Outcome α} {s : σ} (hX : ∀ ω s xs, X ω s xs → X' ω s xs) (h : Continues F X ω₀ xs o ω s) :
    Continues F X' ω₀ xs o ω s :=
  h.transfer h.valid id fun ys => hX ω s ys

private theorem Continues.ne_skip {X : F.Situation → σ → List α → Prop} {ω₀ ω : F.Situation} {xs : List α}
    {o : Outcome α} {s : σ} (h : Continues F X ω₀ xs o ω s) : o ≠ .skip := by
  cases h <;> exact nofun

/-- A step with the report that has to come next. -/
theorem Regime.Steps.continues {P : F.Situation → σ → Prop} {X : F.Situation → σ → List α → Prop}
    {ω₀ ω ω' : F.Situation} {xs : List α} {o : Outcome α} {s s' : σ}
    (hp : pull s (F.world ω) = ((o, s'), F.world ω')) (he : F.effect ω ω')
    (h : Continues F X ω₀ xs o ω' s') : F.Steps pull P (Continues F X ω₀ xs) ω s :=
  .report hp he h.ne_skip h

/-- What comes next in a pull that has begun later. -/
theorem Continues.since {X : F.Situation → σ → List α → Prop} {ω₀ ω₁ ω : F.Situation} {xs : List α}
    {o : Outcome α} {s : σ} (h₀ : F.evolves ω₀ ω₁) (h : Continues F X ω₁ xs o ω s) :
    Continues F X ω₀ xs o ω s :=
  h.transfer h.valid (F.settled_of_evolves h₀) fun _ hX => hX

theorem Delivers.reports {ω ω₁ : F.Situation} {s : σ} {xs : List α} (h : Delivers F pull ω s xs)
    (h₁ : F.evolves ω ω₁) (hv : F.Valid ω₁) :
    Reports F pull (Continues F (Delivers F pull) ω₁ xs) ω₁ s := by
  obtain ⟨X, hX, h⟩ := h
  exact (hX ω s xs h ω₁ h₁ hv).mono fun o ω' s' _ h' => h'.mono fun ω s xs h => ⟨X, hX, h⟩

/-- If a delivery is reached by a step without a report, then the pull goes on with it. -/
theorem Regime.Steps.resume {X : F.Situation → σ → List α → Prop} {ω₀ ω : F.Situation} {s : σ}
    {xs : List α} (h : F.Steps pull (fun ω s => F.Valid ω ∧ Delivers F pull ω s xs)
      (Continues F (Delivers F pull) ω₀ xs) ω s) (h₀ : F.evolves ω₀ ω) :
    F.Steps pull (Reports F pull (Continues F (fun ω s xs => Delivers F pull ω s xs ∨ X ω s xs) ω₀ xs))
      (Continues F (fun ω s xs => Delivers F pull ω s xs ∨ X ω s xs) ω₀ xs) ω s := by
  refine h.mono (fun ω' s' he ⟨hv, h⟩ => ?_) fun o ω' s' _ hc => hc.mono fun _ _ _ h => .inl h
  have h' : F.evolves ω₀ ω' := F.evolves_trans h₀ (F.evolves_of_effect he)
  refine (h.reports (F.evolves_refl ω') hv).mono fun o ω₁ s₁ _ hc => ?_
  exact (hc.since h').mono fun _ _ _ h => .inl h

namespace Delivers

variable {ω ω₁ : F.Situation} {s : σ} {xs : List α}

/-- **Coinduction**: a relation consists of deliveries, if every pull reports what comes next, and then
there is a delivery or the relation holds again. -/
theorem coinduction (X : F.Situation → σ → List α → Prop)
    (hX : ∀ ω s xs, X ω s xs → ∀ ω₁, F.evolves ω ω₁ → F.Valid ω₁ →
      Reports F pull (Continues F (fun ω s xs => Delivers F pull ω s xs ∨ X ω s xs) ω₁ xs) ω₁ s)
    (h : X ω s xs) : Delivers F pull ω s xs := by
  refine ⟨fun ω s xs => Delivers F pull ω s xs ∨ X ω s xs, ?_, .inr h⟩
  rintro ω s xs (h | h) ω₁ h₁ hv
  · exact (h.reports h₁ hv).mono fun o ω' s' _ h' => h'.mono fun ω s xs h => .inl h
  · exact hX ω s xs h ω₁ h₁ hv

theorem of_reports (h : ∀ ω₁, F.evolves ω ω₁ → F.Valid ω₁ →
    Reports F pull (Continues F (Delivers F pull) ω₁ xs) ω₁ s) : Delivers F pull ω s xs := by
  refine coinduction (fun ω' s' xs' => F.evolves ω ω' ∧ s' = s ∧ xs' = xs) ?_ ⟨F.evolves_refl ω, rfl, rfl⟩
  rintro ω' _ _ ⟨h', rfl, rfl⟩ ω₁ h₁ hv
  refine (h ω₁ (F.evolves_trans h' h₁) hv).mono fun o ω₂ s' _ h₂ => ?_
  exact h₂.mono fun ω s xs h => .inl h

/-- A delivery goes on in every later situation. -/
theorem later (h : Delivers F pull ω s xs) (h₁ : F.evolves ω ω₁) : Delivers F pull ω₁ s xs :=
  of_reports fun _ h₂ hv => h.reports (F.evolves_trans h₁ h₂) hv

variable {γ : Type} {pull' : τ → StateM W (Outcome β × τ)}

/-- **Simulation**: a state that reads one sequence delivers a function of what the sequence delivers, if
this is so of every single report. Here `g` is what the state consists of besides the sequence, and `H`
is what has to be known about it. The states that are reached from an item may be used for the rest of
the list already. -/
theorem simulate {e : γ → σ → τ} {H : F.Situation → γ → List α → Prop} {R : γ → List α → List β}
    (later : ∀ {ω ω₁ g xs}, F.evolves ω ω₁ → H ω g xs → H ω₁ g xs)
    (pass : ∀ {g s s' w w' o}, (∀ x, o ≠ .item x) → o ≠ .done → pull s w = ((o, s'), w') →
      pull' (e g s) w = ((o.pass, e g s'), w'))
    (item : ∀ {ω₀ ω ω' g s s' x xs}, H ω' g (x :: xs) →
      (∀ {ω g s}, H ω g xs → Delivers F pull ω s xs → Delivers F pull' ω (e g s) (R g xs)) →
      pull s (F.world ω) = ((.item x, s'), F.world ω') → F.effect ω ω' → F.Valid ω' →
      Delivers F pull ω' s' xs →
      F.Steps pull' (fun ω t => F.Valid ω ∧ Delivers F pull' ω t (R g (x :: xs)))
        (Continues F (Delivers F pull') ω₀ (R g (x :: xs))) ω (e g s))
    (done : ∀ {ω₀ ω ω' g s s'}, H ω' g [] → pull s (F.world ω) = ((.done, s'), F.world ω') →
      F.effect ω ω' → F.Valid ω' →
      F.Steps pull' (fun ω t => F.Valid ω ∧ Delivers F pull' ω t (R g []))
        (Continues F (Delivers F pull') ω₀ (R g [])) ω (e g s))
    {g : γ} (hg : H ω g xs) (h : Delivers F pull ω s xs) : Delivers F pull' ω (e g s) (R g xs) := by
  -- along the list, and for a fixed list by coinduction because of suspensions
  induction xs generalizing ω g s with
  | nil =>
    refine coinduction (fun ω t ys => ∃ g s, H ω g [] ∧ Delivers F pull ω s [] ∧ t = e g s ∧ ys = R g [])
      ?_ ⟨g, s, hg, h, rfl, rfl⟩
    rintro ω _ _ ⟨g, s, hg, h, rfl, rfl⟩ ω₁ h₁ hv
    refine (h.reports h₁ hv).bind (pass nofun nofun) ?_
    intro ω₂ s₁ o s' ω' h₂ hp he _ hc
    have hg' : H ω' g [] :=
      later (F.evolves_trans h₁ (F.evolves_trans h₂ (F.evolves_of_effect he))) hg
    cases hc with
    | done hv' => exact (done hg' hp he hv').resume h₂
    | suspended hv' hs h =>
      have hp' := pass (g := g) (o := .suspended _) nofun nofun hp
      exact .continues hp' he (.suspended hv' hs (.inr ⟨g, s', hg', h, rfl, rfl⟩))
  | cons x xs ih =>
    refine coinduction (fun ω t ys => ∃ g s, H ω g (x :: xs) ∧ Delivers F pull ω s (x :: xs) ∧
      t = e g s ∧ ys = R g (x :: xs)) ?_ ⟨g, s, hg, h, rfl, rfl⟩
    rintro ω _ _ ⟨g, s, hg, h, rfl, rfl⟩ ω₁ h₁ hv
    refine (h.reports h₁ hv).bind (pass nofun nofun) ?_
    intro ω₂ s₁ o s' ω' h₂ hp he _ hc
    have hg' : H ω' g (x :: xs) :=
      later (F.evolves_trans h₁ (F.evolves_trans h₂ (F.evolves_of_effect he))) hg
    cases hc with
    | item hv' h => exact (item hg' ih hp he hv' h).resume h₂
    | suspended hv' hs h =>
      have hp' := pass (g := g) (o := .suspended _) nofun nofun hp
      exact .continues hp' he (.suspended hv' hs (.inr ⟨g, s', hg', h, rfl, rfl⟩))

/-- States with the same pulls deliver the same, if the items are the same up to a function. -/
theorem relabel (φ : α → β) (e : σ → τ)
    (he : ∀ s w, pull' (e s) w = (((pull s w).1.1.map φ, e (pull s w).1.2), (pull s w).2))
    (h : Delivers F pull ω s xs) : Delivers F pull' ω (e s) (xs.map φ) := by
  have step {s s' : σ} {w w' : W} {o : Outcome α} (hp : pull s w = ((o, s'), w')) :
      pull' (e s) w = ((o.map φ, e s'), w') := by rw [he, hp]
  refine coinduction (fun ω t ys => ∃ s xs, t = e s ∧ ys = xs.map φ ∧ Delivers F pull ω s xs) ?_
    ⟨s, xs, rfl, rfl, h⟩
  rintro ω _ _ ⟨s, xs, rfl, rfl, h⟩ ω₁ h₁ hv
  refine (h.reports h₁ hv).bind (fun hp => step hp) fun _ hp hf _ h' => .continues (step hp) hf ?_
  cases h' with
  | item hv h => exact .item hv (.inr ⟨_, _, rfl, rfl, h⟩)
  | done hv => exact .done hv
  | suspended hv hs h => exact .suspended hv hs (.inr ⟨_, _, rfl, rfl, h⟩)

/-- States with the same pulls deliver the same. -/
theorem embed {pull' : τ → StateM W (Outcome α × τ)} (e : σ → τ)
    (he : ∀ s w, pull' (e s) w = (((pull s w).1.1, e (pull s w).1.2), (pull s w).2))
    (h : Delivers F pull ω s xs) : Delivers F pull' ω (e s) xs := by
  have hid (o : Outcome α) : o.map id = o := by cases o <;> rfl
  simpa using h.relabel id e fun s w => by rw [hid, he]

end Delivers

end Delivers

/-! ### Streams -/

section

variable {F : Regime W} {ω : F.Situation} {κ : Type} {step : κ → StateM W (Outcome α × κ)}

/-- Items at hand. -/
theorem StreamOf.delivers_done (xs : List α) (ω : F.Situation) :
    Delivers F (StreamOf.pull step) ω ⟨xs, .done⟩ xs := by
  induction xs generalizing ω with
  | nil =>
    refine .of_reports fun ω₁ _ hv => .of_steps fun ω₂ h₂ => ?_
    exact .continues rfl (F.effect_of_drift h₂) (.done (F.valid_of_drift hv h₂))
  | cons x xs ih =>
    refine .of_reports fun ω₁ _ hv => .of_steps fun ω₂ h₂ => ?_
    exact .continues rfl (F.effect_of_drift h₂) (.item (F.valid_of_drift hv h₂) (ih ω₂))

/-- A stream delivers what its cursor does. -/
theorem StreamOf.delivers_run {c : κ} {xs : List α} (h : Delivers F step ω c xs) :
    Delivers F (StreamOf.pull step) ω (.run c) xs := by
  refine .coinduction (fun ω s xs => ∃ c, s = .run c ∧ Delivers F step ω c xs) ?_ ⟨c, rfl, h⟩
  rintro ω _ xs ⟨c, rfl, h⟩ ω₁ h₁ hv
  refine (h.reports h₁ hv).bind StreamOf.pull_run fun _ hp he ho h' => .report (StreamOf.pull_run hp) he ho ?_
  cases h' with
  | item hv h => exact .item hv (.inr ⟨_, rfl, h⟩)
  | done hv => exact .done hv
  | suspended hv hs h => exact .suspended hv hs (.inr ⟨_, rfl, h⟩)

end

/-! ### Schedules -/

section

variable {F : Regime W} {pull : σ → StateM W (Outcome α × σ)} {ω : F.Situation} {s : σ} {xs : List α}

/-- A change of the world that may happen between two steps. -/
def Regime.Permits (F : Regime W) (m : W → W) : Prop :=
  ∀ ω, F.drift ω ω → ∃ ω₁, F.drift ω ω₁ ∧ F.world ω₁ = m (F.world ω)

variable (F pull) in
/-- Between two steps: the list is still to be delivered by a pull that has begun. If nothing was
outstanding when it began, it is not suspended. -/
def Delivering (ω : F.Situation) (s : σ) (xs : List α) : Prop :=
  ∃ ω₀, F.drift ω ω ∧ F.evolves ω₀ ω ∧ Reports F pull (Continues F (Delivers F pull) ω₀ xs) ω s

theorem Delivers.delivering (h : Delivers F pull ω s xs) (hv : F.Valid ω) :
    Delivering F pull ω s xs :=
  ⟨ω, F.drift_of_valid hv, F.evolves_refl ω, h.reports (F.evolves_refl ω) hv⟩

/-- One step after a change of the world, which leads to the situation `ω₁`. -/
theorem Delivering.step (h : Delivering F pull ω s xs) {m : W → W} (hm : F.Permits m) :
    ∃ o s' ω₁ ω' ys, F.drift ω ω₁ ∧ F.world ω₁ = m (F.world ω) ∧
      pull s (m (F.world ω)) = ((o, s'), F.world ω') ∧ F.evolves ω₁ ω' ∧
      (Run.complete xs).Next o (.complete ys) ∧ (¬o.IsEnding → Delivering F pull ω' s' ys) := by
  obtain ⟨ω₀, hω, h₀, h⟩ := h
  obtain ⟨ω₁, h₁, hw⟩ := hm ω hω
  obtain ⟨o, s', ω', hp, he, hy, hq⟩ := h.steps h₁
  rw [hw] at hp
  have h' : F.evolves ω₁ ω' := F.evolves_of_effect he
  have hd : F.drift ω' ω' := F.drift_of_effect he
  refine ⟨o, s', ω₁, ω', ?_⟩
  by_cases ho : o = .skip
  · subst ho
    have h₀' : F.evolves ω₀ ω' := F.evolves_trans h₀ (F.evolves_trans (F.evolves_of_drift h₁) h')
    exact ⟨xs, h₁, hw, hp, h', .skip _, fun _ => ⟨ω₀, hd, h₀', hy rfl⟩⟩
  · cases hq ho with
    | item hv h => exact ⟨_, h₁, hw, hp, h', .item .., fun _ => h.delivering hv⟩
    | done hv => exact ⟨[], h₁, hw, hp, h', .done, fun ho => absurd trivial ho⟩
    | suspended hv hs h => exact ⟨xs, h₁, hw, hp, h', .suspended .., fun _ => h.delivering hv⟩

/-- **Soundness**: a schedule shows nothing but the items of the list in order and then the end. -/
theorem Delivering.play_allows (h : Delivering F pull ω s xs) {moves : List (W → W)}
    (hm : ∀ m ∈ moves, F.Permits m) : (Run.complete xs).Allows (play pull moves s (F.world ω)).1 := by
  induction moves generalizing ω s xs with
  | nil => exact .nil _
  | cons m moves ih =>
    obtain ⟨o, s', ω₁, ω', ys, -, -, hp, -, hn, h'⟩ := h.step (hm m (.head _))
    simp only [play, hp]
    exact .cons hn fun ho => ih (h' ho) fun m hmem => hm m (.tail _ hmem)

/-- After the first changes of a schedule there is all that these changes bring about and that lasts,
unless the end has been reported before. -/
theorem Delivering.play_first (h : Delivering F pull ω s xs) {moves : Nat → W → W}
    (hm : ∀ n, F.Permits (moves n)) {P : Nat → F.Situation → Prop}
    (brings : ∀ {n ω ω₁}, F.drift ω ω₁ → F.world ω₁ = moves n (F.world ω) → P n ω₁)
    (lasts : ∀ {n ω ω₁}, F.evolves ω ω₁ → P n ω → P n ω₁) (n : Nat) :
    .done ∈ (play pull ((List.range n).map moves) s (F.world ω)).1 ∨
      ∃ os s' ω' ys, play pull ((List.range n).map moves) s (F.world ω) = (os, s', F.world ω') ∧
        Delivering F pull ω' s' ys ∧ ∀ i < n, P i ω' := by
  induction n with
  | zero => exact .inr ⟨[], s, ω, xs, rfl, h, fun i hi => absurd hi (Nat.not_lt_zero i)⟩
  | succ n ih =>
    have hr : (List.range (n + 1)).map moves = (List.range n).map moves ++ [moves n] := by
      simp [List.range_succ]
    rw [hr, play_append]
    obtain hdone | ⟨os, s', ω', ys, hp, h', hP⟩ := ih
    · exact .inl (List.mem_append_left _ hdone)
    obtain ⟨o, s'', ω₁, ω'', zs, h₁, hw, hp', he, hn, h''⟩ := h'.step (hm n)
    simp only [hp, play, hp']
    by_cases ho : o.IsEnding
    · cases hn with
      | done => exact .inl (List.mem_append_right _ (.head _))
      | item | skip | suspended => exact ho.elim
    · refine .inr ⟨os ++ [o], s'', ω'', zs, rfl, h'' ho, fun i hi => ?_⟩
      obtain hi | rfl := Nat.lt_succ_iff_lt_or_eq.mp hi
      · exact lasts (F.evolves_trans (F.evolves_of_drift h₁) he) (hP i hi)
      · exact lasts he (brings h₁ hw)

/-- A schedule comes to a report. -/
theorem Reports.play_reports {Q : Outcome α → F.Situation → σ → Prop} (h : Reports F pull Q ω s)
    (hω : F.drift ω ω) {moves : Nat → W → W} (hm : ∀ n, F.Permits (moves n)) :
    ∃ n os o s' ω', play pull ((List.range n).map moves) s (F.world ω) = (os ++ [o], s', F.world ω') ∧
      F.evolves ω ω' ∧ o ≠ .skip ∧ Q o ω' s' := by
  refine h.induction (P := fun ω s => F.drift ω ω → ∀ moves : Nat → W → W, (∀ n, F.Permits (moves n)) →
    ∃ n os o s' ω', play pull ((List.range n).map moves) s (F.world ω) = (os ++ [o], s', F.world ω') ∧
      F.evolves ω ω' ∧ o ≠ .skip ∧ Q o ω' s') ?_ hω moves hm
  intro ω s h hω moves hm
  obtain ⟨ω₁, h₁, hw⟩ := hm 0 ω hω
  obtain ⟨o, s', ω', hp, he, hy, hq⟩ := h ω₁ h₁
  rw [hw] at hp
  have h' : F.evolves ω ω' := F.evolves_trans (F.evolves_of_drift h₁) (F.evolves_of_effect he)
  by_cases ho : o = .skip
  · obtain ⟨n, os, o', s'', ω'', hplay, h'', ho', hQ⟩ :=
      (hy ho).2 (F.drift_of_effect he) (fun n => moves (n + 1)) fun n => hm (n + 1)
    refine ⟨n + 1, o :: os, o', s'', ω'', ?_, F.evolves_trans h' h'', ho', hQ⟩
    have hr : (List.range (n + 1)).map moves = moves 0 :: (List.range n).map fun n => moves (n + 1) := by
      simp [List.range_succ_eq_map, Function.comp_def]
    simp only [hr, play, hp, hplay, List.cons_append]
  · refine ⟨1, [], o, s', ω', ?_, h', ho, hq ho⟩
    simp only [List.range_one, List.map_cons, List.map_nil, play, hp, List.nil_append]

theorem mem_play_add {moves : Nat → W → W} {n m : Nat} {os : List (Outcome α)} {o : Outcome α} {s' : σ}
    {w w' : W} (h : play pull ((List.range n).map moves) s w = (os, s', w'))
    (ho : o ∈ (play pull ((List.range m).map fun i => moves (n + i)) s' w').1) :
    o ∈ (play pull ((List.range (n + m)).map moves) s w).1 := by
  have hr : (List.range (n + m)).map moves =
      (List.range n).map moves ++ (List.range m).map fun i => moves (n + i) := by
    simp [List.range_add, Function.comp_def]
  rw [hr, play_append, h]
  exact List.mem_append_right _ ho

/-- **Progress**: when nothing is outstanding, a schedule comes to the end. -/
theorem Delivers.play_ends (h : Delivers F pull ω s xs) (hv : F.Valid ω) (hs : F.settled ω)
    {moves : Nat → W → W} (hm : ∀ n, F.Permits (moves n)) :
    ∃ n, .done ∈ (play pull ((List.range n).map moves) s (F.world ω)).1 := by
  induction xs generalizing ω s moves with
  | nil =>
    obtain ⟨n, os, o, s', ω', hp, h', -, hc⟩ :=
      (h.reports (F.evolves_refl ω) hv).play_reports (F.drift_of_valid hv) hm
    cases hc with
    | done => exact ⟨n, by rw [hp]; exact List.mem_append_right _ (.head _)⟩
    | suspended _ hns => exact absurd hs hns
  | cons x xs ih =>
    obtain ⟨n, os, o, s', ω', hp, h', -, hc⟩ :=
      (h.reports (F.evolves_refl ω) hv).play_reports (F.drift_of_valid hv) hm
    cases hc with
    | item hv' h =>
      obtain ⟨m, hd⟩ := ih h hv' (F.settled_of_evolves h' hs) fun i => hm (n + i)
      exact ⟨n + m, mem_play_add hp hd⟩
    | suspended _ hns => exact absurd hs hns

/-- **Progress**: when nothing is outstanding any more, a schedule comes to the end. A pull that began
before may still be suspended. -/
theorem Delivering.play_ends (h : Delivering F pull ω s xs) (hs : F.settled ω) {moves : Nat → W → W}
    (hm : ∀ n, F.Permits (moves n)) :
    ∃ n, .done ∈ (play pull ((List.range n).map moves) s (F.world ω)).1 := by
  obtain ⟨ω₀, hω, h₀, h⟩ := h
  obtain ⟨n, os, o, s', ω', hp, h', -, hc⟩ := h.play_reports hω hm
  have hs' : F.settled ω' := F.settled_of_evolves h' hs
  cases hc with
  | item hv h =>
    obtain ⟨m, hd⟩ := h.play_ends hv hs' fun i => hm (n + i)
    exact ⟨n + m, mem_play_add hp hd⟩
  | done => exact ⟨n, by rw [hp]; exact List.mem_append_right _ (.head _)⟩
  | suspended hv _ h =>
    obtain ⟨m, hd⟩ := h.play_ends hv hs' fun i => hm (n + i)
    exact ⟨n + m, mem_play_add hp hd⟩

end

end LazyXPath
