import LazyXPath.Proofs.Run

/-!
# Schedules

A **schedule** is a list of changes of the world, with a pull after each of them (`play`). This module
says what a run means for the reports of a schedule. As long as the changes are those that the frame
permits, the reports are the items of the run in order and then its end, with suspensions and steps
without a report in between (`Runs.play_allows`). When nothing is outstanding any more, the end is
reported after finitely many pulls (`Runs.play_ends`).

What a sequence asks of its inputs and callbacks is seen from a log beside the world: `noting` is an
action that is noted there.
-/

namespace LazyXPath

variable {W α σ : Type}

/-! ### The reports of a schedule -/

/-- The reports of a schedule, and the state and the world after it. -/
def play (pull : σ → StateM W (Outcome α × σ)) : List (W → W) → σ → W → List (Outcome α) × σ × W
  | [], s, w => ([], s, w)
  | m :: moves, s, w =>
    let now := pull s (m w)
    let later := play pull moves now.1.2 now.2
    (now.1.1 :: later.1, later.2)

/-- A change of the world that may happen between two pulls, from a situation on. -/
def Frame.Permits (F : Frame W) (ω : F.Situation) (m : W → W) : Prop :=
  ∀ ω₁, F.Since ω ω₁ → ∃ ω₂, F.rely ω₁ ω₂ ∧ F.world ω₂ = m (F.world ω₁)

private theorem Frame.Permits.later {F : Frame W} {ω ω₁ : F.Situation} {m : W → W} (h : F.Permits ω m)
    (hω : F.rely ω ω₁) : F.Permits ω₁ m :=
  fun ω₂ h₂ => h ω₂ (.of_rely hω h₂)

/-- Whether a report is the last one. -/
def Outcome.IsEnding : Outcome α → Prop
  | .done | .failed _ => True
  | _ => False

/-- Reports that show a run: its items in order and then its end. Suspensions and steps without a report
do not count, and nothing is said about reports after the end. -/
inductive Run.Allows : Run α → List (Outcome α) → Prop where
  | nil (r : Run α) : Allows r []
  | unknown (os : List (Outcome α)) : Allows ⟨[], .unknown⟩ os
  | cons {r r' : Run α} {o : Outcome α} {os : List (Outcome α)} (next : r.Next o r')
      (rest : ¬o.IsEnding → Allows r' os) : Allows r (o :: os)

section

variable {F : Frame W} {pull : σ → StateM W (Outcome α × σ)} {ω : F.Situation} {s : σ} {r : Run α}

/-- **Soundness of runs**: a schedule shows nothing but the run. -/
theorem Runs.play_allows (h : Runs F pull ω s r) {moves : List (W → W)}
    (hm : ∀ m ∈ moves, F.Permits ω m) : r.Allows (play pull moves s (F.world ω)).1 := by
  induction moves generalizing ω s r with
  | nil => exact .nil r
  | cons m moves ih =>
    by_cases hr : r = ⟨[], .unknown⟩
    · exact hr ▸ .unknown _
    obtain ⟨ω₁, h₁, hw⟩ := hm m (.head _) ω (.refl ω)
    obtain ⟨o, s', ω', r', ⟨hp, hg⟩, hn, hy, hx⟩ := h.obeys hr h₁
    have hm' : ∀ m ∈ moves, F.Permits ω' m :=
      fun m hmem => (hm m (.tail _ hmem)).later (F.rely_guarantee h₁ hg)
    simp only [play, ← hw, hp]
    refine .cons hn fun ho => ?_
    cases o with
    | item | skip => exact ih (hy trivial) hm'
    | suspended d => exact ih (.of_suspended hy hx) hm'
    | done | failed => exact absurd trivial ho

/-- **Progress of runs**: when nothing is outstanding, a schedule comes to the end. -/
theorem Runs.play_ends (h : Runs F pull ω s r) (hr : r.tail ≠ .unknown) (hs : F.settled ω)
    {moves : Nat → W → W} (hm : ∀ n, F.Permits ω (moves n)) :
    ∃ n, ∃ o ∈ (play pull ((List.range n).map moves) s (F.world ω)).1, o.IsEnding := by
  refine h.induction (P := fun ω s r => r.tail ≠ .unknown → F.settled ω → ∀ moves : Nat → W → W,
    (∀ n, F.Permits ω (moves n)) →
      ∃ n, ∃ o ∈ (play pull ((List.range n).map moves) s (F.world ω)).1, o.IsEnding)
    (fun _ _ hr => absurd rfl hr) ?_ hr hs moves hm
  intro ω s r h hr hs moves hm
  obtain ⟨ω₁, h₁, hw⟩ := hm 0 ω (.refl ω)
  obtain ⟨o, s', ω', r', ⟨hp, hg⟩, hn, hy, hx⟩ := h ω₁ h₁
  have first (n : Nat) : (play pull ((List.range (n + 1)).map moves) s (F.world ω)).1 =
      o :: (play pull ((List.range n).map fun n => moves (n + 1)) s' (F.world ω')).1 := by
    simp only [List.range_succ_eq_map, List.map_cons, List.map_map, play, ← hw, hp]
    rfl
  have goesOn (ho : F.Advances ω₁ o) (ht : r'.tail = r.tail) : ∃ n, ∃ o ∈ (play pull
      ((List.range n).map moves) s (F.world ω)).1, o.IsEnding := by
    have h' := F.rely_guarantee h₁ hg
    obtain ⟨n, o', hmem, ho'⟩ := (hy ho).2 (ht ▸ hr) (F.settled_of_rely h' hs)
      (fun n => moves (n + 1)) fun n => (hm (n + 1)).later h'
    exact ⟨n + 1, o', first n ▸ .tail _ hmem, ho'⟩
  cases hn with
  | item x xs t => exact goesOn trivial rfl
  | skip r => exact goesOn trivial rfl
  | done => exact ⟨1, .done, first 0 ▸ .head _, trivial⟩
  | failed P e he => exact ⟨1, .failed e, first 0 ▸ .head _, trivial⟩
  | suspended r d => exact goesOn (F.settled_of_rely h₁ hs) rfl

end

theorem play_append (pull : σ → StateM W (Outcome α × σ)) (moves later : List (W → W)) (s : σ) (w : W) :
    play pull (moves ++ later) s w =
      let now := play pull moves s w
      let next := play pull later now.2.1 now.2.2
      (now.1 ++ next.1, next.2) := by
  induction moves generalizing s w with
  | nil => rfl
  | cons m moves ih => simp only [List.cons_append, play, ih]

/-- What every change and every pull preserves holds after a schedule. -/
theorem play_invariant {pull : σ → StateM W (Outcome α × σ)} {I : σ → W → Prop} {moves : List (W → W)}
    (hm : ∀ m ∈ moves, ∀ s w, I s w → I s (m w))
    (hp : ∀ s w, I s w → I (pull s w).1.2 (pull s w).2) {s : σ} {w : W} (h : I s w) :
    I (play pull moves s w).2.1 (play pull moves s w).2.2 := by
  induction moves generalizing s w with
  | nil => exact h
  | cons m moves ih =>
    exact ih (fun m hmem => hm m (.tail _ hmem)) (hp s (m w) (hm m (.head _) s w h))

/-! ### Repeated steps -/

section

variable {step : σ → StateM W (Outcome α × σ)} {s s' : σ} {w w' : W} {o : Outcome α} {fuel : Nat}

theorem untilReport_skip (h : step s w = ((.skip, s'), w')) :
    untilReport step (fuel + 1) s w = untilReport step fuel s' w' := by
  simp only [untilReport, bind, StateT.bind, h]

theorem untilReport_report (h : step s w = ((o, s'), w')) (ho : o ≠ .skip) :
    untilReport step (fuel + 1) s w = ((o, s'), w') := by
  cases o with
  | skip => exact absurd rfl ho
  | item | done | suspended | failed => simp only [untilReport, bind, StateT.bind, h]; rfl

/-- What is reported is the outcome of the last step, before which everything holds that steps without
a report preserve. -/
theorem untilReport_cases {I : σ → W → Prop}
    (hI : ∀ {s s' w w'}, I s w → step s w = ((.skip, s'), w') → I s' w') (hi : I s w)
    (h : untilReport step fuel s w = ((o, s'), w')) :
    o = .skip ∧ I s' w' ∨ o ≠ .skip ∧ ∃ s₁ w₁, I s₁ w₁ ∧ step s₁ w₁ = ((o, s'), w') := by
  induction fuel generalizing s w with
  | zero =>
    cases h
    exact .inl ⟨rfl, hi⟩
  | succ fuel ih =>
    rcases hp : step s w with ⟨⟨o₁, s₁⟩, w₁⟩
    by_cases ho₁ : o₁ = .skip
    · subst ho₁
      rw [untilReport_skip hp] at h
      exact ih (hI hi hp) h
    · rw [untilReport_report hp ho₁] at h
      cases h
      exact .inr ⟨ho₁, s, w, hi, hp⟩

theorem exists_step_of_untilReport (h : untilReport step fuel s w = ((o, s'), w')) (ho : o ≠ .skip) :
    ∃ s₁ w₁, step s₁ w₁ = ((o, s'), w') := by
  obtain ⟨rfl, -⟩ | ⟨-, s₁, w₁, -, hp⟩ :=
    untilReport_cases (I := fun _ _ => True) (fun _ _ => trivial) trivial h
  · exact absurd rfl ho
  · exact ⟨s₁, w₁, hp⟩

end

/-! ### Logs -/

section

variable {ε ι δ : Type}

/-- An action that is noted in a log beside the world. -/
def noting (note : ι → δ → List ε) (f : ι → StateM W δ) (i : ι) : StateM (W × List ε) δ := fun p =>
  let r := f i p.1
  (r.1, r.2, p.2 ++ note i r.1)

/-- A schedule beside a log, which the changes leave as it is. -/
def besideLog (moves : List (W → W)) : List (W × List ε → W × List ε) := moves.map (Prod.map · id)

/-- What is noted about a combinator. -/
inductive Notice (α ι : Type) where
  /-- The sequence it reads has delivered an item. -/
  | delivered (x : α)
  /-- Its callback has been called. -/
  | called (i : ι)

/-- What is noted of a report. -/
def Outcome.deliveries : Outcome α → List (Notice α ι)
  | .item x => [.delivered x]
  | _ => []

/-- The pulls of a sequence whose items are noted. -/
def notingItems (pull : σ → StateM W (Outcome α × σ)) : σ → StateM (W × List (Notice α ι)) (Outcome α × σ) :=
  noting (fun _ r => r.1.deliveries) pull

/-- A callback whose calls are noted. -/
def notingCalls (f : ι → StateM W δ) : ι → StateM (W × List (Notice α ι)) δ :=
  noting (fun i _ => [.called i]) f

/-- An action that is not noted. -/
def unnoted (f : ι → StateM W δ) : ι → StateM (W × List ε) δ := noting (fun _ _ => []) f

/-- Either an item is delivered and noted, or something else is reported and nothing is noted. -/
theorem notingItems_cases (pull : σ → StateM W (Outcome α × σ)) (s : σ) (w : W)
    (log : List (Notice α ι)) :
    (∃ x s' w', notingItems pull s (w, log) = ((.item x, s'), w', log ++ [.delivered x])) ∨
      ∃ o s' w', (∀ x, o ≠ .item x) ∧ notingItems pull s (w, log) = ((o, s'), w', log) := by
  rcases h : pull s w with ⟨⟨o, s'⟩, w'⟩
  have hp : notingItems pull s (w, log) = ((o, s'), w', log ++ o.deliveries) := by
    simp only [notingItems, noting, h]
  cases o with
  | item x => exact .inl ⟨x, s', w', hp⟩
  | done | suspended | failed | skip =>
    simp only [Outcome.deliveries, List.append_nil] at hp
    refine .inr ⟨_, s', w', ?_, hp⟩
    exact nofun

theorem exists_notingCalls (f : ι → StateM W δ) (i : ι) (w : W) (log : List (Notice α ι)) :
    ∃ a w', notingCalls f i (w, log) = (a, w', log ++ [.called i]) :=
  ⟨(f i w).1, (f i w).2, rfl⟩

theorem exists_unnoted (f : ι → StateM W δ) (i : ι) (w : W) (log : List ε) :
    ∃ a w', unnoted f i (w, log) = (a, w', log) :=
  ⟨(f i w).1, (f i w).2, by simp [unnoted, noting]⟩

/-- A frame beside a log that nothing may change. -/
def Frame.beside (F : Frame W) (ε : Type) : Frame (W × List ε) where
  Situation := F.Situation × List ε
  world p := (F.world p.1, p.2)
  rely p q := F.rely p.1 q.1 ∧ q.2 = p.2
  guarantee p q := F.guarantee p.1 q.1 ∧ q.2 = p.2
  settled p := F.settled p.1
  rely_trans h h' := ⟨F.rely_trans h.1 h'.1, h'.2.trans h.2⟩
  guarantee_trans h h' := ⟨F.guarantee_trans h.1 h'.1, h'.2.trans h.2⟩
  rely_of_guarantee h := ⟨F.rely_of_guarantee h.1, h.2⟩
  guarantee_idle h := ⟨F.guarantee_idle h.1, rfl⟩
  settled_of_rely h := F.settled_of_rely h.1

/-- A run beside a log. -/
theorem Runs.beside {F : Frame W} {pull : σ → StateM W (Outcome α × σ)} {ω : F.Situation} {s : σ}
    {r : Run α} (h : Runs F pull ω s r) (log : List ε) :
    Runs (F.beside ε) (unnoted pull) (ω, log) s r := by
  refine .coinduction (fun p s r => Runs F pull p.1 s r) ?_ h
  rintro ⟨ω, log⟩ s r h
  refine h.induction (P := fun ω s r => ∀ log : List ε,
    Proceeds (F.beside ε) (unnoted pull) (fun p s r => Runs F pull p.1 s r) (ω, log) s r)
    (fun ω s log => Proceeds.unknown (F := F.beside ε) (ω, log) s) ?_ log
  intro ω s r h log
  refine .of_obeys fun ⟨ω₁, log₁⟩ h₁ => ?_
  obtain ⟨o, s', ω', r', ⟨hp, hg⟩, hn, hy, hx⟩ := h ω₁ h₁.1
  have hp' : unnoted pull s (F.world ω₁, log₁) = ((o, s'), F.world ω', log₁) := by
    simp only [unnoted, noting, hp, List.append_nil]
  refine ⟨o, s', (ω', log₁), r', ⟨hp', hg, rfl⟩, hn, fun ho => (hy ?_).2 log₁, fun ho => hx ?_⟩
  · cases o <;> exact ho
  · cases o <;> exact ho

end

end LazyXPath
