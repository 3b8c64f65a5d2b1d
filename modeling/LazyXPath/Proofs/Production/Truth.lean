import LazyXPath.Proofs.Production.Call

/-!
# Productions of truth values

The **verdict** on a run is the truth value that a search for it finds, or the way in which the run ends without
one (`Run.verdict`). A search produces its verdict and nothing else (`truth_produces`). What is made of a truth value
is produced **given** the verdict (`truth_flatMap_produces`): it begins when the verdict has been found, and if there is
none, nothing of it comes to pass.
-/

namespace LazyXPath

/-! ### Verdicts -/

namespace Run

/-- The verdict on what comes after an item whose truth value is known. Nothing may come. -/
def verdictOnRest (b : Bool) : Run Item → Except Tail Bool
  | ⟨[], .done⟩ => .ok b
  | ⟨[], t⟩ => .error t
  | ⟨_ :: _, _⟩ => .error (.failed .booleanValueOfMany)

/-- The verdict on a sequence, of its own or at a position. If it begins with a node, then nothing else matters. -/
def verdict (f : Forest) (position : Option Nat) : Run Item → Except Tail Bool
  | ⟨[], .done⟩ => .ok false
  | ⟨[], t⟩ => .error t
  | ⟨.node _ :: _, _⟩ => .ok true
  | ⟨.atomic v :: xs, t⟩ =>
    match v.predicateTruth position with
    | .ok b => verdictOnRest b ⟨xs, t⟩
    | .error e => .error (.failed e)
  | ⟨x :: _, _⟩ => .error (.failed (.noBooleanValue (x.kind f)))

/-- What follows from a verdict. Without one, there are no items. -/
def given (v : Except Tail Bool) (k : Bool → Run Item) : Run Item :=
  match v with
  | .ok b => k b
  | .error t => ⟨[], t⟩

/-- The verdict itself, as one truth value. -/
def ofVerdict (v : Except Tail Bool) : Run Item := given v fun b => .complete [.ofBool b]

/-- The verdict when the truth value of a first item may be known. -/
def verdictAfter (f : Forest) (position : Option Nat) : Option Bool → Run Item → Except Tail Bool
  | none, r => r.verdict f position
  | some b, r => r.verdictOnRest b

end Run

/-! ### The search -/

section

variable {W σ : Type} {F : Regime W} {pull : σ → StateM W (Outcome Item × σ)} {ω : F.Situation} {s s' : σ} {w w' : W}
  {f : Forest} {position : Option Nat} {r : Run Item}

theorem Step.judging_error {v : Atomic} {e : Error} (h : pull s w = ((.item (.atomic v), s'), w'))
    (he : v.predicateTruth position = .error e) :
    judging f position pull (.inl (none, s)) w = ((.failed e, .inl (none, s')), w') := by
  simp only [judging, truth, bind, StateT.bind, h, he]
  rfl

theorem Step.judging_other {x : Item} (h : pull s w = ((.item x, s'), w')) (hnode : ∀ n, x ≠ .node n)
    (hatomic : ∀ v, x ≠ .atomic v) : judging f position pull (.inl (none, s)) w =
      ((.failed (.noBooleanValue (x.kind f)), .inl (none, s')), w') := by
  cases x with
  | node n => exact absurd rfl (hnode n)
  | atomic v => exact absurd rfl (hatomic v)
  | map | array | function =>
    simp only [judging, truth, bind, StateT.bind, h]
    rfl

theorem Step.judging_second {x : Item} {b : Bool} (h : pull s w = ((.item x, s'), w')) :
    judging f position pull (.inl (some b, s)) w = ((.failed .booleanValueOfMany, .inl (some b, s')), w') := by
  simp only [judging, truth, bind, StateT.bind, h]
  rfl

/-- A search produces its verdict. -/
theorem judging_produces (f : Forest) (position : Option Nat) (h : Produces F pull ω s r) :
    Produces F (Step.judging f position pull) ω (.inl (none, s)) (.ofVerdict (r.verdict f position)) := by
  refine Produces.simulate (e := fun (first : Option Bool) s => Sum.inl (first, s)) (H := fun _ _ _ => True)
    (R := fun first r => .ofVerdict (r.verdictAfter f position first)) (fun _ _ => trivial)
    (fun ho hd hp => Step.judging_pass hp ho hd) ?_ ?_ ?_ ?_ (g := none) trivial h
  · intro _ first _
    cases first <;> rfl
  · intro _ first P _
    cases first <;> rfl
  · intro ω₀ ω ω' first s s' x xs t _ ih hp he hv h
    cases first with
    | some b => exact .reported (Step.judging_second hp) he (.failed hv rfl)
    | none =>
      cases x with
      | node n =>
        exact .reported (Step.judging_node hp) he
          (.item hv (produces_complete_iff.mpr (judging_spent_delivers f position ω' s')))
      | atomic v =>
        simp only [Run.verdictAfter, Run.verdict]
        cases hv' : v.predicateTruth position with
        | error e => exact .reported (Step.judging_error hp hv') he (.failed hv rfl)
        | ok b => exact .skip (Step.judging_atomic hp hv') he ⟨hv, ih (g := some b) trivial h⟩
      | map | array | function =>
        exact .reported (Step.judging_other hp (fun _ h => by cases h) fun _ h => by cases h) he (.failed hv rfl)
  · intro ω₀ ω ω' first s s' _ hp he hv
    have hverdict : Run.verdictAfter f position first ⟨[], .done⟩ = .ok (first.getD false) := by cases first <;> rfl
    rw [hverdict]
    exact .reported (Step.judging_done hp) he
      (.item hv (produces_complete_iff.mpr (judging_spent_delivers f position ω' s')))

end

/-! ### Sequences made from items -/

section

variable {W α β γ σ τ : Type} {F : Regime W} {pull : σ → StateM W (Outcome α × σ)}
  {pullInner : τ → StateM W (Outcome β × τ)} {f : γ → α → StateM W (Except Error τ × γ)} {ω ω₁ : F.Situation}

/-- A callback with a state gives sequences that produce runs, for the items of a list one after the other. -/
inductive Regime.ProducesEach (F : Regime W) (pull : τ → StateM W (Outcome β × τ)) (ω : F.Situation)
    (f : γ → α → StateM W (Except Error τ × γ)) : γ → List α → List (Run β) → Prop where
  | nil (g : γ) : ProducesEach F pull ω f g [] []
  | cons {g g' : γ} {x : α} {xs : List α} {r : Run β} {rs : List (Run β)}
      (first : ∀ ω₁, F.evolves ω ω₁ → F.Valid ω₁ → ∃ t ω₂, f g x (F.world ω₁) = ((.ok t, g'), F.world ω₂) ∧
        F.effect ω₁ ω₂ ∧ F.Valid ω₂ ∧ Produces F pull ω₂ t r)
      (rest : ProducesEach F pull ω f g' xs rs) : ProducesEach F pull ω f g (x :: xs) (r :: rs)

private theorem Regime.ProducesEach.later {g : γ} {xs : List α} {rs : List (Run β)}
    (h : F.ProducesEach pullInner ω f g xs rs) (h₁ : F.evolves ω ω₁) : F.ProducesEach pullInner ω₁ f g xs rs := by
  induction h with
  | nil g => exact .nil g
  | cons first _ ih => exact .cons (fun ω₂ h₂ => first ω₂ (F.evolves_trans h₁ h₂)) ih

variable {g : γ} {s : σ} {t : τ}

/-- Inside an inner sequence: what comes after it begins if it comes to its end. -/
theorem flattening_inner_produces {r r' : Run β} (h : Produces F pullInner ω t r)
    (hr' : r.tail = .done → Produces F (Step.flattening f pull pullInner) ω (g, s, none) r') :
    Produces F (Step.flattening f pull pullInner) ω (g, s, some t) (r.append r') := by
  refine Produces.simulate (e := fun (_ : Unit) t => (g, s, some t))
    (H := fun ω _ r => r.tail = .done → Produces F (Step.flattening f pull pullInner) ω (g, s, none) r')
    (R := fun _ r => r.append r') (fun h₁ hr' ht => (hr' ht).later h₁) ?_ (fun _ => rfl) (fun _ => rfl) ?_ ?_
    (g := ()) hr' h
  · intro _ t t' w w' o ho hd hp
    rw [Outcome.pass_eq_self ho]
    exact Step.flattening_inner hp hd
  · intro ω₀ ω ω' _ t t' x xs tail hr' ih hp he hv h
    rw [Run.append_cons]
    exact .reported (Step.flattening_inner hp nofun) he (.item hv (ih (g := ()) hr' h))
  · intro ω₀ ω ω' _ t t' hr' hp he hv
    exact .skip (Step.flattening_done hp) he ⟨hv, hr' rfl⟩

/-- The sequences that are made from the items of a run produce their runs, and then the rest of the run. -/
theorem flattening_produces {r : Run α} {rs : List (Run β)} (hf : F.ProducesEach pullInner ω f g r.items rs)
    (h : Produces F pull ω s r) :
    Produces F (Step.flattening f pull pullInner) ω (g, s, none) (rs.foldr Run.append ⟨[], r.tail⟩) := by
  refine Produces.simulate (e := fun (p : γ × List (Run β)) s => (p.1, s, none))
    (H := fun ω p r => F.ProducesEach pullInner ω f p.1 r.items p.2)
    (R := fun p r => p.2.foldr Run.append ⟨[], r.tail⟩) (fun h₁ hf => hf.later h₁)
    (fun ho _ hp => Step.flattening_outer hp ho) ?_ ?_ ?_ ?_ (g := (g, rs)) hf h
  · rintro ω ⟨g, _⟩ (_ | _)
    rfl
  · rintro ω ⟨g, _⟩ P (_ | _)
    rfl
  · rintro ω₀ ω ω' ⟨g, _⟩ s s' x xs tail (_ | ⟨first, rest⟩) ih hp he hv h
    rename_i g' r rs
    obtain ⟨t, ω₂, hc, he₂, hv₂, ht⟩ := first ω' (F.evolves_refl ω') hv
    have h₂ : F.evolves ω' ω₂ := F.evolves_of_effect he₂
    refine .skip (Step.flattening_ok hp hc) (F.effect_trans he he₂) ⟨hv₂, ?_⟩
    exact flattening_inner_produces ht fun _ => ih (g := (g', rs)) (rest.later h₂) (h.later h₂)
  · rintro ω₀ ω ω' ⟨g, _⟩ s s' (_ | _) hp he hv
    exact .reported (Step.flattening_outer hp nofun) he (.done hv)

end

section

variable {env : Environment} {F : Regime (World × Nat)} {ω : F.Situation} {s : Stream} {r : Run Item}

theorem truth_produces (position : Option Nat) (h : Produces F (streamPull env) ω s r) :
    Produces F (streamPull env) ω (.run (.truth position none s)) (.ofVerdict (r.verdict env.forest position)) :=
  StreamOf.produces_run ((judging_produces env.forest position h).embed (Cursor.judging position)
    (cursorStep_judging env position))

private theorem Run.append_complete_nil {α : Type} (r : Run α) : r.append (.complete []) = r := by
  obtain ⟨xs, t⟩ := r
  cases t with
  | done => simp [append, prepend, complete]
  | fails | unknown => rfl

/-- What is made of a verdict is produced given the verdict. -/
theorem truth_flatMap_produces {f f' : Expander} {v : Except Tail Bool} {k : Bool → Run Item}
    (hf : ∀ b, v = .ok b → ∀ ω₁, F.evolves ω ω₁ → F.Valid ω₁ → ∃ t ω₂,
      atDepth env (fun E => Expander.apply env E f (.ofBool b)) (F.world ω₁) = ((.ok t, f'), F.world ω₂) ∧
        F.effect ω₁ ω₂ ∧ F.Valid ω₂ ∧ Produces F (streamPull env) ω₂ t (k b))
    (h : Produces F (streamPull env) ω s (.ofVerdict v)) :
    Produces F (streamPull env) ω (s.flatMap f) (.given v k) := by
  have hflat {rs : List (Run Item)} (hrs : F.ProducesEach (streamPull env) ω
      (fun f x => atDepth env fun E => Expander.apply env E f x) f (Run.ofVerdict v).items rs) :=
    StreamOf.produces_run ((flattening_produces hrs h).embed Cursor.flattening (cursorStep_flattening env))
  cases v with
  | error t => exact hflat (.nil f)
  | ok b =>
    have hb := hflat (.cons (hf b rfl) (.nil f'))
    rw [List.foldr_cons, List.foldr_nil] at hb
    rw [← Run.append_complete_nil (Run.given (.ok b) k)]
    exact hb

end

end LazyXPath
