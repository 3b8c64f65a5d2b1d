import LazyXPath.Proofs.Combinator
import LazyXPath.Proofs.Delivery

/-!
# Deliveries of combinators

What combinators deliver when their inputs deliver complete lists, under every regime. Here no input and
no callback fails, so that each combinator is a function on lists. All proofs but the one for several
sequences one after the other are by simulation (`Delivers.simulate`): it is enough to look at the items
and at the end of the input.

Callbacks that change the world are asked only when the input has just reported an item. The situation
is in order then, and the callback has to leave it in order (`Regime.Opens`).
-/

namespace LazyXPath

variable {W α β γ σ τ : Type}

/-! ### Callbacks -/

/-- An action gives a sequence that delivers a list, from a situation on. What else it gives is in
`out`. -/
def Regime.Opens {δ : Type} (F : Regime W) (pull : σ → StateM W (Outcome α × σ)) (ω : F.Situation)
    (f : StateM W δ) (out : σ → δ) (xs : List α) : Prop :=
  ∀ ω₁, F.evolves ω ω₁ → F.Valid ω₁ → ∃ s ω₂, f (F.world ω₁) = (out s, F.world ω₂) ∧ F.effect ω₁ ω₂ ∧
    F.Valid ω₂ ∧ Delivers F pull ω₂ s xs

/-- A callback that opens a sequence does so from every later situation. -/
theorem Regime.Opens.later {δ : Type} {F : Regime W} {pull : σ → StateM W (Outcome α × σ)}
    {ω ω₁ : F.Situation} {f : StateM W δ} {out : σ → δ} {xs : List α}
    (h : F.Opens pull ω f out xs) (h₁ : F.evolves ω ω₁) : F.Opens pull ω₁ f out xs :=
  fun ω₂ h₂ => h ω₂ (F.evolves_trans h₁ h₂)

/-- An action that leaves the world alone. -/
theorem Regime.Opens.of_pure {δ : Type} {F : Regime W} {pull : σ → StateM W (Outcome α × σ)}
    {ω : F.Situation} {f : StateM W δ} {out : σ → δ} {s : σ} {xs : List α}
    (hf : ∀ w, f w = (out s, w)) (h : Delivers F pull ω s xs) : F.Opens pull ω f out xs :=
  fun ω₁ h₁ hv => ⟨s, ω₁, hf _, F.effect_of_drift (F.drift_of_valid hv), hv, h.later h₁⟩

/-- An action after another one. -/
theorem Regime.Opens.bind {δ : Type} {F : Regime W} {pull : σ → StateM W (Outcome α × σ)}
    {pull' : τ → StateM W (Outcome β × τ)} {ω : F.Situation} {f : StateM W σ} {g : σ → StateM W δ}
    {out : τ → δ} {xs : List α} {ys : List β} (hf : F.Opens pull ω f id xs)
    (hg : ∀ ω₁ s, F.evolves ω ω₁ → Delivers F pull ω₁ s xs → F.Opens pull' ω₁ (g s) out ys) :
    F.Opens pull' ω (f >>= g) out ys := by
  intro ω₁ h₁ hv
  obtain ⟨s, ω₂, hs, he, hv₂, hd⟩ := hf ω₁ h₁ hv
  have h₂ : F.evolves ω ω₂ := F.evolves_trans h₁ (F.evolves_of_effect he)
  obtain ⟨t, ω₃, ht, he', hv₃, hd'⟩ := hg ω₂ s h₂ hd ω₂ (F.evolves_refl ω₂) hv₂
  refine ⟨t, ω₃, ?_, F.effect_trans he he', hv₃, hd'⟩
  have hs : f (F.world ω₁) = (s, F.world ω₂) := hs
  simp only [Bind.bind, StateT.bind, hs]
  exact ht

/-- An action whose result is wrapped. -/
theorem Regime.Opens.wrap {δ ε : Type} {F : Regime W} {pull : σ → StateM W (Outcome α × σ)}
    {ω : F.Situation} {f : StateM W δ} {out : σ → δ} {xs : List α} (h : F.Opens pull ω f out xs)
    (g : δ → ε) : F.Opens pull ω (f >>= fun r => pure (g r)) (fun s => g (out s)) xs := by
  intro ω₁ h₁ hv
  obtain ⟨s, ω₂, hs, he, hv₂, hd⟩ := h ω₁ h₁ hv
  refine ⟨s, ω₂, ?_, he, hv₂, hd⟩
  simp only [Bind.bind, StateT.bind, hs]
  rfl

/-- A callback with a state gives sequences that deliver lists, for the items of a list one after the
other. -/
inductive Regime.OpensEach (F : Regime W) (pull : τ → StateM W (Outcome β × τ)) (ω : F.Situation)
    (f : γ → α → StateM W (Except Error τ × γ)) : γ → List α → List (List β) → Prop where
  | nil (g : γ) : OpensEach F pull ω f g [] []
  | cons {g g' : γ} {x : α} {xs : List α} {ys : List β} {yss : List (List β)}
      (first : F.Opens pull ω (f g x) (fun t => (.ok t, g')) ys)
      (rest : OpensEach F pull ω f g' xs yss) : OpensEach F pull ω f g (x :: xs) (ys :: yss)

section

variable {F : Regime W} {pull : σ → StateM W (Outcome α × σ)} {ω ω₁ : F.Situation} {s : σ} {xs : List α}

/-- So do the callbacks for several items. -/
private theorem Regime.OpensEach.later {pull : τ → StateM W (Outcome β × τ)}
    {f : γ → α → StateM W (Except Error τ × γ)} {g : γ} {yss : List (List β)}
    (h : F.OpensEach pull ω f g xs yss) (h₁ : F.evolves ω ω₁) : F.OpensEach pull ω₁ f g xs yss := by
  induction h with
  | nil g => exact .nil g
  | cons first _ ih => exact .cons (first.later h₁) ih

/-! ### Item by item -/

/-- The items that pass a test with a state. -/
def passing (φ : γ → α → Bool × γ) : γ → List α → List α
  | _, [] => []
  | g, x :: xs => if (φ g x).1 then x :: passing φ (φ g x).2 xs else passing φ (φ g x).2 xs

/-- A filter delivers the items that pass, whatever state the predicate has. -/
theorem filtering_delivers {f : γ → α → StateM W (Except Error Bool × γ)} {φ : γ → α → Bool × γ}
    (hf : ∀ g x w, f g x w = ((.ok (φ g x).1, (φ g x).2), w)) (h : Delivers F pull ω s xs) (g : γ) :
    Delivers F (Step.filtering f pull) ω (g, s) (passing φ g xs) := by
  refine Delivers.simulate (e := Prod.mk) (H := fun _ _ _ => True) (R := passing φ) (fun _ _ => trivial)
    (fun ho _ hp => Step.filtering_pass hp ho) ?_ ?_ trivial h
  · intro ω₀ ω ω' g s s' x xs _ ih hp he hv h
    have hp' := Step.filtering_ok hp (hf g x (F.world ω'))
    rw [passing]
    cases hb : (φ g x).1 with
    | true =>
      rw [hb] at hp'
      exact .continues hp' he (.item hv (ih trivial h))
    | false =>
      rw [hb] at hp'
      exact .skip hp' he ⟨hv, ih trivial h⟩
  · intro ω₀ ω ω' g s s' _ hp he hv
    exact .continues (Step.filtering_pass hp nofun) he (.done hv)

/-- Where nothing is to be taken, nothing is pulled. -/
theorem taking_zero_delivers (ω : F.Situation) (s : σ) :
    Delivers F (Step.taking pull) ω (0, s) [] := by
  refine .of_reports fun ω₁ _ hv => .of_steps fun ω₂ h₂ => ?_
  exact .continues rfl (F.effect_of_drift h₂) (.done (F.valid_of_drift hv h₂))

/-- A bounded prefix delivers the first items. -/
theorem taking_delivers (h : Delivers F pull ω s xs) (n : Nat) :
    Delivers F (Step.taking pull) ω (n, s) (xs.take n) := by
  cases n with
  | zero => exact taking_zero_delivers ω s
  | succ n =>
    refine Delivers.simulate (e := fun n s => (n + 1, s)) (H := fun _ _ _ => True)
      (R := fun n xs => xs.take (n + 1)) (fun _ _ => trivial) (fun ho _ hp => Step.taking_pass hp ho)
      ?_ ?_ trivial h
    · intro ω₀ ω ω' n s s' x xs _ ih hp he hv h
      rw [List.take_succ_cons]
      refine .continues (Step.taking_item hp) he (.item hv ?_)
      cases n with
      | zero => exact taking_zero_delivers ω' s'
      | succ n => exact ih trivial h
    · intro ω₀ ω ω' n s s' _ hp he hv
      exact .continues (Step.taking_pass hp nofun) he (.done hv)

/-- Items that are pending are delivered first. -/
theorem expanding_pending_delivers {f : α → Except Error (List β)} {ys : List β} (pending : List β)
    (h : Delivers F (Step.expanding f pull) ω ([], s) ys) :
    Delivers F (Step.expanding f pull) ω (pending, s) (pending ++ ys) := by
  induction pending generalizing ω with
  | nil => exact h
  | cons y pending ih =>
    refine .of_reports fun ω₁ h₁ hv => .of_steps fun ω₂ h₂ => ?_
    have h' : F.evolves ω ω₂ := F.evolves_trans h₁ (F.evolves_of_drift h₂)
    exact .continues rfl (F.effect_of_drift h₂) (.item (F.valid_of_drift hv h₂) (ih (h.later h')))

/-- An expansion delivers the replacements of all items in a row. -/
theorem expanding_delivers {f : α → Except Error (List β)} {yss : List (List β)}
    (hf : List.Forall₂ (fun x ys => f x = .ok ys) xs yss) (h : Delivers F pull ω s xs) :
    Delivers F (Step.expanding f pull) ω ([], s) yss.flatten := by
  refine Delivers.simulate (e := fun (_ : List (List β)) s => ([], s))
    (H := fun _ yss xs => List.Forall₂ (fun x ys => f x = .ok ys) xs yss) (R := fun yss _ => yss.flatten)
    (fun _ hf => hf) (fun ho _ hp => Step.expanding_pass hp ho) ?_ ?_ hf h
  · intro ω₀ ω ω' yss s s' x xs hf ih hp he hv h
    obtain _ | ⟨hx, hf⟩ := hf
    rename_i ys yss
    rw [List.flatten_cons]
    cases ys with
    | nil => exact .skip (Step.expanding_nil hp hx) he ⟨hv, ih hf h⟩
    | cons y ys =>
      refine .continues (Step.expanding_cons hp hx) he (.item hv ?_)
      exact expanding_pending_delivers ys (ih hf h)
  · intro ω₀ ω ω' yss s s' hf hp he hv
    cases hf
    exact .continues (Step.expanding_pass hp nofun) he (.done hv)

/-! ### All items at once -/

/-- What a collection has computed is delivered as a list. -/
private theorem collecting_emit_delivers {f : List α → StateM W (Except Error (List β))} (ys : List β)
    (ω : F.Situation) : Delivers F (Step.collecting f pull) ω (.inr ys) ys := by
  induction ys generalizing ω with
  | nil =>
    refine .of_reports fun ω₁ _ hv => .of_steps fun ω₂ h₂ => ?_
    exact .continues rfl (F.effect_of_drift h₂) (.done (F.valid_of_drift hv h₂))
  | cons y ys ih =>
    refine .of_reports fun ω₁ _ hv => .of_steps fun ω₂ h₂ => ?_
    exact .continues rfl (F.effect_of_drift h₂) (.item (F.valid_of_drift hv h₂) (ih ω₂))

/-- A collection delivers what its function makes of the whole list. -/
theorem collecting_delivers {f : List α → StateM W (Except Error (List β))} {ys : List β}
    (hf : ∀ w, f xs w = (.ok ys, w)) (h : Delivers F pull ω s xs) :
    Delivers F (Step.collecting f pull) ω (.inl ([], s)) ys := by
  -- what has been seen and what is still to come are the whole list
  refine Delivers.simulate (e := fun (seen : List α) s => Sum.inl (seen, s))
    (H := fun _ seen rest => seen.reverse ++ rest = xs) (R := fun _ _ => ys) (fun _ hs => hs)
    (fun ho hd hp => Step.collecting_pass hp ho hd) ?_ ?_ (g := []) rfl h
  · intro ω₀ ω ω' seen s s' x rest hs ih hp he hv h
    refine .skip (Step.collecting_item hp) he ⟨hv, ih ?_ h⟩
    rw [List.reverse_cons, List.append_assoc, List.singleton_append, hs]
  · intro ω₀ ω ω' seen s s' hs hp he hv
    rw [List.append_nil] at hs
    have hc : f seen.reverse (F.world ω') = (.ok ys, F.world ω') := hs ▸ hf (F.world ω')
    exact .skip (Step.collecting_ok hp hc) he ⟨hv, collecting_emit_delivers ys ω'⟩

/-! ### Sequences of sequences -/

/-- Several sequences deliver their lists one after the other. -/
theorem joining_delivers {ss : List σ} {xss : List (List α)}
    (h : List.Forall₂ (Delivers F pull ω) ss xss) :
    Delivers F (Step.joining pull) ω ss xss.flatten := by
  induction h with
  | nil =>
    refine .of_reports fun ω₁ _ hv => .of_steps fun ω₂ h₂ => ?_
    exact .continues rfl (F.effect_of_drift h₂) (.done (F.valid_of_drift hv h₂))
  | @cons s xs ss xss h hs ih =>
    refine Delivers.simulate (e := fun (_ : Unit) s => s :: ss)
      (H := fun ω _ _ => Delivers F (Step.joining pull) ω ss xss.flatten)
      (R := fun _ xs => xs ++ xss.flatten) (fun h₁ ih => ih.later h₁) ?_ ?_ ?_ (g := ()) ih h
    · intro _ s s' w w' o ho hd hp
      rw [Outcome.pass_eq_self ho]
      exact Step.joining_pass hp hd
    · intro ω₀ ω ω' _ s s' x xs hrest ih hp he hv h
      exact .continues (Step.joining_pass hp nofun) he (.item hv (ih (g := ()) hrest h))
    · intro ω₀ ω ω' _ s s' hrest hp he hv
      cases hs with
      | nil => exact .continues (Step.joining_last hp) he (.done hv)
      | cons => exact .skip (Step.joining_next hp) he ⟨hv, hrest⟩

section FlatMap

variable {f : γ → α → StateM W (Except Error τ × γ)} {pullInner : τ → StateM W (Outcome β × τ)} {g : γ}
  {t : τ}

/-- Inside an inner sequence: the rest begins at its end. -/
theorem flattening_inner_delivers {ys zs : List β} (h : Delivers F pullInner ω t ys)
    (hz : Delivers F (Step.flattening f pull pullInner) ω (g, s, none) zs) :
    Delivers F (Step.flattening f pull pullInner) ω (g, s, some t) (ys ++ zs) := by
  refine Delivers.simulate (e := fun (_ : Unit) t => (g, s, some t))
    (H := fun ω _ _ => Delivers F (Step.flattening f pull pullInner) ω (g, s, none) zs)
    (R := fun _ ys => ys ++ zs) (fun h₁ hz => hz.later h₁) ?_ ?_ ?_ (g := ()) hz h
  · intro _ t t' w w' o ho hd hp
    rw [Outcome.pass_eq_self ho]
    exact Step.flattening_inner hp hd
  · intro ω₀ ω ω' _ t t' y ys hz ih hp he hv h
    exact .continues (Step.flattening_inner hp nofun) he (.item hv (ih (g := ()) hz h))
  · intro ω₀ ω ω' _ t t' hz hp he hv
    exact .skip (Step.flattening_done hp) he ⟨hv, hz⟩

/-- A nested sequence delivers the lists of the inner ones one after the other. -/
theorem flattening_delivers {yss : List (List β)} (hf : F.OpensEach pullInner ω f g xs yss)
    (h : Delivers F pull ω s xs) :
    Delivers F (Step.flattening f pull pullInner) ω (g, s, none) yss.flatten := by
  refine Delivers.simulate (e := fun (p : γ × List (List β)) s => (p.1, s, none))
    (H := fun ω p xs => F.OpensEach pullInner ω f p.1 xs p.2) (R := fun p _ => p.2.flatten)
    (fun h₁ hf => hf.later h₁) (fun ho _ hp => Step.flattening_outer hp ho) ?_ ?_ (g := (g, yss)) hf h
  · rintro ω₀ ω ω' ⟨g, _⟩ s s' x xs (_ | ⟨first, rest⟩) ih hp he hv h
    rename_i g' ys yss
    obtain ⟨t, ω₂, hc, he₂, hv₂, ht⟩ := first ω' (F.evolves_refl ω') hv
    have h₂ : F.evolves ω' ω₂ := F.evolves_of_effect he₂
    refine .skip (Step.flattening_ok hp hc) (F.effect_trans he he₂) ⟨hv₂, ?_⟩
    exact flattening_inner_delivers ht (ih (g := (g', yss)) (rest.later h₂) (h.later h₂))
  · rintro ω₀ ω ω' ⟨g, _⟩ s s' (_ | _) hp he hv
    exact .continues (Step.flattening_outer hp nofun) he (.done hv)

end FlatMap

end

end LazyXPath
