import LazyXPath.Proofs.Delivery.Combinator
import LazyXPath.Proofs.Zip

/-!
# Deliveries of combinations of single items

`zipping_delivers` says what is delivered by a function of at most one item from each of several
sequences, under every regime. A pull goes through the sequences one after the other, and each of them
delivers at most one item and its end, or is suspended. The proof is along the sequences that are still
to be visited in this round, and for the current one along what it still delivers (`RoundDelivers`).
-/

namespace LazyXPath

variable {W α β σ τ : Type}

section

variable (F : Regime W) (pull : σ → StateM W (Outcome α × σ))

/-- A sequence of which at most the item `x` is wanted: it has been found, or is still to come. -/
def SlotDelivers (ω : F.Situation) (slot : Step.Slot α σ) (x : Option α) : Prop :=
  ∃ ys, x.toList = slot.item.toList ++ ys ∧ Delivers F pull ω slot.input ys

/-- The sequences in a round, with the items that are wanted of those before, of the current one and of
those after it. If none is waited for, the items of those before have been found. -/
structure RoundDelivers (ω : F.Situation) (r : Step.Round α σ) (xb : List (Option α)) (x : Option α)
    (xa : List (Option α)) : Prop where
  before : List.Forall₂ (SlotDelivers F pull ω) r.before xb
  current : SlotDelivers F pull ω r.current x
  after : List.Forall₂ (SlotDelivers F pull ω) r.after xa
  visited : r.waiting = none → r.before.map (·.item) = xb

end

section

variable {F : Regime W} {pull : σ → StateM W (Outcome α × σ)} {ω ω₀ ω' : F.Situation}

private theorem Closed.delivers {s : σ} (h : Closed pull s) (ω : F.Situation) : Delivers F pull ω s [] := by
  refine .of_reports fun ω₁ _ hv => .of_steps fun ω₂ h₂ => ?_
  exact .continues (h (F.world ω₂)) (F.effect_of_drift h₂) (.done (F.valid_of_drift hv h₂))

private theorem SlotDelivers.later {slot : Step.Slot α σ} {x : Option α} (h : SlotDelivers F pull ω slot x)
    (hω : F.evolves ω ω') : SlotDelivers F pull ω' slot x := by
  obtain ⟨ys, hx, hd⟩ := h
  exact ⟨ys, hx, hd.later hω⟩

namespace RoundDelivers

variable {r : Step.Round α σ} {xb xa : List (Option α)} {x : Option α}

/-- A visit of the current sequence. -/
theorem visit (h : RoundDelivers F pull ω r xb x xa) (hω : F.evolves ω ω') {s : σ} {item : Option α}
    {waiting : Option DeferredId} (hs : SlotDelivers F pull ω' ⟨s, item⟩ x)
    (hw : waiting = none → r.waiting = none) :
    RoundDelivers F pull ω' (r.visit s item waiting) xb x xa where
  before := h.before.imp fun _ _ hb => hb.later hω
  current := hs
  after := h.after.imp fun _ _ ha => ha.later hω
  visited hw' := h.visited (hw hw')

/-- The next sequence. -/
theorem next {x' : Option α} (h : RoundDelivers F pull ω r xb x (x' :: xa))
    (hd : r.waiting = none → r.current.item = x) : ∃ t ts, r.after = t :: ts ∧
      RoundDelivers F pull ω ⟨r.current :: r.before, t, ts, r.waiting⟩ (x :: xb) x' xa := by
  obtain ⟨t, ts, ht, hts, ha⟩ := List.forall₂_cons_right_iff.mp h.after
  refine ⟨t, ts, ha, .cons h.current h.before, ht, hts, fun hw => ?_⟩
  rw [List.map_cons, hd hw, h.visited hw]

/-- All sequences in order. -/
theorem slots (h : RoundDelivers F pull ω r xb x xa) :
    List.Forall₂ (SlotDelivers F pull ω) r.slots (xb.reverse ++ x :: xa) :=
  List.rel_append (List.rel_reverse h.before) (.cons h.current h.after)

end RoundDelivers

end

/-! ### One round -/

section

variable {F : Regime W} {pull : σ → StateM W (Outcome α × σ)} {ω ω₀ ω' : F.Situation}
  {combine : List (Option α) → StateM W (Except Error τ)} {pullOut : τ → StateM W (Outcome β × τ)}
  {xs : List (Option α)} {zs : List β}

private theorem zipping_ready_delivers (h : F.Opens pullOut ω (combine xs) .ok zs) :
    Delivers F (Step.zipping combine pull pullOut) ω (.ready xs) zs := by
  refine .of_reports fun ω₁ h₁ hv => .of_steps fun ω₂ h₂ => ?_
  obtain ⟨t, ω₃, hc, he, hv₃, ht⟩ :=
    h ω₂ (F.evolves_trans h₁ (F.evolves_of_drift h₂)) (F.valid_of_drift hv h₂)
  have hp : Step.zipping combine pull pullOut (.ready xs) (F.world ω₂) =
      ((.skip, .forward t), F.world ω₃) := by
    simp only [Step.zipping, bind, StateT.bind, hc]
    rfl
  have hf : Delivers F (Step.zipping combine pull pullOut) ω₃ (.forward t) zs :=
    ht.embed Zipping.forward fun _ _ => rfl
  have h₃ : F.evolves ω₁ ω₃ := F.evolves_trans (F.evolves_of_drift h₂) (F.evolves_of_effect he)
  exact .skip hp he ((hf.reports (F.evolves_refl ω₃) hv₃).mono fun _ _ _ _ hc => hc.since h₃)

variable (F pull combine pullOut xs zs) in
/-- The states at the beginning of a round in which the items `xs` are wanted and `zs` is delivered at
last. -/
def RoundStart (ω : F.Situation) (z : Zipping α σ τ) (ys : List β) : Prop :=
  ys = zs ∧ F.Opens pullOut ω (combine xs) .ok zs ∧ ∃ t ts, z = .reading ⟨[], t, ts, none⟩ ∧
    List.Forall₂ (SlotDelivers F pull ω) (t :: ts) xs

variable (F pull combine pullOut xs zs) in
/-- A pull of a state that has begun in the situation `ω₀` comes to the report that it ought to. -/
def RoundReports (ω₀ ω : F.Situation) (z : Zipping α σ τ) : Prop :=
  Reports F (Step.zipping combine pull pullOut) (Continues F (fun ω z ys =>
    Delivers F (Step.zipping combine pull pullOut) ω z ys ∨
      RoundStart F pull combine pullOut xs zs ω z ys) ω₀ zs) ω z

variable {r : Step.Round α σ} {xb xa : List (Option α)} {x : Option α}

/-- The current sequence is left after a visit. -/
theorem leaving_steps {z : Zipping α σ τ} (hxs : xs = xb.reverse ++ x :: xa) (h₀ : F.evolves ω₀ ω')
    (hf : F.Opens pullOut ω' (combine xs) .ok zs) (hv : F.Valid ω')
    (h : RoundDelivers F pull ω' r xb x xa) (hd : r.waiting = none → r.current.item = x)
    (hw : r.waiting ≠ none → ¬F.settled ω₀)
    (next : ∀ x' xa' r', xa = x' :: xa' → r'.waiting = r.waiting →
      RoundDelivers F pull ω' r' (x :: xb) x' xa' →
      RoundReports F pull combine pullOut xs zs ω₀ ω' (.reading r'))
    (hp : Step.zipping combine pull pullOut z (F.world ω) = (Zipping.after r, F.world ω'))
    (he : F.effect ω ω') :
    F.Steps (Step.zipping combine pull pullOut) (RoundReports F pull combine pullOut xs zs ω₀)
      (Continues F (fun ω z ys => Delivers F (Step.zipping combine pull pullOut) ω z ys ∨
        RoundStart F pull combine pullOut xs zs ω z ys) ω₀ zs) ω z := by
  cases xa with
  | cons x' xa =>
    obtain ⟨t, ts, ha, hr⟩ := h.next hd
    rw [Zipping.after_next ha] at hp
    exact .skip hp he (next x' xa _ rfl rfl hr)
  | nil =>
    have ha : r.after = [] := List.forall₂_nil_right_iff.mp h.after
    cases hwait : r.waiting with
    | none =>
      have hfound : r.slots.map (·.item) = xs := by
        simp [Step.Round.slots, ha, hxs, h.visited hwait, hd hwait]
      rw [Zipping.after_ready ha hwait, hfound] at hp
      refine .skip hp he (((zipping_ready_delivers hf).reports (F.evolves_refl ω') hv).mono ?_)
      exact fun _ _ _ _ hc => (hc.since h₀).mono fun _ _ _ h => .inl h
    | some d =>
      obtain ⟨t, ts, hs, ha'⟩ := Zipping.after_again (β := β) (τ := τ) ha hwait
      rw [ha'] at hp
      refine .continues hp he (.suspended hv (hw (by simp [hwait])) (.inr ⟨rfl, hf, t, ts, rfl, ?_⟩))
      rw [← hs, hxs]
      exact h.slots

variable (F pull combine pullOut xs zs) in
/-- The rest of a round after the current sequence comes to the report that it ought to. -/
def RestReports (ω₀ : F.Situation) (xb : List (Option α)) (x : Option α) (xa : List (Option α)) : Prop :=
  ∀ ω' x' xa' r', xa = x' :: xa' → F.evolves ω₀ ω' → F.Opens pullOut ω' (combine xs) .ok zs →
    F.Valid ω' → RoundDelivers F pull ω' r' (x :: xb) x' xa' → (r'.waiting ≠ none → ¬F.settled ω₀) →
    RoundReports F pull combine pullOut xs zs ω₀ ω' (.reading r')

/-- The current sequence is suspended. -/
theorem suspended_steps {d : DeferredId} {s s' : σ} {ω₁ : F.Situation}
    (hxs : xs = xb.reverse ++ x :: xa) (next : RestReports F pull combine pullOut xs zs ω₀ xb x xa)
    (h₀ : F.evolves ω₀ ω) (hf : F.Opens pullOut ω (combine xs) .ok zs)
    (h : RoundDelivers F pull ω r xb x xa) (h₁ : F.evolves ω ω₁)
    (hp : pull s (F.world ω₁) = ((.suspended d, s'), F.world ω')) (he : F.effect ω₁ ω')
    (hv : F.Valid ω') (hns : ¬F.settled ω) (hs : SlotDelivers F pull ω' ⟨s', r.current.item⟩ x) :
    F.Steps (Step.zipping combine pull pullOut) (RoundReports F pull combine pullOut xs zs ω₀)
      (Continues F (fun ω z ys => Delivers F (Step.zipping combine pull pullOut) ω z ys ∨
        RoundStart F pull combine pullOut xs zs ω z ys) ω₀ zs) ω₁
      (.reading (r.visit s r.current.item r.waiting)) := by
  have h' : F.evolves ω ω' := F.evolves_trans h₁ (F.evolves_of_effect he)
  have h₀' : F.evolves ω₀ ω' := F.evolves_trans h₀ h'
  have hns₀ : ¬F.settled ω₀ := fun hs => hns (F.settled_of_evolves h₀ hs)
  have hwait : r.waiting.or (some d) ≠ none := by simp
  refine leaving_steps hxs h₀' (hf.later h') hv (h.visit h' hs fun h => absurd h hwait)
    (fun h => absurd h hwait) (fun _ => hns₀) ?_ (Step.zipping_suspended hp) he
  intro x' xa' r' hxa _ hr
  exact next ω' x' xa' r' hxa h₀' (hf.later h') hv hr fun _ => hns₀

/-- A visit of the current sequence, along what it still delivers. -/
theorem visiting_reports (hk : Sticky pull) (hxs : xs = xb.reverse ++ x :: xa)
    (next : RestReports F pull combine pullOut xs zs ω₀ xb x xa) {ys : List α}
    (h₀ : F.evolves ω₀ ω) (hf : F.Opens pullOut ω (combine xs) .ok zs) (hv : F.Valid ω)
    (h : RoundDelivers F pull ω r xb x xa) (hw : r.waiting ≠ none → ¬F.settled ω₀)
    (hx : x.toList = r.current.item.toList ++ ys) (hd : Delivers F pull ω r.current.input ys) :
    RoundReports F pull combine pullOut xs zs ω₀ ω (.reading r) := by
  induction ys generalizing ω r with
  | nil =>
    refine (hd.reports (F.evolves_refl ω) hv).bind
      (e := fun s => Zipping.reading (r.visit s r.current.item r.waiting))
      (fun hp => Step.zipping_skip hp) ?_
    intro ω₁ s o s' ω' h₁ hp he _ hc
    cases hc with
    | done hv' =>
      have h' : F.evolves ω ω' := F.evolves_trans h₁ (F.evolves_of_effect he)
      have h₀' : F.evolves ω₀ ω' := F.evolves_trans h₀ h'
      have hs : SlotDelivers F pull ω' ⟨s', r.current.item⟩ x := ⟨[], hx, (hk _ _ _ _ hp).delivers ω'⟩
      have hitem : r.current.item = x := by
        cases hi : r.current.item <;> cases x <;> simp_all
      refine leaving_steps hxs h₀' (hf.later h') hv' (h.visit h' hs id) (fun _ => hitem) hw ?_
        (Step.zipping_done hp) he
      intro x' xa' r' hxa hr' hr
      exact next ω' x' xa' r' hxa h₀' (hf.later h') hv' hr (hr' ▸ hw)
    | suspended hv' hns hd' =>
      exact suspended_steps hxs next h₀ hf h h₁ hp he hv' hns ⟨[], hx, hd'⟩
  | cons y ys ih =>
    have hitem : r.current.item = none := by
      cases hi : r.current.item with
      | none => rfl
      | some z => cases x <;> simp_all
    refine (hd.reports (F.evolves_refl ω) hv).bind
      (e := fun s => Zipping.reading (r.visit s r.current.item r.waiting))
      (fun hp => Step.zipping_skip hp) ?_
    intro ω₁ s o s' ω' h₁ hp he _ hc
    cases hc with
    | item hv' hd' =>
      have h' : F.evolves ω ω' := F.evolves_trans h₁ (F.evolves_of_effect he)
      rw [hitem] at hx
      have hs : SlotDelivers F pull ω' ⟨s', some y⟩ x := ⟨ys, hx, hd'⟩
      refine .skip (Step.zipping_item hp hitem) he ?_
      exact ih (F.evolves_trans h₀ h') (hf.later h') hv' (h.visit h' hs id) hw hx hd'
    | suspended hv' hns hd' =>
      exact suspended_steps hxs next h₀ hf h h₁ hp he hv' hns ⟨y :: ys, hx, hd'⟩

/-- A round, along the sequences that are still to be visited. -/
theorem round_reports (hk : Sticky pull) (hxs : xs = xb.reverse ++ x :: xa) (h₀ : F.evolves ω₀ ω)
    (hf : F.Opens pullOut ω (combine xs) .ok zs) (hv : F.Valid ω)
    (h : RoundDelivers F pull ω r xb x xa) (hw : r.waiting ≠ none → ¬F.settled ω₀) :
    RoundReports F pull combine pullOut xs zs ω₀ ω (.reading r) := by
  obtain ⟨ys, hx, hd⟩ := h.current
  induction xa generalizing xb x r ω ys with
  | nil => exact visiting_reports hk hxs (fun _ _ _ _ hxa => nomatch hxa) h₀ hf hv h hw hx hd
  | cons x' xa ih =>
    refine visiting_reports hk hxs ?_ h₀ hf hv h hw hx hd
    rintro ω' _ _ r' ⟨rfl, rfl⟩ h₀' hf' hv' hr hw'
    obtain ⟨ys', hx', hd'⟩ := hr.current
    exact ih (by simp [hxs]) h₀' hf' hv' hr hw' ys' hx' hd'

/-! ### All rounds -/

/-- A function of at most one item from each of several sequences. -/
theorem zipping_delivers (hk : Sticky pull) {ss : List σ}
    (h : List.Forall₂ (fun s (x : Option α) => Delivers F pull ω s x.toList) ss xs)
    (hf : F.Opens pullOut ω (combine xs) .ok zs) :
    Delivers F (Step.zipping combine pull pullOut) ω (.start ss) zs := by
  cases h with
  | nil => exact zipping_ready_delivers hf
  | @cons s x ss xs h hs =>
    have hstart : List.Forall₂ (SlotDelivers F pull ω) (⟨s, none⟩ :: ss.map (⟨·, none⟩)) (x :: xs) := by
      refine .cons ⟨x.toList, rfl, h⟩ (List.forall₂_map_left_iff.mpr (hs.imp fun s x h => ?_))
      exact ⟨x.toList, rfl, h⟩
    refine .coinduction (RoundStart F pull combine pullOut (x :: xs) zs) ?_
      ⟨rfl, hf, ⟨s, none⟩, ss.map (⟨·, none⟩), rfl, hstart⟩
    rintro ω _ _ ⟨rfl, hf, t, ts, rfl, _ | ⟨ht, hts⟩⟩ ω₁ h₁ hv
    have hr : RoundDelivers F pull ω₁ ⟨[], t, ts, none⟩ [] x xs :=
      ⟨.nil, ht.later h₁, hts.imp fun _ _ h => h.later h₁, fun _ => rfl⟩
    exact round_reports hk rfl (F.evolves_refl ω₁) (hf.later h₁) hv hr (absurd rfl)

end

end LazyXPath
