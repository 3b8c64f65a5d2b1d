import LazyXPath.Proofs.Delivery.Combinator
import LazyXPath.Proofs.Eager

/-!
# Deliveries of truth values and conversions

The search for a truth value and the conversion to a type that allows at most one item, when the input
delivers a complete list. Both read all they need before they report anything; the truth value of a
sequence that begins with a node is known after the first item.
-/

namespace LazyXPath

variable {W σ : Type} {F : Regime W} {pull : σ → StateM W (Outcome Item × σ)} {ω : F.Situation} {s : σ}
  {xs ys : List Item}

/-- An attempt for each item that succeeds as a whole succeeds for each. -/
theorem forall₂_of_mapM {α β ε : Type} {f : α → Except ε β} {xs : List α} {ys : List β}
    (h : xs.mapM f = .ok ys) : List.Forall₂ (fun x y => f x = .ok y) xs ys := by
  induction xs generalizing ys with
  | nil =>
    cases h
    exact .nil
  | cons x xs ih =>
    rw [List.mapM_cons] at h
    cases hx : f x with
    | error e => rw [hx] at h; cases h
    | ok y =>
      cases hxs : xs.mapM f with
      | error e => rw [hx, hxs] at h; cases h
      | ok ys' =>
        rw [hx, hxs] at h
        cases h
        exact .cons hx (ih hxs)

/-- Each result comes from an item. -/
theorem exists_of_mem_mapM {α β ε : Type} {f : α → Except ε β} {xs : List α} {ys : List β} {y : β}
    (h : xs.mapM f = .ok ys) (hy : y ∈ ys) : ∃ x ∈ xs, f x = .ok y := by
  have h₂ := forall₂_of_mapM h
  clear h
  induction h₂ with
  | nil => cases hy
  | @cons x y' xs ys hxy _ ih =>
    obtain _ | ⟨_, hy⟩ := hy
    · exact ⟨x, .head _, hxy⟩
    · obtain ⟨x', hmem, hx'⟩ := ih hy
      exact ⟨x', .tail _ hmem, hx'⟩

/-! ### Truth values -/

/-- A step towards a truth value, as a function of the whole state. -/
def Step.judging (f : Forest) (position : Option Nat) (pull : σ → Pull W Item σ) :
    Option Bool × σ ⊕ σ → StateM W (Outcome Item × (Option Bool × σ ⊕ σ))
  | .inl (first, s) => truth f position first (pull s)
  | .inr s => pure (.done, .inr s)

section

variable {f : Forest} {position : Option Nat} {s' : σ} {w w' : W} {first : Option Bool}

/-- Suspensions and errors are passed on by the search for a truth value. -/
theorem Step.judging_pass {o : Outcome Item} (h : pull s w = ((o, s'), w')) (ho : ∀ x, o ≠ .item x)
    (hd : o ≠ .done) :
    judging f position pull (.inl (first, s)) w = ((o.pass, .inl (first, s')), w') := by
  cases o with
  | item x => exact absurd rfl (ho x)
  | done => exact absurd rfl hd
  | suspended | failed | skip => simp only [judging, truth, bind, StateT.bind, h]; rfl

/-- At the end the verdict is that of the only item, or false. -/
theorem Step.judging_done (h : pull s w = ((.done, s'), w')) :
    judging f position pull (.inl (first, s)) w = ((.item (.ofBool (first.getD false)), .inr s'), w') := by
  cases first <;> simp only [judging, truth, bind, StateT.bind, h] <;> rfl

/-- A node decides at once. -/
theorem Step.judging_node {n : NodeId} (h : pull s w = ((.item (.node n), s'), w')) :
    judging f position pull (.inl (none, s)) w = ((.item (.ofBool true), .inr s'), w') := by
  simp only [judging, truth, bind, StateT.bind, h]
  rfl

/-- A value decides only if nothing follows, so the verdict waits. -/
theorem Step.judging_atomic {v : Atomic} {b : Bool} (h : pull s w = ((.item (.atomic v), s'), w'))
    (hb : v.predicateTruth position = .ok b) :
    judging f position pull (.inl (none, s)) w = ((.skip, .inl (some b, s')), w') := by
  simp only [judging, truth, bind, StateT.bind, h, hb]
  rfl

end

/-- Behind the verdict there is nothing. -/
theorem judging_spent_delivers (f : Forest) (position : Option Nat) (ω : F.Situation) (s : σ) :
    Delivers F (Step.judging f position pull) ω (.inr s) [] := by
  refine .of_reports fun ω₁ _ hv => .of_steps fun ω₂ h₂ => ?_
  exact .continues rfl (F.effect_of_drift h₂) (.done (F.valid_of_drift hv h₂))

/-- The truth value of a sequence that is known up to its first item. -/
def TruthAfter (position : Option Nat) (b : Bool) : Option Bool → List Item → Prop
  | none, xs => Item.truth? position xs = some b
  | some b', xs => b' = b ∧ xs = []

/-- A truth value is delivered as one item. -/
theorem judging_delivers {f : Forest} {position : Option Nat} {b : Bool}
    (hb : Item.truth? position xs = some b) (h : Delivers F pull ω s xs) :
    Delivers F (Step.judging f position pull) ω (.inl (none, s)) [.ofBool b] := by
  refine Delivers.simulate (e := fun (first : Option Bool) s => Sum.inl (first, s))
    (H := fun _ first xs => TruthAfter position b first xs) (R := fun _ _ => [.ofBool b])
    (fun _ hb => hb) (fun ho hd hp => Step.judging_pass hp ho hd) ?_ ?_ (g := none) hb h
  · intro ω₀ ω ω' first s s' x xs hb ih hp he hv h
    cases first with
    | some b' => exact absurd hb.2 (List.cons_ne_nil x xs)
    | none =>
      cases x with
      | node n =>
        have hb : some true = some b := hb
        cases hb
        exact .continues (Step.judging_node hp) he (.item hv (judging_spent_delivers f position ω' s'))
      | atomic v =>
        cases xs with
        | cons y ys => cases hb
        | nil =>
          cases hv' : v.predicateTruth position with
          | error e => simp [TruthAfter, Item.truth?, hv', Except.toOption] at hb
          | ok b' =>
            obtain rfl : b' = b := by simpa [TruthAfter, Item.truth?, hv', Except.toOption] using hb
            exact .skip (Step.judging_atomic hp hv') he ⟨hv, ih (g := some b') ⟨rfl, rfl⟩ h⟩
      | map | array | function => cases hb
  · intro ω₀ ω ω' first s s' hb hp he hv
    have hfirst : first.getD false = b := by
      cases first with
      | none => exact Option.some.inj hb
      | some b' => exact hb.1
    have hp' : Step.judging f position pull (.inl (first, s)) (F.world ω) = _ := Step.judging_done hp
    rw [hfirst] at hp'
    exact .continues hp' he (.item hv (judging_spent_delivers f position ω' s'))

/-! ### Conversion -/

/-- A step of a conversion, as a function of the whole state. -/
def Step.converting (f : Forest) (pull : σ → Pull W Item σ) (c : Conversion × σ) :
    StateM W (Outcome Item × Conversion × σ) :=
  c.1.step f c.2 (pull c.2)

section

variable {f : Forest} {c : Conversion} {s' : σ} {w w' : W}

/-- What is pending is delivered before the input is pulled. -/
theorem Step.converting_ready (hc : c.isReady = true) :
    converting f pull (c, s) w = ((c.deliver.1, c.deliver.2, s), w) := by
  simp only [converting, Conversion.step, hc, if_true]
  rfl

/-- Suspensions and errors are passed on. -/
theorem Step.converting_pass {o : Outcome Item} (hc : c.isReady = false) (h : pull s w = ((o, s'), w'))
    (ho : ∀ x, o ≠ .item x) (hd : o ≠ .done) :
    converting f pull (c, s) w = ((o.pass, c, s'), w') := by
  cases o with
  | item x => exact absurd rfl (ho x)
  | done => exact absurd rfl hd
  | suspended | failed | skip =>
    simp only [converting, Conversion.step, hc, Bool.false_eq_true, if_false, bind, StateT.bind, h]; rfl

/-- An item of the input is converted and taken up. -/
theorem Step.converting_item {x : Item} (hc : c.isReady = false)
    (h : pull s w = ((.item x, s'), w')) :
    converting f pull (c, s) w = (((c.takeUp f x).1, (c.takeUp f x).2, s'), w') := by
  simp only [converting, Conversion.step, hc, Bool.false_eq_true, if_false, bind, StateT.bind, h]
  rfl

/-- At the end of the input the number of items is checked. -/
theorem Step.converting_done (hc : c.isReady = false) (h : pull s w = ((.done, s'), w')) :
    converting f pull (c, s) w = ((c.finish.1, c.finish.2, s'), w') := by
  simp only [converting, Conversion.step, hc, Bool.false_eq_true, if_false, bind, StateT.bind, h]
  rfl

end

/-- A conversion that has read all of its input and has delivered everything. -/
theorem converting_checked_delivers (f : Forest) {c : Conversion} (hm : c.type.occurrence.atMostOne = true)
    (hc : c.checked = true) (hp : c.pending = []) (ω : F.Situation) (s : σ) :
    Delivers F (Step.converting f pull) ω (c, s) [] := by
  have hr : c.isReady = true := by simp [Conversion.isReady, hm, hc]
  have hd : c.deliver = (.done, c) := by simp [Conversion.deliver, hp]
  refine .of_reports fun ω₁ _ hv => .of_steps fun ω₂ h₂ => ?_
  have hstep : Step.converting f pull (c, s) (F.world ω₂) = _ := Step.converting_ready hr
  rw [hd] at hstep
  exact .continues hstep (F.effect_of_drift h₂) (.done (F.valid_of_drift hv h₂))

/-- The end of the input, when the converted items are as many as are allowed. -/
theorem Conversion.finish_cases {c : Conversion} (hm : c.pending.length ≤ 1)
    (hl : c.pending = [] → c.type.occurrence.atLeastOne = false) :
    (c.pending = [] ∧ c.finish.1 = .done) ∨ ∃ y, c.pending = [y] ∧
      c.finish = (.item y, { c with pending := [], emitted := true, checked := true }) := by
  match hp : c.pending with
  | [] => exact .inl ⟨rfl, by simp [Conversion.finish, Conversion.deliver, hp, hl hp]⟩
  | [y] => exact .inr ⟨y, rfl, by simp [Conversion.finish, Conversion.deliver, hp]⟩
  | y :: z :: zs => simp [hp] at hm

/-- A conversion of a whole sequence to at most one item, item by item. -/
private theorem Item.convertAll_cases {f : Forest} {type : SequenceType}
    (hm : type.occurrence.atMostOne = true) (h : convertAll f type xs = .ok ys) :
    ∃ yss, List.Forall₂ (fun x ys => Item.convert f type x = .ok ys) xs yss ∧ yss.flatten = ys ∧
      ys.length ≤ 1 ∧ (ys = [] → type.occurrence.atLeastOne = false) := by
  cases hmap : xs.mapM (convert f type) with
  | error e => simp [convertAll, hmap, bind, Except.bind] at h
  | ok yss =>
    simp only [convertAll, hmap, bind, Except.bind, hm, Bool.and_true, decide_eq_true_eq] at h
    split at h
    · cases h
    · rename_i hempty
      split at h
      · cases h
      · rename_i hmany
        cases h
        refine ⟨yss, forall₂_of_mapM hmap, rfl, Nat.not_lt.mp hmany, fun hnil => ?_⟩
        simpa [hnil] using hempty

/-- A conversion to at most one item delivers what converting the whole list gives. -/
theorem converting_delivers {f : Forest} {type : SequenceType} (hm : type.occurrence.atMostOne = true)
    (hc : Item.convertAll f type xs = .ok ys) (h : Delivers F pull ω s xs) :
    Delivers F (Step.converting f pull) ω ({ type }, s) ys := by
  obtain ⟨yss, hyss, hall, hl, hy⟩ := Item.convertAll_cases hm hc
  -- what is pending and what is still to be converted are the whole result
  refine Delivers.simulate
    (e := fun (p : List Item × List (List Item)) s => (({ type, pending := p.1 } : Conversion), s))
    (H := fun _ p xs => List.Forall₂ (fun x ys => Item.convert f type x = .ok ys) xs p.2 ∧
      p.1 ++ p.2.flatten = ys) (R := fun _ _ => ys) (fun _ hp => hp) ?_ ?_ ?_ (g := ([], yss))
    ⟨hyss, hall⟩ h
  · intro p s s' w w' o ho hd hp
    exact Step.converting_pass (by simp [Conversion.isReady, hm]) hp ho hd
  · rintro ω₀ ω ω' ⟨pending, _⟩ s s' x xs ⟨_ | ⟨hx, hxs⟩, hall⟩ ih hp he hv h
    rename_i zs zss
    have hle : (pending ++ zs).length ≤ 1 := by
      have := congrArg List.length hall
      simp only [List.flatten_cons, List.length_append] at this ⊢
      omega
    have ht : ({ type, pending } : Conversion).takeUp f x = (.skip, { type, pending := pending ++ zs }) := by
      simp only [Conversion.takeUp, hx, hm, Bool.true_and, decide_eq_true_eq]
      rw [if_neg (by omega)]
    have hstep := Step.converting_item (f := f) (c := { type, pending })
      (by simp [Conversion.isReady, hm]) hp
    rw [ht] at hstep
    refine .skip hstep he ⟨hv, ih (g := (pending ++ zs, zss)) ⟨hxs, ?_⟩ h⟩
    simpa using hall
  · rintro ω₀ ω ω' ⟨pending, _⟩ s s' ⟨_ | _, hall⟩ hp he hv
    rw [List.flatten_nil, List.append_nil] at hall
    subst hall
    have hstep := Step.converting_done (f := f) (c := { type, pending })
      (by simp [Conversion.isReady, hm]) hp
    obtain ⟨rfl, hfin⟩ | ⟨y, rfl, hfin⟩ := Conversion.finish_cases (c := { type, pending }) hl hy
    · rw [hfin] at hstep
      exact .continues hstep he (.done hv)
    · rw [hfin] at hstep
      exact .continues hstep he (.item hv (converting_checked_delivers f hm rfl rfl ω' s'))

/-! ### Functions that are chosen -/

/-- A function that has been chosen among several is one of them, and accepts the arguments. -/
theorem Dispatch.of_select {forest : Forest} {d : Dispatch} {arguments converted : List (List Item)}
    {f : Function} (h : d.select forest arguments = .ok (f, converted)) :
    f ∈ d.candidates ∧ f.signature.convertAll forest arguments = .ok converted := by
  unfold select at h
  split at h
  · cases h
  · rename_i choice hc
    cases h
    have hmem : (f, converted) ∈ d.accepted forest arguments := hc ▸ .head _
    obtain ⟨g, hg, hr⟩ := List.mem_filterMap.mp hmem
    cases hs : g.signature.convertAll forest arguments with
    | error e => simp [hs, Except.toOption] at hr
    | ok ys =>
      obtain ⟨rfl, rfl⟩ : g = f ∧ ys = converted := by simpa [hs, Except.toOption] using hr
      exact ⟨hg, hs⟩
  · cases h

end LazyXPath
