import LazyXPath.Proofs.Combinator
import LazyXPath.Proofs.Schedule
import Mathlib.Logic.Function.Basic

/-!
# One item from each of several sequences

`Step.zipping` reads several sequences in rounds until each of them has ended, and then goes on with the
sequence that a function makes of the items. This module determines its run from the runs of the
sequences (`zipping_runs`): the errors of sequences that have a second item or fail (`Offends`), or else
what the function gives.

In a round, the sequences come closer to their ends in any order, and a suspension is reported only at
the end of a round, when nothing may be outstanding any more. So the proof is by induction along all the
runs at once as soon as nothing is outstanding (`Runs.induction_all`), and before that along the run of
the sequence that is being visited. The invariant is `RoundFits`: what has been found in a sequence and
what is still to come make up its run, and those already visited have ended unless one is waited for.
-/

namespace LazyXPath

variable {W α β σ τ : Type}

/-! ### Several runs at once -/

section

variable {F : Frame W} (pull : σ → StateM W (Outcome α × σ))

/-- **Induction along several runs.** When nothing is outstanding, several sequences can be pulled in
any order, and there are only finitely many pulls before all of them have ended. -/
theorem Runs.induction_all {P : F.Situation → (Nat → σ × Run α) → Prop} (n : Nat)
    (step : ∀ ω c, F.settled ω → (∀ i < n, Runs F pull ω (c i).1 (c i).2) →
      (∀ ω₁, F.rely ω ω₁ → ∀ i < n, F.Obeys pull
        (fun ω' s r => Runs F pull ω' s r ∧ P ω' (Function.update c i (s, r))) (Runs F pull) ω₁
        (c i).1 (c i).2) → P ω c)
    {ω : F.Situation} {c : Nat → σ × Run α} (hω : F.settled ω)
    (h : ∀ i < n, Runs F pull ω (c i).1 (c i).2) (ht : ∀ i < n, (c i).2.tail ≠ .unknown) : P ω c := by
  induction n generalizing P ω c with
  | zero => exact step ω c hω nofun nofun
  | succ n ih =>
    -- the last sequence outside, the others inside
    refine (h n (Nat.lt_succ_self n)).induction (P := fun ω s r => r.tail ≠ .unknown → ∀ ω₁ c,
      F.Since ω ω₁ → F.settled ω₁ → c n = (s, r) → (∀ i < n, Runs F pull ω₁ (c i).1 (c i).2) →
      (∀ i < n, (c i).2.tail ≠ .unknown) → P ω₁ c) (fun _ _ hr => absurd rfl hr) ?_
      (ht n (Nat.lt_succ_self n)) ω c (.refl ω) hω rfl (fun i hi => h i (Nat.lt_succ_of_lt hi))
      fun i hi => ht i (Nat.lt_succ_of_lt hi)
    intro ω s r hs hr ω₁ c h₁ hω₁ hc hall htall
    have hrun : Runs F pull ω s r := .of_obeys fun ω₁ h₁ => (hs ω₁ h₁).mono And.left id
    refine ih (P := fun ω' c => F.Since ω ω' → c n = (s, r) → (∀ i < n, (c i).2.tail ≠ .unknown) → P ω' c)
      ?_ hω₁ hall htall h₁ hc htall
    intro ω₂ c hω₂ hall hobeys h₂ hc htall
    refine step ω₂ c hω₂ (fun i hi => ?_) fun ω₃ h₃ i hi => ?_
    · obtain hi | rfl := Nat.lt_succ_iff_lt_or_eq.mp hi
      · exact hall i hi
      · rw [hc]
        exact hrun.since h₂
    · obtain hi | rfl := Nat.lt_succ_iff_lt_or_eq.mp hi
      · obtain ⟨o, s', ω', r', ⟨hp, hg⟩, hn, hy, hx⟩ := hobeys ω₃ h₃ i hi
        refine ⟨o, s', ω', r', ⟨hp, hg⟩, hn, fun ho => ⟨(hy ho).1, (hy ho).2 ?_ ?_ ?_⟩, hx⟩
        · exact .inr (h₂.guarantee h₃ hg)
        · rw [Function.update_of_ne (Nat.ne_of_gt hi), hc]
        · intro j hj
          obtain rfl | hji := eq_or_ne j i
          · rw [Function.update_self, hn.tail_eq]
            exact htall j hj
          · rw [Function.update_of_ne hji]
            exact htall j hj
      · obtain ⟨o, s', ω', r', ⟨hp, hg⟩, hn, hy, hx⟩ := hs ω₃ (h₂.rely h₃)
        rw [hc]
        refine ⟨o, s', ω', r', ⟨hp, hg⟩, hn, fun ho => ⟨(hy ho).1, ?_⟩, hx⟩
        have h' : F.rely ω₂ ω' := F.rely_guarantee h₃ hg
        refine (hy ho).2 (hn.tail_eq ▸ hr) ω' _ (.refl ω') (F.settled_of_rely h' hω₂)
          (Function.update_self ..) (fun j hj => ?_) fun j hj => ?_
        · rw [Function.update_of_ne (Nat.ne_of_lt hj)]
          exact (hall j hj).later h'
        · rw [Function.update_of_ne (Nat.ne_of_lt hj)]
          exact htall j hj

end

/-- The run of at most one item. -/
def Run.single (x : Option α) : Run α := ⟨x.toList, .done⟩

/-! ### Steps as functions of the whole state -/

/-- The states of combining items from several sequences: the sequences are being read, the items are
there, or the sequence that has been made of them is read. -/
inductive Zipping (α σ τ : Type) where
  | reading (r : Step.Round α σ)
  | ready (found : List (Option α))
  | forward (t : τ)

/-- The first state. -/
def Zipping.start : List σ → Zipping α σ τ
  | [] => .ready []
  | s :: rest => .reading (.start s rest)

/-- A state after a step of reading. -/
def Zipping.ofRound : Step.Round α σ ⊕ List (Option α) → Zipping α σ τ
  | .inl r => .reading r
  | .inr found => .ready found

/-- What follows when the current sequence has been visited. -/
def Zipping.after (r : Step.Round α σ) : Outcome β × Zipping α σ τ :=
  let next := r.next
  (next.1, .ofRound next.2)

namespace Step

/-- A step of a sequence made from at most one item of each of several sequences. -/
def zipping (combine : List (Option α) → StateM W (Except Error τ)) (pull : σ → Pull W α σ)
    (pullOut : τ → Pull W β τ) : Zipping α σ τ → StateM W (Outcome β × Zipping α σ τ)
  | .reading r => do
    let (o, r) ← zip r (pull r.current.input)
    return (o, .ofRound r)
  | .ready found => do
    match ← combine found with
    | .ok t => return (.skip, .forward t)
    | .error e => return (.failed e, .ready found)
  | .forward t => do
    let (o, t) ← pullOut t
    return (o, .forward t)

/-- A function that wants all items, as one for which some may be missing. -/
def whenAll (none : τ) (f : List α → StateM W (Except Error τ)) (found : List (Option α)) :
    StateM W (Except Error τ) :=
  match found.mapM id with
  | some xs => f xs
  | Option.none => return .ok none

section

variable {combine : List (Option α) → StateM W (Except Error τ)} {pull : σ → StateM W (Outcome α × σ)}
  {pullOut : τ → StateM W (Outcome β × τ)} {r : Round α σ} {s : σ} {w w' : W}

/-- The round after a visit of the current sequence. -/
def Round.visit (r : Round α σ) (s : σ) (item : Option α) (waiting : Option DeferredId) : Round α σ :=
  { r with current := ⟨s, item⟩, waiting }

/-- The first item of a sequence is put into its slot. -/
theorem zipping_item {x : α} (h : pull r.current.input w = ((.item x, s), w'))
    (hi : r.current.item = none) : zipping combine pull pullOut (.reading r) w =
      ((.skip, .reading (r.visit s (some x) r.waiting)), w') := by
  simp only [zipping, zip, bind, StateT.bind, h, hi]
  rfl

/-- A second item is an error, whatever is still to come. -/
theorem zipping_second {x y : α} (h : pull r.current.input w = ((.item x, s), w'))
    (hi : r.current.item = some y) : zipping combine pull pullOut (.reading r) w =
      ((.failed (.notSingle r.number), .reading r), w') := by
  simp only [zipping, zip, bind, StateT.bind, h, hi]
  rfl

/-- An error of a sequence is reported at once. -/
theorem zipping_failed {e : Error} (h : pull r.current.input w = ((.failed e, s), w')) :
    zipping combine pull pullOut (.reading r) w =
      ((.failed e, .reading (r.visit s r.current.item r.waiting)), w') := by
  simp only [zipping, zip, bind, StateT.bind, h]
  rfl

/-- A silent step stays with the sequence. -/
theorem zipping_skip (h : pull r.current.input w = ((.skip, s), w')) :
    zipping combine pull pullOut (.reading r) w =
      ((.skip, .reading (r.visit s r.current.item r.waiting)), w') := by
  simp only [zipping, zip, bind, StateT.bind, h]
  rfl

/-- At the end of a sequence the next one is visited. -/
theorem zipping_done (h : pull r.current.input w = ((.done, s), w')) :
    zipping combine pull pullOut (.reading r) w =
      (Zipping.after (r.visit s r.current.item r.waiting), w') := by
  simp only [zipping, zip, bind, StateT.bind, h]
  rfl

/-- So it is when the sequence has to wait, which is remembered for the end of the round. -/
theorem zipping_suspended {d : DeferredId} (h : pull r.current.input w = ((.suspended d, s), w')) :
    zipping combine pull pullOut (.reading r) w =
      (Zipping.after (r.visit s r.current.item (r.waiting.or (some d))), w') := by
  simp only [zipping, zip, bind, StateT.bind, h]
  rfl

end

namespace Round

/-- The sequences in order, with the items found in them. -/
def slots (r : Round α σ) : List (Slot α σ) := r.before.reverse ++ r.current :: r.after

variable {r : Round α σ}

/-- A visit changes no other slot. -/
theorem slots_visit_of_ne {i : Nat} (s : σ) (item : Option α) (waiting : Option DeferredId)
    (hi : i ≠ r.before.length) : (r.visit s item waiting).slots[i]? = r.slots[i]? := by
  have hs : (r.visit s item waiting).slots = r.slots.set r.before.length ⟨s, item⟩ := by
    simp [slots, visit]
  rw [hs, List.getElem?_set_ne hi.symm]

/-- A visit changes the current slot. -/
theorem slots_visit_self (s : σ) (item : Option α) (waiting : Option DeferredId) :
    (r.visit s item waiting).slots[r.before.length]? = some ⟨s, item⟩ := by
  simp [slots, visit]

/-- The current slot stands behind those that have been visited. -/
theorem slots_current : r.slots[r.before.length]? = some r.current := by
  simp [slots]

/-- A visit makes no slots. -/
theorem length_slots_visit (s : σ) (item : Option α) (waiting : Option DeferredId) :
    (r.visit s item waiting).slots.length = r.slots.length := by
  simp [slots, visit]

end Round

end Step

namespace Zipping

variable {r : Step.Round α σ}

/-- There is a next sequence. -/
theorem after_next {t : Step.Slot α σ} {ts : List (Step.Slot α σ)} (h : r.after = t :: ts) :
    after r = ((.skip, reading ⟨r.current :: r.before, t, ts, r.waiting⟩) :
      Outcome β × Zipping α σ τ) := by
  simp only [after, Step.Round.next, h, ofRound]

/-- All sequences have been visited, and none is waited for. -/
theorem after_ready (h : r.after = []) (hw : r.waiting = none) :
    after r = ((.skip, ready (r.slots.map (·.item))) : Outcome β × Zipping α σ τ) := by
  simp [after, Step.Round.next, h, hw, Step.Round.slots, ofRound]

/-- All sequences have been visited, and one is waited for. -/
theorem after_again {d : DeferredId} (h : r.after = []) (hw : r.waiting = some d) :
    ∃ t ts, r.slots = t :: ts ∧
      after r = ((.suspended d, reading ⟨[], t, ts, none⟩) : Outcome β × Zipping α σ τ) := by
  have hs : (r.current :: r.before).reverse = r.slots := by simp [Step.Round.slots, h]
  have hne : r.slots ≠ [] := by simp [Step.Round.slots]
  obtain ⟨t, ts, ht⟩ := List.exists_cons_of_ne_nil hne
  refine ⟨t, ts, ht, ?_⟩
  simp only [after, Step.Round.next, h, hw, hs, ht, ofRound]

end Zipping

/-! ### Sequences that are being read -/

/-- A sequence that has ended for good. -/
def Closed (pull : σ → StateM W (Outcome α × σ)) (s : σ) : Prop := ∀ w, pull s w = ((.done, s), w)

/-- After its end, a sequence has ended for good. -/
def Sticky (pull : σ → StateM W (Outcome α × σ)) : Prop :=
  ∀ s s' w w', pull s w = ((.done, s'), w') → Closed pull s'

section

variable (F : Frame W) (pull : σ → StateM W (Outcome α × σ))

/-- The state of one of the sequences, when its run is `r`: what has been found, and what is still to
come. A sequence that has ended may have been closed. -/
structure SlotFits (ω : F.Situation) (slot : Step.Slot α σ) (c : σ × Run α) (r : Run α) : Prop where
  whole : r = c.2.prepend slot.item.toList
  input : slot.input = c.1 ∨ Closed pull slot.input ∧ c.2 = ⟨[], .done⟩
  runs : Runs F pull ω c.1 c.2

/-- The state of all sequences. If none is waited for, those already visited have ended. -/
structure RoundFits (ω : F.Situation) (r : Step.Round α σ) (c : Nat → σ × Run α)
    (rs : List (Run α)) : Prop where
  length : r.slots.length = rs.length
  slots : ∀ i slot r₀, r.slots[i]? = some slot → rs[i]? = some r₀ → SlotFits F pull ω slot (c i) r₀
  visited : r.waiting = none → ∀ i < r.before.length, (c i).2 = ⟨[], .done⟩

end

section

variable {F : Frame W} {pull : σ → StateM W (Outcome α × σ)} {ω ω' : F.Situation}

/-- What fits goes on to fit while the world changes. -/
private theorem SlotFits.later {slot : Step.Slot α σ} {c : σ × Run α} {r : Run α}
    (h : SlotFits F pull ω slot c r) (hω : F.rely ω ω') : SlotFits F pull ω' slot c r :=
  ⟨h.whole, h.input, h.runs.later hω⟩

namespace RoundFits

variable {r : Step.Round α σ} {c : Nat → σ × Run α} {rs : List (Run α)}

/-- So does a whole round. -/
private theorem later (h : RoundFits F pull ω r c rs) (hω : F.rely ω ω') : RoundFits F pull ω' r c rs :=
  ⟨h.length, fun i slot r₀ hi hr => (h.slots i slot r₀ hi hr).later hω, h.visited⟩

/-- The current slot fits its run. -/
private theorem current (h : RoundFits F pull ω r c rs) : ∃ r₀, rs[r.before.length]? = some r₀ ∧
    SlotFits F pull ω r.current (c r.before.length) r₀ := by
  have hlt : r.before.length < rs.length := by
    rw [← h.length]
    simp [Step.Round.slots]
  have hr : rs[r.before.length]? = some rs[r.before.length] := List.getElem?_eq_getElem hlt
  exact ⟨_, hr, h.slots _ _ _ Step.Round.slots_current hr⟩

/-- A visit of the current sequence. -/
theorem visit (h : RoundFits F pull ω r c rs) (hω : F.rely ω ω') {s : σ} {item : Option α}
    {waiting : Option DeferredId} {p : σ × Run α} {r₀ : Run α} (hr : rs[r.before.length]? = some r₀)
    (hs : SlotFits F pull ω' ⟨s, item⟩ p r₀) (hw : waiting = none → r.waiting = none) :
    RoundFits F pull ω' (r.visit s item waiting) (Function.update c r.before.length p) rs where
  length := by rw [Step.Round.length_slots_visit, h.length]
  slots i slot r₁ hi hr₁ := by
    obtain rfl | hne := eq_or_ne i r.before.length
    · rw [Step.Round.slots_visit_self] at hi
      rw [hr] at hr₁
      cases hi
      cases hr₁
      rw [Function.update_self]
      exact hs
    · rw [Step.Round.slots_visit_of_ne s item waiting hne] at hi
      rw [Function.update_of_ne hne]
      exact (h.slots i slot r₁ hi hr₁).later hω
  visited hw' i hi := by
    have hi : i < r.before.length := hi
    rw [Function.update_of_ne (Nat.ne_of_lt hi)]
    exact h.visited (hw hw') i hi

/-- The next sequence. -/
theorem next (h : RoundFits F pull ω r c rs) {t : Step.Slot α σ} {ts : List (Step.Slot α σ)}
    (ha : r.after = t :: ts) (hd : r.waiting = none → (c r.before.length).2 = ⟨[], .done⟩) :
    RoundFits F pull ω ⟨r.current :: r.before, t, ts, r.waiting⟩ c rs := by
  have hs : Step.Round.slots ⟨r.current :: r.before, t, ts, r.waiting⟩ = r.slots := by
    simp [Step.Round.slots, ha]
  refine ⟨hs ▸ h.length, hs ▸ h.slots, fun hw i hi => ?_⟩
  obtain hi | rfl := Nat.lt_succ_iff_lt_or_eq.mp hi
  · exact h.visited hw i hi
  · exact hd hw

/-- Another round. -/
theorem again (h : RoundFits F pull ω r c rs) {t : Step.Slot α σ} {ts : List (Step.Slot α σ)}
    (hs : r.slots = t :: ts) : RoundFits F pull ω ⟨[], t, ts, none⟩ c rs := by
  have hs : Step.Round.slots ⟨[], t, ts, none⟩ = r.slots := hs.symm
  exact ⟨hs ▸ h.length, hs ▸ h.slots, fun _ _ hi => absurd hi (Nat.not_lt_zero _)⟩

/-- When all sequences have been visited and none is waited for, the items that have been found are
all there is. -/
theorem ready (h : RoundFits F pull ω r c rs) (ha : r.after = []) (hw : r.waiting = none)
    (hd : (c r.before.length).2 = ⟨[], .done⟩) :
    rs = (r.slots.map (·.item)).map Run.single := by
  have hlen : r.slots.length = r.before.length + 1 := by simp [Step.Round.slots, ha]
  refine List.ext_getElem (by simp [h.length]) fun i hi hi' => ?_
  have hi₁ : i < r.slots.length := h.length ▸ hi
  have hs := h.slots i _ _ (List.getElem?_eq_getElem hi₁) (List.getElem?_eq_getElem hi)
  have hc : (c i).2 = ⟨[], .done⟩ := by
    obtain hlt | rfl := Nat.lt_succ_iff_lt_or_eq.mp (hlen ▸ hi₁)
    · exact h.visited hw i hlt
    · exact hd
  simp [hs.whole, hc, Run.prepend, Run.single]

end RoundFits

/-! ### One step -/

/-- The errors of sequences that do not consist of at most one item: that there is a second item, or the
error of a sequence itself. -/
def Offends (rs : List (Run α)) (e : Error) : Prop :=
  ∃ i r, rs[i]? = some r ∧ (2 ≤ r.items.length ∧ e = .notSingle (i + 1) ∨
    r.items.length ≤ 1 ∧ ∃ P, r.tail = .fails P ∧ P e)

section

variable {combine : List (Option α) → StateM W (Except Error τ)} {pullOut : τ → StateM W (Outcome β × τ)}
  {rs : List (Run α)} {R : Run β} {r : Step.Round α σ} {c : Nat → σ × Run α}

/-- What a sequence made from items of several sequences with runs `rs` has to satisfy in order to run
`R`: the errors of these are errors of `R`, and otherwise the function makes `R` of the items. -/
structure ZipRun (F : Frame W) (combine : List (Option α) → StateM W (Except Error τ))
    (pullOut : τ → StateM W (Outcome β × τ)) (rs : List (Run α)) (ω : F.Situation) (R : Run β) :
    Prop where
  fails : ∀ e, Offends rs e → R.Next (.failed e) R
  gives : ∀ xs : List (Option α), rs = xs.map Run.single → F.Gives pullOut ω (combine xs) id R

/-- What the function is to give does not change with the world. -/
private theorem ZipRun.later (h : ZipRun F combine pullOut rs ω R) (hω : F.rely ω ω') :
    ZipRun F combine pullOut rs ω' R :=
  ⟨h.fails, fun xs hxs ω₂ h₂ => h.gives xs hxs ω₂ (F.rely_trans hω h₂)⟩

/-- When the function has been called, its result is all there is. -/
private theorem zipping_forward_runs {t : τ} (h : Runs F pullOut ω t R) :
    Runs F (Step.zipping combine pull pullOut) ω (.forward t) R :=
  h.embed Zipping.forward fun _ _ => rfl

/-- When all items are there, the function is called once. -/
private theorem zipping_ready_runs {xs : List (Option α)} (h : F.Gives pullOut ω (combine xs) id R) :
    Runs F (Step.zipping combine pull pullOut) ω (.ready xs) R := by
  refine .of_obeys fun ω₁ h₁ => ?_
  obtain ⟨a, ω₂, hc, hg, ha⟩ := h ω₁ h₁
  cases a with
  | ok t =>
    have hp : Step.zipping combine pull pullOut (.ready xs) (F.world ω₁) =
        ((.skip, .forward t), F.world ω₂) := by
      simp only [Step.zipping, bind, StateT.bind, hc]
      rfl
    exact .skip hp hg (zipping_forward_runs ha)
  | error e =>
    have hp : Step.zipping combine pull pullOut (.ready xs) (F.world ω₁) =
        ((.failed e, .ready xs), F.world ω₂) := by
      simp only [Step.zipping, bind, StateT.bind, hc]
      rfl
    exact .of_next_failed ha hp hg

/-- What there is after a visit of the current sequence: the next sequence, all items, or another round
after a suspension. -/
theorem after_obeys {Y X : F.Situation → Zipping α σ τ → Run β → Prop} {z : Zipping α σ τ}
    (hz : ZipRun F combine pullOut rs ω' R) (h : RoundFits F pull ω' r c rs)
    (hd : r.waiting = none → (c r.before.length).2 = ⟨[], .done⟩)
    (hp : Step.zipping combine pull pullOut z (F.world ω) = (Zipping.after r, F.world ω'))
    (hg : F.guarantee ω ω')
    (next : ∀ t ts, r.after = t :: ts → RoundFits F pull ω' ⟨r.current :: r.before, t, ts, r.waiting⟩ c rs →
      Y ω' (.reading ⟨r.current :: r.before, t, ts, r.waiting⟩) R)
    (ready : ∀ xs, Runs F (Step.zipping combine pull pullOut) ω' (.ready xs) R → Y ω' (.ready xs) R)
    (again : ∀ t ts, r.waiting ≠ none → RoundFits F pull ω' ⟨[], t, ts, none⟩ c rs →
      (F.settled ω → Y ω' (.reading ⟨[], t, ts, none⟩) R) ∧
      (¬F.settled ω → X ω' (.reading ⟨[], t, ts, none⟩) R)) :
    F.Obeys (Step.zipping combine pull pullOut) Y X ω z R := by
  cases ha : r.after with
  | cons t ts =>
    rw [Zipping.after_next ha] at hp
    exact .skip hp hg (next t ts ha (h.next ha hd))
  | nil =>
    cases hw : r.waiting with
    | none =>
      rw [Zipping.after_ready ha hw] at hp
      exact .skip hp hg (ready _ (zipping_ready_runs (hz.gives _ (h.ready ha hw (hd hw)))))
    | some d =>
      obtain ⟨t, ts, hs, ha'⟩ := Zipping.after_again (β := β) (τ := τ) ha hw
      rw [ha'] at hp
      have ha := again t ts (hw ▸ nofun) (h.again hs)
      exact .suspended hp hg ha.1 ha.2

/-- A visit of the current sequence. What has to be known about the states after it depends on the
report: `stay` if the same sequence is visited again, and `leave` if it is left, after which `A` is
known about it unless it has ended. -/
theorem reading_obeys {Y X : F.Situation → Zipping α σ τ → Run β → Prop}
    {A : F.Situation → σ × Run α → Prop} (hk : Sticky pull) (hω : F.rely ω ω)
    (hz : ZipRun F combine pullOut rs ω R) (h : RoundFits F pull ω r c rs)
    (hc : F.Obeys pull (fun ω' s r => Runs F pull ω' s r ∧ A ω' (s, r)) (Runs F pull) ω
      (c r.before.length).1 (c r.before.length).2)
    (stay : ∀ ω' s x p, F.guarantee ω ω' → A ω' p →
      RoundFits F pull ω' (r.visit s x r.waiting) (Function.update c r.before.length p) rs →
      Y ω' (.reading (r.visit s x r.waiting)) R)
    (leave : ∀ ω' s waiting p, F.guarantee ω ω' → ZipRun F combine pullOut rs ω' R →
      RoundFits F pull ω' (r.visit s r.current.item waiting) (Function.update c r.before.length p) rs →
      (p = c r.before.length ∧ waiting = r.waiting ∨ waiting ≠ none ∧ (F.settled ω → A ω' p)) →
      (waiting = none → p.2 = ⟨[], .done⟩) →
      Step.zipping combine pull pullOut (.reading r) (F.world ω) =
        (Zipping.after (r.visit s r.current.item waiting), F.world ω') →
      F.Obeys (Step.zipping combine pull pullOut) Y X ω (.reading r) R) :
    F.Obeys (Step.zipping combine pull pullOut) Y X ω (.reading r) R := by
  obtain ⟨r₀, hr₀, hs⟩ := h.current
  obtain hi | ⟨hi, hd⟩ := hs.input
  · obtain ⟨o, s', ω', r', ⟨hp, hg⟩, hn, hy, hx⟩ := hc
    rw [← hi] at hp
    have h' : F.rely ω ω' := F.rely_guarantee hω hg
    generalize hc : c r.before.length = p at *
    obtain ⟨s, rem⟩ := p
    cases hn with
    | item x xs t =>
      obtain ⟨hs', hA⟩ := hy trivial
      cases hx : r.current.item with
      | none =>
        have hw : r₀ = Run.prepend [x] ⟨xs, t⟩ := by rw [hs.whole, hx]; rfl
        refine .skip (Step.zipping_item hp hx) hg (stay ω' s' (some x) (s', ⟨xs, t⟩) hg hA ?_)
        exact h.visit h' hr₀ ⟨hw, .inl rfl, hs'⟩ id
      | some y =>
        have hw : r₀.items = y :: x :: xs := by rw [hs.whole, hx]; rfl
        refine .of_next_failed (hz.fails _ ⟨_, r₀, hr₀, .inl ⟨?_, rfl⟩⟩) (Step.zipping_second hp hx) hg
        simp [hw]
    | done =>
      refine leave ω' s' r.waiting _ hg (hz.later h') ?_ (.inl ⟨rfl, rfl⟩) (fun _ => rfl)
        (Step.zipping_done hp)
      exact h.visit h' hr₀ ⟨hs.whole, .inr ⟨hk _ _ _ _ hp, rfl⟩, hs.runs.later h'⟩ id
    | failed P e he =>
      have hl : r₀.items.length ≤ 1 := by
        rw [hs.whole]
        cases r.current.item <;> simp [Run.prepend]
      have ht : r₀.tail = .fails P := by rw [hs.whole]; rfl
      exact .of_next_failed (hz.fails _ ⟨_, r₀, hr₀, .inr ⟨hl, P, ht, he⟩⟩) (Step.zipping_failed hp) hg
    | suspended rem d =>
      have hw : r.waiting.or (some d) ≠ none := by simp
      refine leave ω' s' (r.waiting.or (some d)) (s', rem) hg (hz.later h') ?_
        (.inr ⟨hw, fun hs => (hy hs).2⟩) (fun h => absurd h hw) (Step.zipping_suspended hp)
      exact h.visit h' hr₀ ⟨hs.whole, .inl rfl, .of_suspended (fun hs => (hy hs).1) hx⟩ fun h => absurd h hw
    | skip rem =>
      obtain ⟨hs', hA⟩ := hy trivial
      refine .skip (Step.zipping_skip hp) hg (stay ω' s' r.current.item (s', rem) hg hA ?_)
      exact h.visit h' hr₀ ⟨hs.whole, .inl rfl, hs'⟩ id
  · have hp : Step.zipping combine pull pullOut (.reading r) (F.world ω) =
        (Zipping.after (r.visit r.current.input r.current.item r.waiting), F.world ω) :=
      Step.zipping_done (hi _)
    refine leave ω _ _ (c r.before.length) (F.guarantee_idle hω) hz ?_ (.inl ⟨rfl, rfl⟩)
      (fun _ => hd) hp
    exact h.visit hω hr₀ ⟨hs.whole, .inr ⟨hi, hd⟩, hs.runs⟩ id

/-! ### Whole runs -/

/-- The states of reading sequences with runs `rs`. -/
def ZipReading (F : Frame W) (pull : σ → StateM W (Outcome α × σ))
    (combine : List (Option α) → StateM W (Except Error τ)) (pullOut : τ → StateM W (Outcome β × τ))
    (rs : List (Run α)) (R : Run β) (ω : F.Situation) (z : Zipping α σ τ) (R' : Run β) : Prop :=
  Runs F (Step.zipping combine pull pullOut) ω z R' ∨
    R' = R ∧ ZipRun F combine pullOut rs ω R ∧ ∃ r c, z = .reading r ∧ RoundFits F pull ω r c rs

/-- There is a run for the current slot. -/
private theorem RoundFits.lt_length (h : RoundFits F pull ω r c rs) : r.before.length < rs.length := by
  obtain ⟨_, hr, -⟩ := h.current
  exact (List.getElem?_eq_some_iff.mp hr).1

/-- The rest of a round when nothing is outstanding. By assumption, reading proceeds from all states in
which one of the sequences has come closer to its end. In a round without such a state, all sequences
have ended. -/
theorem settled_round_proceeds (hk : Sticky pull) (hω : F.settled ω)
    (down : ∀ ω₁, F.rely ω ω₁ → ∀ i < rs.length, F.Obeys pull (fun ω' s r => Runs F pull ω' s r ∧
      ∀ r₁, ZipRun F combine pullOut rs ω' R → RoundFits F pull ω' r₁ (Function.update c i (s, r)) rs →
        Proceeds F (Step.zipping combine pull pullOut) (ZipReading F pull combine pullOut rs R) ω'
          (.reading r₁) R) (Runs F pull) ω₁ (c i).1 (c i).2)
    {ω₀ : F.Situation} (h₀ : F.Since ω ω₀) (hz : ZipRun F combine pullOut rs ω₀ R)
    (h : RoundFits F pull ω₀ r c rs)
    (fresh : r.waiting ≠ none → ∀ ω₀ t ts, F.Since ω ω₀ → ZipRun F combine pullOut rs ω₀ R →
      RoundFits F pull ω₀ ⟨[], t, ts, none⟩ c rs →
      Proceeds F (Step.zipping combine pull pullOut) (ZipReading F pull combine pullOut rs R) ω₀
        (.reading ⟨[], t, ts, none⟩) R) :
    Proceeds F (Step.zipping combine pull pullOut) (ZipReading F pull combine pullOut rs R) ω₀
      (.reading r) R := by
  induction hn : r.after.length using Nat.strongRecOn generalizing r ω₀ with
  | ind n ih =>
    refine .of_obeys fun ω₁ h₁ => ?_
    have hω₁ : F.settled ω₁ := F.settled_of_rely (h₀.rely h₁) hω
    refine reading_obeys (A := fun ω' p => ∀ r₁, ZipRun F combine pullOut rs ω' R →
        RoundFits F pull ω' r₁ (Function.update c r.before.length p) rs →
          Proceeds F (Step.zipping combine pull pullOut) (ZipReading F pull combine pullOut rs R) ω'
            (.reading r₁) R)
      hk (F.rely_idle h₁) (hz.later h₁) (h.later h₁) (down ω₁ (h₀.rely h₁) _ h.lt_length) ?_ ?_
    · intro ω' s x p hg hA hfits
      exact hA _ (hz.later (F.rely_guarantee h₁ hg)) hfits
    · intro ω' s waiting p hg hz' hfits hp hd heq
      have h' : F.Since ω ω' := .inr (h₀.guarantee h₁ hg)
      have hd' : waiting = none → (Function.update c r.before.length p r.before.length).2 = ⟨[], .done⟩ := by
        rw [Function.update_self]
        exact hd
      refine after_obeys hz' hfits hd' heq hg ?_ ?_ ?_
      · intro t ts ha hfits'
        obtain ⟨rfl, rfl⟩ | ⟨-, hA⟩ := hp
        · rw [Function.update_eq_self] at hfits'
          have hts : ts.length < n := by
            have ha : r.after = t :: ts := ha
            rw [← hn, ha]
            exact Nat.lt_succ_self _
          exact ih ts.length hts h' hz' hfits' fresh rfl
        · exact hA hω₁ _ hz' hfits'
      · intro xs hrun
        exact hrun.proceeds.mono fun _ _ _ h => .inl h
      · intro t ts hw hfits'
        refine ⟨fun _ => ?_, fun hns => absurd hω₁ hns⟩
        obtain ⟨rfl, rfl⟩ | ⟨-, hA⟩ := hp
        · rw [Function.update_eq_self] at hfits'
          exact fresh hw ω' t ts h' hz' hfits'
        · exact hA hω₁ _ hz' hfits'

/-- Reading when nothing is outstanding. -/
theorem settled_proceeds (hk : Sticky pull) (hrs : ∀ r ∈ rs, r.tail ≠ .unknown) (hω : F.settled ω)
    (hz : ZipRun F combine pullOut rs ω R) (h : RoundFits F pull ω r c rs) :
    Proceeds F (Step.zipping combine pull pullOut) (ZipReading F pull combine pullOut rs R) ω
      (.reading r) R := by
  have hslot : ∀ i < rs.length, ∃ slot r₀, r₀ ∈ rs ∧ SlotFits F pull ω slot (c i) r₀ := by
    intro i hi
    have hi' : i < r.slots.length := h.length ▸ hi
    exact ⟨_, rs[i], List.getElem_mem hi,
      h.slots i _ _ (List.getElem?_eq_getElem hi') (List.getElem?_eq_getElem hi)⟩
  refine Runs.induction_all pull (P := fun ω c => ∀ r, ZipRun F combine pullOut rs ω R →
    RoundFits F pull ω r c rs → Proceeds F (Step.zipping combine pull pullOut)
      (ZipReading F pull combine pullOut rs R) ω (.reading r) R) rs.length ?_ hω (fun i hi => ?_)
    (fun i hi => ?_) r hz h
  · intro ω c hω hall down r hz h
    refine settled_round_proceeds hk hω down (.refl ω) hz h fun _ ω₀ t ts h₀ hz₀ hfits => ?_
    -- in a round that begins when nothing is outstanding, nothing is waited for
    exact settled_round_proceeds hk hω down h₀ hz₀ hfits nofun
  · obtain ⟨slot, r₀, -, hs⟩ := hslot i hi
    exact hs.runs
  · obtain ⟨slot, r₀, hmem, hs⟩ := hslot i hi
    have ht : r₀.tail = (c i).2.tail := by rw [hs.whole]; rfl
    exact ht ▸ hrs r₀ hmem

/-- What is left of a known run is known. -/
private theorem RoundFits.tail_ne_unknown (hrs : ∀ r ∈ rs, r.tail ≠ .unknown) (h : RoundFits F pull ω r c rs) :
    (c r.before.length).2.tail ≠ .unknown := by
  obtain ⟨r₀, hr, hs⟩ := h.current
  have ht : r₀.tail = (c r.before.length).2.tail := by rw [hs.whole]; rfl
  exact ht ▸ hrs r₀ (List.mem_of_getElem? hr)

/-- Reading in any situation: along the sequences that are still to be visited in this round, and along
the run of the current one. -/
theorem reading_proceeds (hk : Sticky pull) (hrs : ∀ r ∈ rs, r.tail ≠ .unknown)
    (hR : R ≠ ⟨[], .unknown⟩) (hz : ZipRun F combine pullOut rs ω R) (h : RoundFits F pull ω r c rs) :
    Proceeds F (Step.zipping combine pull pullOut) (ZipReading F pull combine pullOut rs R) ω
      (.reading r) R := by
  induction hn : r.after.length using Nat.strongRecOn generalizing ω r c with
  | ind n ih =>
    obtain ⟨_, -, hs⟩ := h.current
    refine hs.runs.induction (P := fun ω s rem => ∀ ω₀ r c, F.Since ω ω₀ →
      ZipRun F combine pullOut rs ω₀ R → RoundFits F pull ω₀ r c rs → r.after.length = n →
      c r.before.length = (s, rem) → Proceeds F (Step.zipping combine pull pullOut)
        (ZipReading F pull combine pullOut rs R) ω₀ (.reading r) R) ?_ ?_ ω r c (.refl ω) hz h hn rfl
    · intro ω s ω₀ r c _ _ h _ hc
      exact absurd (hc ▸ rfl) (h.tail_ne_unknown hrs)
    · intro ω s rem hs ω₀ r c h₀ hz h hn hc
      refine .of_obeys fun ω₁ h₁ => ?_
      have hz₁ := hz.later h₁
      have hfits₁ := h.later h₁
      by_cases hω₁ : F.settled ω₁
      · exact (settled_proceeds hk hrs hω₁ hz₁ hfits₁).obeys hR (F.rely_idle h₁)
      have hcur := hs ω₁ (h₀.rely h₁)
      refine reading_obeys (A := fun ω p => ∀ ω₀ r c, F.Since ω ω₀ →
        ZipRun F combine pullOut rs ω₀ R → RoundFits F pull ω₀ r c rs → r.after.length = n →
        c r.before.length = p → Proceeds F (Step.zipping combine pull pullOut)
          (ZipReading F pull combine pullOut rs R) ω₀ (.reading r) R)
        hk (F.rely_idle h₁) hz₁ hfits₁ (hc ▸ hcur) ?_ ?_
      · intro ω' s x p hg hA hfits
        exact hA ω' _ _ (.refl ω') (hz₁.later (F.rely_of_guarantee hg)) hfits hn
          (Function.update_self ..)
      · intro ω' s waiting p hg hz' hfits _ hd heq
        have hd' : waiting = none →
            (Function.update c r.before.length p r.before.length).2 = ⟨[], .done⟩ := by
          rw [Function.update_self]
          exact hd
        refine after_obeys hz' hfits hd' heq hg ?_ ?_ ?_
        · intro t ts ha hfits'
          have hts : ts.length < n := by
            have ha : r.after = t :: ts := ha
            rw [← hn, ha]
            exact Nat.lt_succ_self _
          exact ih ts.length hts hz' hfits' rfl
        · intro xs hrun
          exact hrun.proceeds.mono fun _ _ _ h => .inl h
        · intro t ts _ hfits'
          exact ⟨fun hs => absurd hs hω₁, fun _ => .inr ⟨rfl, hz', _, _, rfl, hfits'⟩⟩

/-- At the start nothing has been found, and all runs are still to come. -/
private theorem RoundFits.start {s : σ} {ss : List σ} (h : List.Forall₂ (Runs F pull ω) (s :: ss) rs) :
    ∃ c, RoundFits F pull ω (.start s ss) c rs := by
  have hs : (Step.Round.start s ss : Step.Round α σ).slots = (s :: ss).map (⟨·, none⟩) := by
    simp [Step.Round.start, Step.Round.slots]
  refine ⟨fun i => ((s :: ss)[i]?.getD s, rs[i]?.getD ⟨[], .done⟩), ?_, ?_, ?_⟩
  · rw [hs, List.length_map, h.length_eq]
  · intro i slot r₀ hi hr
    rw [hs, List.getElem?_map, Option.map_eq_some_iff] at hi
    obtain ⟨x, hx, rfl⟩ := hi
    simp only [hx, hr, Option.getD_some]
    obtain ⟨h₁, rfl⟩ := List.getElem?_eq_some_iff.mp hx
    obtain ⟨h₂, rfl⟩ := List.getElem?_eq_some_iff.mp hr
    exact ⟨rfl, .inl rfl, h.get h₁ h₂⟩
  · exact fun _ i hi => absurd hi (Nat.not_lt_zero i)

/-- The sequence made from at most one item of each of several sequences. -/
theorem zipping_runs (hk : Sticky pull) (hrs : ∀ r ∈ rs, r.tail ≠ .unknown)
    (hz : ZipRun F combine pullOut rs ω R) {ss : List σ} (h : List.Forall₂ (Runs F pull ω) ss rs) :
    Runs F (Step.zipping combine pull pullOut) ω (.start ss) R := by
  by_cases hR : R = ⟨[], .unknown⟩
  · exact hR ▸ .unknown ω _
  cases ss with
  | nil =>
    cases h
    exact zipping_ready_runs (hz.gives [] rfl)
  | cons s ss =>
    obtain ⟨c, hc⟩ := RoundFits.start h
    refine .coinduction (ZipReading F pull combine pullOut rs R) ?_ (.inr ⟨rfl, hz, _, c, rfl, hc⟩)
    rintro ω z R' (h | ⟨rfl, hz, r, c, rfl, h⟩)
    · exact h.proceeds.mono fun _ _ _ h => .inl h
    · exact reading_proceeds hk hrs hR hz h

end

end

end LazyXPath
