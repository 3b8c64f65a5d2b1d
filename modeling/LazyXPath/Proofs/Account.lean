import LazyXPath.Proofs.Protocol

/-!
# Accounts of delivered items

An **account** of a cursor says something about the items it has produced and the state it is in, and
what follows for all the items at the end or at an error. It has to be preserved by a step. Then it
holds along every use of a stream over the cursor, for the items that have been delivered together with
those ahead (`Account.Holds.used_all`), and the end is reported only when the account for the end holds
of the items delivered (`Account.Holds.ended_of_mem`).

Steps are actions, and what an account needs of them is what they give in every world (`Ensures`).
-/

namespace LazyXPath

variable {W α β κ : Type}

/-! ### What an action gives in every world -/

/-- In every world, the result of an action has a property. -/
def Ensures (x : StateM W β) (Q : β → Prop) : Prop := ∀ w, Q (x w).1

namespace Ensures

variable {γ : Type} {x : StateM W β} {k : β → StateM W γ} {Q Q' : β → Prop} {R : γ → Prop}

/-- What holds of the result in every world holds of the result at hand. -/
private theorem of_eq (h : Ensures x Q) {w w' : W} {b : β} (hx : x w = (b, w')) : Q b := by
  have hq := h w
  rwa [hx] at hq

theorem of_pure {b : β} (h : Q b) : Ensures (pure b : StateM W β) Q := fun _ => h

theorem bind (hx : Ensures x Q) (hk : ∀ b, Q b → Ensures (k b) R) : Ensures (x >>= k) R :=
  fun w => hk (x w).1 (hx w) (x w).2

/-- An action of which nothing is known may stand in front. -/
theorem andThen (x : StateM W β) (hk : ∀ b, Ensures (k b) R) : Ensures (x >>= k) R :=
  fun w => hk (x w).1 (x w).2

end Ensures

/-! ### Accounts -/

/-- The items delivered by several reports, the first report taken off. -/
private theorem Report.delivered_cons (r : Report α) (rs : List (Report α)) :
    delivered (r :: rs) = r.item?.toList ++ delivered rs := by
  cases hr : r.item? <;> simp [delivered, hr]

/-- An account of the items of a cursor: what holds of the items so far while it goes on, of all the
items at the end, and of all the items before an error. -/
structure Account (step : κ → StateM W (Outcome α × κ)) where
  running : List α → κ → Prop
  ended : List α → Prop
  failed : List α → Prop
  stepped : ∀ {seen c}, running seen c → Ensures (step c) fun r =>
    match r.1 with
    | .item x => running (seen ++ [x]) r.2
    | .done => ended seen
    | .failed _ => failed seen
    | .suspended _ | .skip => running seen r.2

namespace Account

variable {hint : κ → Except Error SizeHint} {step : κ → StateM W (Outcome α × κ)} (A : Account step)

/-- The account of a stream that has delivered the items `seen`. -/
def Holds (seen : List α) (s : StreamOf α κ) : Prop :=
  match s.status with
  | .running c => A.running (seen ++ s.ahead) c
  | .done => A.ended (seen ++ s.ahead)
  | .failed _ => A.failed (seen ++ s.ahead)

namespace Holds

variable {A} {seen : List α} {s s' : StreamOf α κ} {w w' : W}

/-- A step of the cursor, whose item is delivered or kept ahead. -/
theorem stepped {ahead : List α} {c c' : κ} {o : Outcome α} (h : A.Holds seen ⟨ahead, .running c⟩)
    (hs : step c w = ((o, c'), w')) {seen' ahead' : List α}
    (hi : seen' ++ ahead' = seen ++ ahead ++ o.item?.toList) :
    A.Holds seen' ⟨ahead', StreamOf.statusAfter o c'⟩ := by
  have h' := (A.stepped h).of_eq hs
  cases o with
  | item x => exact (congrArg (A.running · c') hi).mpr h'
  | done => exact (congrArg A.ended (hi.trans (List.append_nil _))).mpr h'
  | failed e => exact (congrArg A.failed (hi.trans (List.append_nil _))).mpr h'
  | suspended | skip => exact (congrArg (A.running · c') (hi.trans (List.append_nil _))).mpr h'

/-- A pull continues the account with the item it delivers, whether that comes from the items ahead or from a
step. -/
theorem pulled {o : Outcome α} (h : A.Holds seen s) (hp : StreamOf.pull step s w = ((o, s'), w')) :
    A.Holds (seen ++ o.item?.toList) s' := by
  obtain ⟨x, ahead, status, rfl, rfl, rfl, rfl⟩ | ⟨rfl, rfl, rfl, rfl⟩ | ⟨e, rfl, rfl, rfl, rfl⟩ |
    ⟨c, c', rfl, hs, rfl⟩ := StreamOf.pull_cases hp
  · have hi : seen ++ [x] ++ ahead = seen ++ x :: ahead := by simp
    unfold Holds at h ⊢
    simp only [Outcome.item?, Option.toList_some, hi]
    exact h
  · simpa [Outcome.item?] using h
  · simpa [Outcome.item?] using h
  · exact h.stepped hs (by simp)

/-- A look ahead moves an item from the cursor to the items ahead, which the account does not tell apart. -/
private theorem looked {o : Outcome Cardinality} (h : A.Holds seen s)
    (hp : StreamOf.look step s w = ((o, s'), w')) : A.Holds seen s' := by
  obtain ⟨-, -, rfl, -⟩ | ⟨-, -, rfl, -⟩ | ⟨e, -, -, -, rfl, -⟩ | ⟨c, o', c', -, hc, hs, hk⟩ :=
    StreamOf.look_cases hp
  · exact h
  · exact h
  · exact h
  · obtain ⟨ahead, status⟩ := s
    obtain rfl : status = .running c := hc
    cases o' with
    | item x => cases hk; exact h.stepped hs (by simp [Outcome.item?])
    | done | suspended | failed | skip => cases hk; exact h.stepped hs (by simp [Outcome.item?])

/-- One use. -/
theorem used {u : Use} {r : Report α} (h : A.Holds seen s)
    (hu : StreamOf.use hint step u s w = ((r, s'), w')) : A.Holds (seen ++ r.item?.toList) s' := by
  cases u with
  | advance fuel =>
    obtain ⟨o, s', w', hr, hq⟩ := StreamOf.use_advance hu
    cases hq
    have hskip : ∀ {s s' : StreamOf α κ} {w w' : W}, A.Holds seen s →
        StreamOf.pull step s w = ((.skip, s'), w') → A.Holds seen s' :=
      fun h hp => List.append_nil seen ▸ h.pulled hp
    obtain ⟨rfl, h'⟩ | ⟨-, s₁, w₁, h', hp⟩ := untilReport_cases (I := fun s _ => A.Holds seen s) hskip h hr
    · exact (List.append_nil seen).symm ▸ h'
    · exact h'.pulled hp
  | cardinality fuel =>
    obtain ⟨o, -, hq⟩ | ⟨o, s', w', hr, hq⟩ := StreamOf.use_cardinality hu
    · cases hq
      exact (List.append_nil seen).symm ▸ h
    · cases hq
      have h' : A.Holds seen s' := by
        obtain ⟨-, h'⟩ | ⟨-, s₁, w₁, h', hp⟩ :=
          untilReport_cases (I := fun s _ => A.Holds seen s) (fun h hp => h.looked hp) h hr
        · exact h'
        · exact h'.looked hp
      exact (List.append_nil seen).symm ▸ h'

/-- All uses. -/
theorem used_all (us : List ((W → W) × Use)) (h : A.Holds seen s) {q}
    (hq : StreamOf.uses hint step us s w = q) : A.Holds (seen ++ Report.delivered q.1) q.2.1 := by
  subst hq
  induction us generalizing s seen w with
  | nil => exact (List.append_nil seen).symm ▸ h
  | cons u us ih =>
    obtain ⟨m, u⟩ := u
    rcases hu : StreamOf.use hint step u s (m w) with ⟨⟨r, s'⟩, w'⟩
    rw [StreamOf.uses_cons hu, Report.delivered_cons, ← List.append_assoc]
    exact ih (h.used hu)

/-- The end is reported after the items of which the account for the end holds. -/
theorem ended_of_mem (us : List ((W → W) × Use)) (h : A.Holds seen s) {q}
    (hq : StreamOf.uses hint step us s w = q) (hd : .advanced .done ∈ q.1) :
    A.ended (seen ++ Report.delivered q.1) := by
  subst hq
  induction us generalizing s seen w with
  | nil => cases hd
  | cons u us ih =>
    obtain ⟨m, u⟩ := u
    rcases hu : StreamOf.use hint step u s (m w) with ⟨⟨r, s'⟩, w'⟩
    have h' := h.used hu
    rw [StreamOf.uses_cons hu] at hd ⊢
    rw [Report.delivered_cons, ← List.append_assoc]
    obtain _ | ⟨_, hd⟩ := hd
    · -- Nothing is delivered after the end.
      obtain rfl := StreamOf.eq_of_use_done hu
      rw [StreamOf.delivered_uses_done, List.take_nil]
      exact h'
    · exact ih h' hd

end Holds

end Account

end LazyXPath
