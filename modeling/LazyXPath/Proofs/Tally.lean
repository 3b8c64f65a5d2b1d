import LazyXPath.Proofs.Account
import LazyXPath.Stream.Conversion

/-!
# Tallies

Bounds of the number of items still to come are right if each step respects them: an item takes one from
the upper bound and at most one from the lower bound, another step raises neither the upper bound nor
lowers the lower bound, and the lower bound at the end is zero. A **tally** gives bounds to the states of
a sequence, together with a condition under which its steps respect them (`Tally.Admits`).

* A tally of a cursor gives a tally of the streams over it (`Tally.stream`), which counts the items ahead.
* Each combinator respects the bounds computed from those of the sequence it reads. The statements are
  about the steps of the combinators, whatever is read and whatever the callbacks do.
* If the steps of a cursor respect a tally, then the bounds of a stream over it hold for everything that
  is delivered under any uses (`Tally.bounds_hold`).
-/

namespace LazyXPath

variable {W α β γ κ σ : Type}

/-! ### Bounds after some items -/

namespace SizeHint

/-- The bounds `h'` are right after `k` items if the bounds `h` were right before them. -/
structure Loses (h : SizeHint) (k : Nat) (h' : SizeHint) : Prop where
  lower : h.lower ≤ h'.lower + k
  upper : ∀ u, h.upper = some u → ∃ v, h'.upper = some v ∧ v + k ≤ u

private theorem addUpper_eq_some {a b : Option Nat} {u : Nat} :
    addUpper a b = some u ↔ ∃ m n, a = some m ∧ b = some n ∧ m + n = u ∧ u ≤ limit := by
  cases a <;> cases b <;> simp [addUpper]
  grind

private theorem append_comm (a b : SizeHint) : a.append b = b.append a := by
  obtain ⟨m, _ | u⟩ := a <;> obtain ⟨n, _ | v⟩ := b <;> simp [append, addUpper, Nat.add_comm]

namespace Loses

variable {h h' h'' : SizeHint} {j k n : Nat}

theorem refl (h : SizeHint) : h.Loses 0 h :=
  ⟨Nat.le_refl _, fun u hu => ⟨u, hu, Nat.le_refl u⟩⟩

theorem trans (hj : h.Loses j h') (hk : h'.Loses k h'') : h.Loses (j + k) h'' := by
  refine ⟨by have := hj.lower; have := hk.lower; omega, fun u hu => ?_⟩
  obtain ⟨v, hv, hvu⟩ := hj.upper u hu
  obtain ⟨v', hv', hvv⟩ := hk.upper v hv
  exact ⟨v', hv', by omega⟩

/-- Where nothing is known, nothing can be lost. -/
theorem unknown (h' : SizeHint) : SizeHint.unknown.Loses k h' :=
  ⟨Nat.zero_le _, fun _ hu => nomatch hu⟩

theorem exactly (hn : n = j + k) : (SizeHint.exactly n).Loses k (.exactly j) :=
  ⟨Nat.le_of_eq hn, fun _ hu => ⟨j, rfl, Nat.le_of_eq (hn.symm.trans (Option.some.inj hu))⟩⟩

/-- At the end there is nothing left. -/
theorem ending (hl : h.Loses k h') (hz : h'.lower = 0) : h.Loses k (.exactly 0) := by
  refine ⟨hz ▸ hl.lower, fun u hu => ?_⟩
  obtain ⟨v, -, hv⟩ := hl.upper u hu
  exact ⟨0, rfl, by omega⟩

/-- A bound from above alone may be kept when more is known to be lost. -/
theorem upTo (hl : h.Loses k h') (hj : j ≤ k) : (SizeHint.upTo h.upper).Loses j (.upTo h'.upper) := by
  refine ⟨Nat.zero_le _, fun u hu => ?_⟩
  obtain ⟨v, hv, hvu⟩ := hl.upper u hu
  exact ⟨v, hv, by omega⟩

/-- Sums of bounds that are cut off or dropped lose as much as their first part. -/
theorem append (hl : h.Loses k h') (b : SizeHint) : (h.append b).Loses k (h'.append b) := by
  refine ⟨?_, fun u hu => ?_⟩
  · have := hl.lower
    simp only [SizeHint.append]
    omega
  · obtain ⟨m, n, hm, hn, rfl, hle⟩ := addUpper_eq_some.mp hu
    obtain ⟨v, hv, hvm⟩ := hl.upper m hm
    exact ⟨v + n, addUpper_eq_some.mpr ⟨v, n, hv, hn, rfl, by omega⟩, by omega⟩

/-- A first part that has ended. -/
theorem of_append {b : SizeHint} (hz : h.lower = 0) : (h.append b).Loses 0 b := by
  refine ⟨?_, fun u hu => ?_⟩
  · simp only [SizeHint.append, hz]
    omega
  · obtain ⟨m, n, -, hn, rfl, -⟩ := addUpper_eq_some.mp hu
    exact ⟨n, hn, Nat.le_add_left n m⟩

/-- The bounds of the first items lose what the bounds of all items lose. -/
theorem take (hl : h.Loses k h') (n : Nat) : (h.take (n + k)).Loses k (h'.take n) := by
  refine ⟨?_, fun u hu => ⟨_, rfl, ?_⟩⟩
  · have := hl.lower
    simp only [SizeHint.take]
    omega
  · obtain rfl := Option.some.inj hu
    cases hm : h.upper with
    | none =>
      simp only [Option.getD_none]
      omega
    | some m =>
      obtain ⟨v, hv, hvm⟩ := hl.upper m hm
      simp only [hv, Option.getD_some]
      omega

/-- Items that wait beside a sequence count in full. -/
theorem plus (hl : h.Loses j h') {m n : Nat} (hn : n + k ≤ m + j) :
    (SizeHint.upTo (h.upper.map (· + m))).Loses k (.upTo (h'.upper.map (· + n))) := by
  refine ⟨Nat.zero_le _, fun u hu => ?_⟩
  obtain ⟨u, hu', rfl⟩ := Option.map_eq_some_iff.mp hu
  obtain ⟨v, hv, hvu⟩ := hl.upper u hu'
  exact ⟨v + n, Option.map_eq_some_iff.mpr ⟨v, hv, rfl⟩, by omega⟩

end Loses

end SizeHint

/-! ### Tallies -/

/-- Bounds for the states of a sequence, and a condition under which its steps respect them. -/
structure Tally (σ : Type) where
  bounds : σ → SizeHint
  sound : σ → Prop

namespace Tally

/-- A step of a state that respects the bounds and leads to a state with the condition again. -/
def Admits (T : Tally σ) (s : σ) (r : Outcome α × σ) : Prop :=
  match r.1 with
  | .item _ => T.sound r.2 ∧ (T.bounds s).Loses 1 (T.bounds r.2)
  | .suspended _ | .skip => T.sound r.2 ∧ (T.bounds s).Loses 0 (T.bounds r.2)
  | .done => (T.bounds s).lower = 0
  | .failed _ => True

/-- A step that is seen as one of other states with the same bounds. -/
theorem Admits.lift {τ : Type} {T : Tally σ} {T' : Tally τ} {s : σ} {t t' : τ} {r : Outcome α × σ}
    (h : T.Admits s r) (hb : T'.bounds t = T.bounds s)
    (hs : T.sound r.2 → T'.sound t' ∧ T'.bounds t' = T.bounds r.2) : T'.Admits t (r.1, t') := by
  obtain ⟨o, s'⟩ := r
  unfold Admits at h ⊢
  rw [hb]
  cases o with
  | item | suspended | skip =>
    obtain ⟨hs', hb'⟩ := hs h.1
    exact ⟨hs', hb'.symm ▸ h.2⟩
  | done => exact h
  | failed => trivial

/-- Where nothing is known, every step is respected. -/
theorem Admits.of_unknown {T : Tally σ} {s : σ} {r : Outcome α × σ} (hb : T.bounds s = .unknown)
    (hs : T.sound r.2) : T.Admits s r := by
  obtain ⟨o, s'⟩ := r
  unfold Admits
  rw [hb]
  cases o with
  | item | suspended | skip => exact ⟨hs, .unknown _⟩
  | done => rfl
  | failed => trivial

/-! ### Streams -/

/-- The tally of the streams over a cursor. -/
def stream (T : Tally κ) : Tally (StreamOf α κ) where
  bounds s := match s.status with
    | .running c => (T.bounds c).append (.exactly s.ahead.length)
    | .done => .exactly s.ahead.length
    | .failed _ => ⟨s.ahead.length, none⟩
  sound s := match s.status with
    | .running c => T.sound c
    | _ => True

theorem stream_admits_ahead {T : Tally κ} {x : α} {xs : List α} {status : Status κ}
    (h : (T.stream : Tally (StreamOf α κ)).sound ⟨x :: xs, status⟩) :
    T.stream.Admits ⟨x :: xs, status⟩ (.item x, ⟨xs, status⟩) := by
  refine ⟨h, ?_⟩
  have hl : (SizeHint.exactly (xs.length + 1)).Loses 1 (.exactly xs.length) := .exactly rfl
  cases status with
  | running c =>
    have hl := hl.append (T.bounds c)
    rw [SizeHint.append_comm, SizeHint.append_comm _ (T.bounds c)] at hl
    exact hl
  | done => exact hl
  | failed e => exact ⟨Nat.le_refl _, nofun⟩

theorem stream_admits_settle {T : Tally κ} {c : κ} {r : Outcome α × κ} (h : T.Admits c r) :
    T.stream.Admits (.run c) (StreamOf.settle r) := by
  obtain ⟨o, c'⟩ := r
  cases o with
  | item | suspended | skip => exact ⟨h.1, h.2.append _⟩
  | done =>
    have hz : (T.bounds c).lower = 0 := h
    simp [Admits, stream, StreamOf.settle, StreamOf.run, SizeHint.append,
      SizeHint.exactly, hz]
  | failed => trivial

/-! ### Combinators -/

section

variable {T : Tally σ} {s : σ} {pull : Step.Pull W α σ}

/-- A function of each item keeps the bounds, whether it fails or not. -/
theorem map_admits (f : γ → α → StateM W (Except Error β × γ)) (g : γ)
    (hp : Ensures pull (T.Admits s)) :
    Ensures (Step.map f g pull) fun r => T.Admits s (r.1, r.2.2) := by
  refine hp.bind ?_
  rintro ⟨o, s'⟩ h
  cases o with
  | item x =>
    refine .andThen _ ?_
    rintro ⟨_ | y, g'⟩
    · exact .of_pure trivial
    · exact .of_pure h
  | done | suspended | failed | skip => exact .of_pure h

/-- The tally of the items that pass a test: nothing is known from below. -/
def filter (T : Tally σ) : Tally σ := ⟨fun s => .upTo (T.bounds s).upper, T.sound⟩

theorem filter_admits (f : γ → α → StateM W (Except Error Bool × γ)) (g : γ)
    (hp : Ensures pull (T.Admits s)) :
    Ensures (Step.filter f g pull) fun r => T.filter.Admits s (r.1, r.2.2) := by
  refine hp.bind ?_
  rintro ⟨o, s'⟩ h
  cases o with
  | item x =>
    refine .andThen _ ?_
    rintro ⟨_ | (_ | _), g'⟩
    · exact .of_pure trivial
    · exact .of_pure ⟨h.1, h.2.upTo (Nat.zero_le 1)⟩
    · exact .of_pure ⟨h.1, h.2.upTo (Nat.le_refl 1)⟩
  | done => exact .of_pure rfl
  | suspended | skip => exact .of_pure ⟨h.1, h.2.upTo (Nat.le_refl 0)⟩
  | failed => exact .of_pure trivial

/-- The tally of the first items. -/
def take (T : Tally σ) : Tally (Nat × σ) := ⟨fun p => (T.bounds p.2).take p.1, fun p => T.sound p.2⟩

theorem take_admits (n : Nat) (hp : Ensures pull (T.Admits s)) :
    Ensures (Step.take n s pull) (T.take.Admits (n, s)) := by
  cases n with
  | zero => exact .of_pure (Nat.min_zero _)
  | succ n =>
    refine hp.bind ?_
    rintro ⟨o, s'⟩ h
    cases o with
    | item x => exact .of_pure ⟨h.1, h.2.take n⟩
    | done =>
      have hz : (T.bounds s).lower = 0 := h
      exact .of_pure (by simp [Admits, take, SizeHint.take, hz])
    | suspended | skip => exact .of_pure ⟨h.1, h.2.take (n + 1)⟩
    | failed => exact .of_pure trivial

/-- The bounds of several sequences one after the other. -/
def sum (T : Tally σ) : List σ → SizeHint
  | [] => .exactly 0
  | s :: rest => (T.bounds s).append (T.sum rest)

/-- The tally of several sequences one after the other, the first of which is being read. -/
def concat (T : Tally σ) : Tally (σ × List σ) where
  bounds p := T.sum (p.1 :: p.2)
  sound p := ∀ s ∈ p.1 :: p.2, T.sound s

theorem concat_admits {rest : List σ} (hr : ∀ s ∈ rest, T.sound s) (hp : Ensures pull (T.Admits s)) :
    Ensures (Step.concat rest pull) (T.concat.Admits (s, rest)) := by
  refine hp.bind ?_
  rintro ⟨o, s'⟩ h
  cases o with
  | item x => exact .of_pure ⟨List.forall_mem_cons.mpr ⟨h.1, hr⟩, h.2.append _⟩
  | suspended | skip => exact .of_pure ⟨List.forall_mem_cons.mpr ⟨h.1, hr⟩, h.2.append _⟩
  | failed => exact .of_pure trivial
  | done =>
    have hz : (T.bounds s).lower = 0 := h
    cases rest with
    | nil => exact .of_pure (by simp [Admits, concat, sum, SizeHint.append, SizeHint.exactly, hz])
    | cons next rest => exact .of_pure ⟨hr, .of_append hz⟩

end

/-! ### Conversion -/

/-- The tally of a conversion that leaves items as they are: those that have been converted but not yet
delivered are counted beside those of the input. -/
def convert (T : Tally σ) : Tally (Conversion × σ) where
  bounds p := .upTo ((T.bounds p.2).upper.map (· + p.1.pending.length))
  sound p := p.1.type.item = .item ∧ T.sound p.2

private theorem convert_admits_deliver {T : Tally σ} {c : Conversion} {s s' : σ} (h : T.convert.sound (c, s'))
    (hs : (T.bounds s).Loses 0 (T.bounds s')) :
    T.convert.Admits (c, s) (c.deliver.1, c.deliver.2, s') := by
  unfold Conversion.deliver
  cases hc : c.pending with
  | nil => rfl
  | cons x xs => exact ⟨h, hs.plus (by simp [hc])⟩

theorem convert_admits {T : Tally κ} {s : StreamOf Item κ} {pull : Step.Pull W Item (StreamOf Item κ)}
    (f : Forest) {c : Conversion} (hs : T.stream.convert.sound (c, s))
    (hp : Ensures pull fun r => T.stream.Admits s r ∧ (r.1 = .done → r.2 = .empty)) :
    Ensures (c.step f s pull) (T.stream.convert.Admits (c, s)) := by
  obtain ⟨hi, hs⟩ : c.type.item = .item ∧ T.stream.sound s := hs
  unfold Conversion.step
  split
  · -- an item that waits is delivered, and the input stays as it is
    exact .of_pure (convert_admits_deliver ⟨hi, hs⟩ (.refl _))
  refine hp.bind ?_
  rintro ⟨o, s'⟩ ⟨h, hd⟩
  cases o with
  | item x =>
    have hx : x.convert f c.type = .ok [x] := by simp [Item.convert, hi]
    have ht : T.stream.convert.Admits (c, s) ((c.takeUp f x).1, (c.takeUp f x).2, s') := by
      simp only [Conversion.takeUp, hx]
      split
      · trivial
      · exact ⟨⟨hi, h.1⟩, h.2.plus (by simp)⟩
    exact .of_pure ht
  | done =>
    -- the input has ended, so that only the items that wait are left
    obtain rfl : s' = .empty := hd rfl
    have hz : (T.stream.bounds s).Loses 0 (T.stream.bounds (.empty : StreamOf Item κ)) :=
      SizeHint.Loses.ending (.refl _) h
    have hf : T.stream.convert.Admits (c, s) (c.finish.1, c.finish.2, .empty) := by
      unfold Conversion.finish
      split
      · trivial
      · exact convert_admits_deliver (c := { c with checked := true }) ⟨hi, trivial⟩ hz
    exact .of_pure hf
  | suspended | skip => exact .of_pure ⟨⟨hi, h.1⟩, h.2.plus (Nat.le_refl _)⟩
  | failed => exact .of_pure trivial

/-! ### Bounds along uses -/

section

variable {T : Tally κ} {step : κ → StateM W (Outcome α × κ)}

/-- What bounds `h` at the start say about the items so far. -/
def account (hT : ∀ c, T.sound c → Ensures (step c) (T.Admits c)) (h : SizeHint) : Account step where
  running seen c := T.sound c ∧ h.Loses seen.length (T.bounds c)
  ended seen := h.Loses seen.length (.exactly 0)
  failed seen := ∀ u, h.upper = some u → seen.length ≤ u
  stepped {seen c} hc w := by
    have hr := hT c hc.1 w
    generalize step c w = q at hr ⊢
    obtain ⟨⟨o, c'⟩, w'⟩ := q
    cases o with
    | item x => exact ⟨hr.1, by simpa using hc.2.trans hr.2⟩
    | suspended | skip => exact ⟨hr.1, hc.2.trans hr.2⟩
    | done => exact hc.2.ending hr
    | failed e =>
      intro u hu
      obtain ⟨v, -, hv⟩ := hc.2.upper u hu
      exact Nat.le_of_add_left_le hv

/-- The bounds of a stream are the start of an account of what it delivers. -/
theorem account_start (hT : ∀ c, T.sound c → Ensures (step c) (T.Admits c)) {s : StreamOf α κ}
    (hs : T.stream.sound s) :
    (account hT (T.stream.bounds s)).Holds [] s := by
  obtain ⟨ahead, status⟩ := s
  cases status with
  | running c =>
    refine ⟨hs, Nat.min_le_left _ _, fun u hu => ?_⟩
    obtain ⟨m, n, hm, hn, rfl, -⟩ := SizeHint.addUpper_eq_some.mp hu
    exact ⟨m, hm, Nat.le_of_eq (congrArg (m + ·) (Option.some.inj hn))⟩
  | done => exact .exactly (Nat.zero_add _).symm
  | failed e => exact fun u hu => nomatch hu

/-- What the account says in every state of the stream. -/
theorem account_holds (hT : ∀ c, T.sound c → Ensures (step c) (T.Admits c)) {h : SizeHint}
    {seen : List α} {s : StreamOf α κ} (hs : (account hT h).Holds seen s) :
    T.stream.sound s ∧ ∀ u, h.upper = some u → seen.length + s.ahead.length ≤ u := by
  obtain ⟨ahead, status⟩ := s
  have hl {h' : SizeHint} (hl : h.Loses (seen ++ ahead).length h') (u : Nat) (hu : h.upper = some u) :
      seen.length + ahead.length ≤ u := by
    obtain ⟨v, -, hv⟩ := hl.upper u hu
    rw [← List.length_append]
    exact Nat.le_of_add_left_le hv
  cases status with
  | running c => exact ⟨hs.1, hl hs.2⟩
  | done => exact ⟨trivial, hl hs⟩
  | failed e => exact ⟨trivial, fun u hu => List.length_append ▸ hs u hu⟩

/-- **Bounds hold.** If the steps of a cursor respect a tally, then under any uses of a stream over it no
more items are delivered than the upper bound says, and if the end is reported, no less than the lower
bound says. The condition of the tally holds after any uses. -/
theorem bounds_hold (hT : ∀ c, T.sound c → Ensures (step c) (T.Admits c))
    (hint : κ → Except Error SizeHint) {s : StreamOf α κ} (hs : T.stream.sound s) (us : List ((W → W) × Use)) (w : W) :
    let q := StreamOf.uses hint step us s w
    T.stream.sound q.2.1 ∧
      (∀ u, (T.stream.bounds s).upper = some u → (Report.delivered q.1).length ≤ u) ∧
      (.advanced .done ∈ q.1 → (T.stream.bounds s).lower ≤ (Report.delivered q.1).length) := by
  intro q
  have hstart := account_start hT hs
  have hq : StreamOf.uses hint step us s w = q := rfl
  obtain ⟨hsound, hupper⟩ := account_holds hT (hstart.used_all us hq)
  refine ⟨hsound, fun u hu => Nat.le_of_add_right_le (hupper u hu), fun hd => ?_⟩
  have he : (T.stream.bounds s).Loses (Report.delivered q.1).length (.exactly 0) :=
    hstart.ended_of_mem us hq hd
  exact Nat.le_trans he.lower (Nat.le_of_eq (Nat.zero_add _))

end

end Tally

end LazyXPath
