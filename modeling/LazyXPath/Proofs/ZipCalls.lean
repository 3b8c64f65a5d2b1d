import LazyXPath.Proofs.Zip

/-!
# The semantics of combining single items

A function of at most one item from each of several sequences is called when all of them have ended
(`zip_semantics`). If each of them consists of at most one item, the result is what the function makes
of the items; the wrapper `Step.whenAll` leaves the function out if an item is missing. If one of them
has a second item or an error, the result is an error, and the function is not called.

Calls are seen from a log in which everything is noted that the sequences report. The order of the
entries is the same for every schedule as far as calls are concerned (`StreamLog`): the only call stands
at the end, after the ends of all sequences. In a frame beside a log that must not change, a run also
says that a callback with notes is not called.
-/

namespace LazyXPath

variable {W α β σ τ : Type}

/-! ### What is noted -/

/-- What is noted about a combinator of several sequences. -/
inductive ZipNotice (α : Type) where
  /-- The sequence with a number has reported something. -/
  | reported (i : Nat) (o : Outcome α)
  /-- The callback has been called. -/
  | called (found : List (Option α))

namespace ZipNotice

/-- The item that a notice says the sequence with a number has delivered. -/
def delivery? (i : Nat) : ZipNotice α → Option α
  | reported j (.item x) => if j = i then some x else none
  | _ => none

/-- The items that the sequence with a number has delivered. -/
def delivered (i : Nat) (log : List (ZipNotice α)) : List α := log.filterMap (delivery? i)

/-- No call is noted. -/
def NoCall (log : List (ZipNotice α)) : Prop := ∀ found, called found ∉ log

/-- All of `n` sequences have ended, after the items that have been found in them. -/
def AllEnded (n : Nat) (found : List (Option α)) (log : List (ZipNotice α)) : Prop :=
  found.length = n ∧ ∀ i x, found[i]? = some x → reported i .done ∈ log ∧ delivered i log = x.toList

/-- There is one call, at the end of the log. It comes after the ends of all of `n` sequences, and is
with what has been delivered by them. -/
def CalledAfterAll (n : Nat) (log : List (ZipNotice α)) : Prop :=
  ∃ before found, log = before ++ [called found] ∧ NoCall before ∧ AllEnded n found before

/-- An error is that of one of the sequences, or one of them has delivered a second item. -/
def ErrorNoted (log : List (ZipNotice α)) (e : Error) : Prop :=
  ∃ i, reported i (.failed e) ∈ log ∨ 2 ≤ (delivered i log).length ∧ e = .notSingle (i + 1)

/-- A report is not a call. -/
private theorem NoCall.reported {log : List (ZipNotice α)} (h : NoCall log) (i : Nat) (o : Outcome α) :
    NoCall (log ++ [reported i o]) := by
  intro found hmem
  simp only [List.mem_append, List.mem_singleton, reduceCtorEq, or_false] at hmem
  exact h found hmem

/-- What one sequence reports is not counted for another one. -/
private theorem delivered_of_ne {i j : Nat} (log : List (ZipNotice α)) (o : Outcome α) (h : i ≠ j) :
    delivered j (log ++ [reported i o]) = delivered j log := by
  cases o <;> simp [delivered, delivery?, h]

/-- An item is noted behind those that its sequence has delivered before. -/
private theorem delivered_item (i : Nat) (log : List (ZipNotice α)) (x : α) :
    delivered i (log ++ [reported i (.item x)]) = delivered i log ++ [x] := by
  simp [delivered, delivery?]

/-- Other reports are not items. -/
private theorem delivered_of_ne_item (i j : Nat) (log : List (ZipNotice α)) {o : Outcome α}
    (h : ∀ x, o ≠ .item x) : delivered j (log ++ [reported i o]) = delivered j log := by
  cases o with
  | item x => exact absurd rfl (h x)
  | done | suspended | failed | skip => simp [delivered, delivery?]

end ZipNotice

section

variable (pull : σ → StateM W (Outcome α × σ))

/-- The pulls of a sequence that carries its number. -/
def numbered (s : σ × Nat) : StateM W (Outcome α × σ × Nat) := do
  let (o, s') ← pull s.1
  return (o, s', s.2)

/-- The pulls of numbered sequences, which are noted. -/
def notingReports : σ × Nat → StateM (W × List (ZipNotice α)) (Outcome α × σ × Nat) :=
  noting (fun s r => [.reported s.2 r.1]) (numbered pull)

/-- Reading with notes is reading, with the report at the end of the log. -/
private theorem exists_notingReports (s : σ) (i : Nat) (w : W) (log : List (ZipNotice α)) :
    ∃ o s' w', notingReports pull (s, i) (w, log) = ((o, s', i), w', log ++ [.reported i o]) :=
  ⟨(pull s w).1.1, (pull s w).1.2, (pull s w).2, rfl⟩

/-- A callback whose calls are noted. -/
def notingCombine (combine : List (Option α) → StateM W (Except Error τ)) :
    List (Option α) → StateM (W × List (ZipNotice α)) (Except Error τ) :=
  noting (fun found _ => [.called found]) combine

end

/-! ### The log of reading -/

open ZipNotice

/-- The log while `n` sequences are being read: there is no call, the items found are those delivered,
and if none is waited for, those already visited have ended. -/
structure ReadLog (n : Nat) (r : Step.Round α (σ × Nat)) (log : List (ZipNotice α)) : Prop where
  noCall : NoCall log
  length : r.slots.length = n
  slots : ∀ i slot, r.slots[i]? = some slot → slot.input.2 = i ∧ delivered i log = slot.item.toList
  visited : r.waiting = none → ∀ i < r.before.length, reported i .done ∈ log

namespace ReadLog

variable {n : Nat} {r : Step.Round α (σ × Nat)} {log : List (ZipNotice α)}

/-- The slot that is being visited has its number and its item in the log. -/
private theorem current (h : ReadLog n r log) : r.current.input.2 = r.before.length ∧
    delivered r.before.length log = r.current.item.toList :=
  h.slots _ _ Step.Round.slots_current

/-- A visit of the current sequence. -/
theorem visit (h : ReadLog n r log) (s : σ) {item : Option α} {waiting : Option DeferredId}
    {o : Outcome α} (hi : delivered r.before.length (log ++ [reported r.before.length o]) = item.toList)
    (hw : waiting = none → r.waiting = none) :
    ReadLog n (r.visit (s, r.before.length) item waiting) (log ++ [reported r.before.length o]) where
  noCall := h.noCall.reported _ _
  length := by rw [Step.Round.length_slots_visit, h.length]
  slots i slot hs := by
    obtain rfl | hne := eq_or_ne i r.before.length
    · rw [Step.Round.slots_visit_self] at hs
      cases hs
      exact ⟨rfl, hi⟩
    · rw [Step.Round.slots_visit_of_ne _ _ _ hne] at hs
      rw [delivered_of_ne _ _ hne.symm]
      exact h.slots i slot hs
  visited hw' i hi := List.mem_append_left _ (h.visited (hw hw') i hi)

/-- Going over to the next slot keeps the invariant if the end of this one has been noted, or if something is
waited for. -/
private theorem next (h : ReadLog n r log) {t : Step.Slot α (σ × Nat)} {ts : List (Step.Slot α (σ × Nat))}
    (ha : r.after = t :: ts) (hd : r.waiting = none → reported r.before.length .done ∈ log) :
    ReadLog n ⟨r.current :: r.before, t, ts, r.waiting⟩ log := by
  have hs : Step.Round.slots ⟨r.current :: r.before, t, ts, r.waiting⟩ = r.slots := by
    simp [Step.Round.slots, ha]
  refine ⟨h.noCall, hs ▸ h.length, hs ▸ h.slots, fun hw i hi => ?_⟩
  obtain hi | rfl := Nat.lt_succ_iff_lt_or_eq.mp hi
  · exact h.visited hw i hi
  · exact hd hw

/-- A new round starts with nothing waited for. -/
private theorem again (h : ReadLog n r log) {t : Step.Slot α (σ × Nat)} {ts : List (Step.Slot α (σ × Nat))}
    (hs : r.slots = t :: ts) : ReadLog n ⟨[], t, ts, none⟩ log := by
  have hs : Step.Round.slots ⟨[], t, ts, none⟩ = r.slots := hs.symm
  exact ⟨h.noCall, hs ▸ h.length, hs ▸ h.slots, fun _ _ hi => absurd hi (Nat.not_lt_zero _)⟩

/-- If nothing is waited for behind the last slot, all ends have been noted. -/
private theorem ready (h : ReadLog n r log) (ha : r.after = []) (hw : r.waiting = none)
    (hd : reported r.before.length .done ∈ log) : AllEnded n (r.slots.map (·.item)) log := by
  have hlen : r.slots.length = r.before.length + 1 := by simp [Step.Round.slots, ha]
  refine ⟨by rw [List.length_map, h.length], fun i x hx => ?_⟩
  rw [List.getElem?_map, Option.map_eq_some_iff] at hx
  obtain ⟨slot, hs, rfl⟩ := hx
  refine ⟨?_, (h.slots i slot hs).2⟩
  have hi : i < r.slots.length := (List.getElem?_eq_some_iff.mp hs).1
  obtain hlt | rfl := Nat.lt_succ_iff_lt_or_eq.mp (hlen ▸ hi)
  · exact h.visited hw i hlt
  · exact hd

end ReadLog

/-! ### The log of all steps -/

/-- The log in a state of combining items from `n` sequences. -/
def CursorLog (n : Nat) : Zipping α (σ × Nat) τ → List (ZipNotice α) → Prop
  | .reading r, log => ReadLog n r log
  | .ready found, log => NoCall log ∧ AllEnded n found log
  | .forward _, log => CalledAfterAll n log

/-- The log after a report: items and the end come after the call, and so does an error unless it is
noted otherwise. -/
def ReportLog (n : Nat) : Outcome β → List (ZipNotice α) → Prop
  | .item _, log | .done, log => CalledAfterAll n log
  | .failed e, log => CalledAfterAll n log ∨ NoCall log ∧ ErrorNoted log e
  | .suspended _, _ | .skip, _ => True

section

variable {n : Nat} {log : List (ZipNotice α)}

/-- The three ways to leave a slot: to the next one, to a suspension, or to the items. -/
private theorem ReadLog.after {r : Step.Round α (σ × Nat)} (h : ReadLog n r log)
    (hd : r.waiting = none → reported r.before.length .done ∈ log) {o : Outcome β}
    {z : Zipping α (σ × Nat) τ} (hz : Zipping.after r = (o, z)) :
    ReportLog n o log ∧ CursorLog n z log := by
  cases ha : r.after with
  | cons t ts =>
    rw [Zipping.after_next ha] at hz
    cases hz
    exact ⟨trivial, h.next ha hd⟩
  | nil =>
    cases hw : r.waiting with
    | none =>
      rw [Zipping.after_ready ha hw] at hz
      cases hz
      exact ⟨trivial, h.noCall, h.ready ha hw (hd hw)⟩
    | some d =>
      obtain ⟨t, ts, hs, ha'⟩ := Zipping.after_again (β := β) (τ := τ) ha hw
      rw [ha'] at hz
      cases hz
      exact ⟨trivial, h.again hs⟩

variable (combine : List (Option α) → StateM W (Except Error τ)) (pull : σ → StateM W (Outcome α × σ))
  (pullOut : τ → StateM W (Outcome β × τ))

/-- A step of reading keeps the invariant. Any failure leaves a log without a call. -/
private theorem cursorLog_reading {r : Step.Round α (σ × Nat)} {w : W} (h : ReadLog n r log) {o : Outcome β}
    {z : Zipping α (σ × Nat) τ} {p : W × List (ZipNotice α)}
    (hs : Step.zipping (notingCombine combine) (notingReports pull) (unnoted pullOut) (.reading r)
      (w, log) = ((o, z), p)) :
    ReportLog n o p.2 ∧ (¬o.IsEnding → CursorLog n z p.2) := by
  obtain ⟨hi, hc⟩ := h.current
  have hin : (r.current.input.1, r.before.length) = r.current.input := Prod.ext rfl hi.symm
  obtain ⟨o', s', w', hp⟩ := exists_notingReports pull r.current.input.1 r.before.length w log
  rw [hin] at hp
  cases o' with
  | item x =>
    cases hx : r.current.item with
    | none =>
      rw [Step.zipping_item hp hx] at hs
      cases hs
      refine ⟨trivial, fun _ => h.visit s' ?_ id⟩
      rw [delivered_item, hc, hx]
      rfl
    | some y =>
      rw [Step.zipping_second hp hx] at hs
      cases hs
      refine ⟨.inr ⟨h.noCall.reported _ _, r.before.length, .inr ⟨?_, rfl⟩⟩, fun ho => absurd trivial ho⟩
      rw [delivered_item, hc, hx]
      exact Nat.le_refl 2
  | done =>
    rw [Step.zipping_done hp] at hs
    obtain ⟨hz, rfl⟩ := Prod.mk.inj hs
    have hl : ReadLog n (r.visit (s', r.before.length) r.current.item r.waiting)
        (log ++ [reported r.before.length .done]) :=
      h.visit s' (by rw [delivered_of_ne_item _ _ _ nofun, hc]) id
    have ha := hl.after (fun _ => List.mem_append_right _ (.head _)) hz
    exact ⟨ha.1, fun _ => ha.2⟩
  | failed e =>
    rw [Step.zipping_failed hp] at hs
    cases hs
    refine ⟨.inr ⟨h.noCall.reported _ _, r.before.length, .inl ?_⟩, fun ho => absurd trivial ho⟩
    exact List.mem_append_right _ (.head _)
  | suspended d =>
    rw [Step.zipping_suspended hp] at hs
    obtain ⟨hz, rfl⟩ := Prod.mk.inj hs
    have hw : r.waiting.or (some d) ≠ none := by simp
    have hl : ReadLog n (r.visit (s', r.before.length) r.current.item (r.waiting.or (some d)))
        (log ++ [reported r.before.length (.suspended d)]) :=
      h.visit s' (by rw [delivered_of_ne_item _ _ _ nofun, hc]) fun h => absurd h hw
    have ha := hl.after (fun h => absurd h hw) hz
    exact ⟨ha.1, fun _ => ha.2⟩
  | skip =>
    rw [Step.zipping_skip hp] at hs
    cases hs
    exact ⟨trivial, fun _ => h.visit s' (by rw [delivered_of_ne_item _ _ _ nofun, hc]) id⟩

/-- A step in any state: reading, calling the function, or delivering its result. -/
private theorem cursorLog_step {z : Zipping α (σ × Nat) τ} {w : W} (h : CursorLog n z log) {o : Outcome β}
    {z' : Zipping α (σ × Nat) τ} {p : W × List (ZipNotice α)}
    (hs : Step.zipping (notingCombine combine) (notingReports pull) (unnoted pullOut) z (w, log) =
      ((o, z'), p)) : ReportLog n o p.2 ∧ (¬o.IsEnding → CursorLog n z' p.2) := by
  cases z with
  | reading r => exact cursorLog_reading combine pull pullOut h hs
  | ready found =>
    obtain ⟨hno, hall⟩ := h
    rcases hc : combine found w with ⟨a, w'⟩
    have hcall : CalledAfterAll n (log ++ [called found]) := ⟨log, found, rfl, hno, hall⟩
    have hn : notingCombine combine found (w, log) = (a, w', log ++ [called found]) := by
      simp only [notingCombine, noting, hc]
    simp only [Step.zipping, bind, StateT.bind, hn] at hs
    cases a with
    | ok t =>
      cases hs
      exact ⟨trivial, fun _ => hcall⟩
    | error e =>
      cases hs
      exact ⟨.inl hcall, fun ho => absurd trivial ho⟩
  | forward t =>
    obtain ⟨⟨o', t'⟩, w', hn⟩ := exists_unnoted pullOut t w log
    simp only [Step.zipping, bind, StateT.bind, hn] at hs
    cases hs
    refine ⟨?_, fun _ => h⟩
    cases o with
    | item | done => exact h
    | failed e => exact .inl h
    | suspended | skip => trivial

/-- The log of a stream over these states. -/
def StreamLog (n : Nat) (s : StreamOf β (Zipping α (σ × Nat) τ)) (log : List (ZipNotice α)) : Prop :=
  s.ahead = [] ∧
    match s.status with
    | .running z => CursorLog n z log
    | .done => CalledAfterAll n log
    | .failed e => CalledAfterAll n log ∨ NoCall log ∧ ErrorNoted log e

/-- One pull of a stream over these states. -/
theorem streamLog_pull {s : StreamOf β (Zipping α (σ × Nat) τ)} {p : W × List (ZipNotice α)}
    (h : StreamLog n s p.2) {q}
    (hq : StreamOf.pull (Step.zipping (notingCombine combine) (notingReports pull) (unnoted pullOut)) s p
      = q) : ReportLog n q.1.1 q.2.2 ∧ StreamLog n q.1.2 q.2.2 := by
  obtain ⟨ahead, status⟩ := s
  obtain ⟨rfl : ahead = [], h⟩ := h
  cases status with
  | done => exact hq ▸ ⟨h, rfl, h⟩
  | failed e => exact hq ▸ ⟨h, rfl, h⟩
  | running z =>
    obtain ⟨w, log⟩ := p
    rcases hs : Step.zipping (notingCombine combine) (notingReports pull) (unnoted pullOut) z (w, log)
      with ⟨⟨o, z'⟩, p'⟩
    have hl := cursorLog_step combine pull pullOut h hs
    rw [← StreamOf.run, StreamOf.pull_run hs] at hq
    subst hq
    refine ⟨hl.1, rfl, ?_⟩
    cases o with
    | done | failed => exact hl.1
    | item | suspended | skip => exact hl.2 nofun

/-- In whatever state the stream is, the function has been called after all ends, or not at all. -/
private theorem StreamLog.call {s : StreamOf β (Zipping α (σ × Nat) τ)} (h : StreamLog n s log) :
    NoCall log ∨ CalledAfterAll n log := by
  obtain ⟨ahead, status⟩ := s
  obtain ⟨-, h⟩ := h
  rcases status with z | _ | e
  · cases z with
    | reading r => exact .inl h.noCall
    | ready found => exact .inl h.1
    | forward t => exact .inr h
  · exact .inr h
  · exact h.symm.imp_left And.left

/-- Before the first step nothing has been noted. -/
private theorem CursorLog.start (ss : List σ) :
    CursorLog ss.length (.start ss.zipIdx : Zipping α (σ × Nat) τ) [] := by
  cases ss with
  | nil => exact ⟨nofun, rfl, nofun⟩
  | cons s ss =>
    have hs : (Step.Round.start (s, 0) (ss.zipIdx 1) : Step.Round α (σ × Nat)).slots =
        ((s :: ss).zipIdx).map (⟨·, none⟩) := by
      simp [Step.Round.start, Step.Round.slots, List.zipIdx_cons]
    refine ⟨nofun, by rw [hs]; simp, fun i slot hi => ?_, fun _ _ hi => absurd hi (Nat.not_lt_zero _)⟩
    rw [hs, List.getElem?_map, List.getElem?_zipIdx, Option.map_map, Option.map_eq_some_iff] at hi
    obtain ⟨s, -, rfl⟩ := hi
    exact ⟨Nat.zero_add i, rfl⟩

end

/-! ### The semantics -/

/-- A stream that has reported its end or an error reports it again. -/
theorem StreamOf.sticky {κ : Type} (step : κ → StateM W (Outcome α × κ)) : Sticky (pull step) :=
  fun _ _ _ _ h => pull_of_done h

/-- Notes beside the world do not change this. -/
private theorem Sticky.unnoted {pull : σ → StateM W (Outcome α × σ)} {ε : Type} (h : Sticky pull) :
    Sticky (unnoted (ε := ε) pull) := by
  rintro s s' ⟨w, log⟩ p hp ⟨w₁, log₁⟩
  have h₁ : (pull s w).1 = (.done, s') := congrArg Prod.fst hp
  have hs : pull s w = ((.done, s'), (pull s w).2) := Prod.ext h₁ rfl
  simp only [LazyXPath.unnoted, noting, h s s' w _ hs w₁, List.append_nil]

/-- A run of at most one item determines whether there is one. -/
private theorem Run.single_injective : Function.Injective (Run.single (α := α)) := by
  rintro (_ | x) (_ | y) h <;> cases h <;> rfl

/-- No sequence of at most one item offends. -/
theorem not_offends (xs : List (Option α)) (e : Error) :
    ¬Offends (xs.map Run.single) e := by
  rintro ⟨i, r, hr, h⟩
  rw [List.getElem?_map, Option.map_eq_some_iff] at hr
  obtain ⟨x, -, rfl⟩ := hr
  obtain ⟨hl, -⟩ | ⟨-, P, hP, -⟩ := h
  · cases x <;> simp [Run.single] at hl
  · cases hP

/-- A combination of sequences of at most one item each. -/
theorem ZipRun.of_single {F : Frame W} {ω : F.Situation} {pullOut : τ → StateM W (Outcome β × τ)}
    {combine : List (Option α) → StateM W (Except Error τ)} {xs : List (Option α)} {rs : List (Run α)}
    {R : Run β} (hxs : rs = xs.map Run.single) (h : F.Gives pullOut ω (combine xs) id R) :
    ZipRun F combine pullOut rs ω R where
  fails e he := absurd (hxs ▸ he) (not_offends xs e)
  gives ys hys := by
    obtain rfl : ys = xs := Run.single_injective.list_map (hys.symm.trans hxs)
    exact h

/-- A sequence offends by a second item or by an error of its own. -/
private theorem Offends.kind {rs : List (Run α)} {e : Error} (h : Offends rs e) :
    e.kind = .XPTY0004 ∨ ∃ r ∈ rs, ∃ P, r.tail = .fails P ∧ P e := by
  obtain ⟨i, r, hr, ⟨-, rfl⟩ | ⟨-, P, hP, he⟩⟩ := h
  · exact .inl rfl
  · exact .inr ⟨r, List.mem_of_getElem? hr, P, hP, he⟩

/-- The wrapped function is not called if an item is missing. -/
private theorem Step.whenAll_of_none {xs : List (Option α)} (h : none ∈ xs) (e : τ)
    (f : List α → StateM W (Except Error τ)) : whenAll e f xs = return .ok e := by
  have hx : xs.mapM id = none := by
    induction xs with
    | nil => cases h
    | cons x xs ih =>
      cases x with
      | none => simp
      | some x =>
        obtain _ | ⟨_, h⟩ := h
        simp [ih h]
  simp only [whenAll, hx]

/-- It is called with the items if none is. -/
private theorem Step.whenAll_some (xs : List α) (e : τ) (f : List α → StateM W (Except Error τ)) :
    whenAll e f (xs.map some) = f xs := by
  have hx : (xs.map some).mapM id = some xs := by
    induction xs with
    | nil => rfl
    | cons x xs ih => simp [ih]
  simp only [whenAll, hx]

section

variable {F : Frame W} {ω : F.Situation} {κ ι : Type} {step : κ → StateM W (Outcome α × κ)}
  {stepOut : ι → StateM W (Outcome β × ι)} {ss : List (StreamOf α κ)} {rs : List (Run α)}

/-- **The semantics of combining single items.** Let several streams have runs that come to an end or an
error, under the schedules of a frame. If each run is at most one item, then the combination runs as
what the function makes of the items in order, some of which may be missing. A function that wants all
items is given them if all are there; if one is missing, the result is empty and the function is not
called. If one of the runs has a second item or an error, the combination fails with an error of that
kind, delivers nothing and does not call the function.

Moreover, for every schedule of any changes at all, the function is called at most once, after the ends
of all streams and with what they have delivered; and the combination does not deliver an item, end or
fail before that, unless one of the streams has failed or delivered a second item. -/
theorem zip_semantics (stepOut : ι → StateM W (Outcome β × ι))
    (h : List.Forall₂ (Runs F (StreamOf.pull step) ω) ss rs) (hrs : ∀ r ∈ rs, r.tail ≠ .unknown) :
    (∀ (xs : List (Option α)) combine R, rs = xs.map Run.single →
      F.Gives (StreamOf.pull stepOut) ω (combine xs) id R →
      Runs F (StreamOf.pull (Step.zipping combine (StreamOf.pull step) (StreamOf.pull stepOut))) ω
        (.run (.start ss)) R) ∧
    (∀ (xs : List α) f R, rs = (xs.map some).map Run.single →
      F.Gives (StreamOf.pull stepOut) ω (f xs) id R →
      Runs F (StreamOf.pull (Step.zipping (Step.whenAll .empty f) (StreamOf.pull step)
        (StreamOf.pull stepOut))) ω (.run (.start ss)) R) ∧
    (∀ (xs : List (Option α)) f log, rs = xs.map Run.single → none ∈ xs →
      Runs (F.beside (Notice α (List α))) (StreamOf.pull (Step.zipping
        (Step.whenAll .empty (notingCalls f)) (unnoted (StreamOf.pull step))
        (unnoted (StreamOf.pull stepOut)))) (ω, log) (.run (.start ss)) (.complete [])) ∧
    (∀ (combine : List (Option α) → StateM W (Except Error (StreamOf β ι))) log,
      (¬∃ xs : List (Option α), rs = xs.map Run.single) →
      Runs (F.beside (ZipNotice α)) (StreamOf.pull (Step.zipping (notingCombine combine)
        (unnoted (StreamOf.pull step)) (unnoted (StreamOf.pull stepOut)))) (ω, log)
        (.run (.start ss)) ⟨[], .fails (Offends rs)⟩) ∧
    (∀ e, Offends rs e → e.kind = .XPTY0004 ∨ ∃ r ∈ rs, ∃ P, r.tail = .fails P ∧ P e) ∧
    ∀ combine moves m w,
      let pull := StreamOf.pull (Step.zipping (notingCombine combine)
        (notingReports (StreamOf.pull step)) (unnoted (StreamOf.pull stepOut)))
      let now := (play pull (besideLog moves) (.run (.start ss.zipIdx)) (w, [])).2
      let next := pull now.1 (Prod.map m id now.2)
      (NoCall now.2.2 ∨ CalledAfterAll ss.length now.2.2) ∧ ReportLog ss.length next.1.1 next.2.2 := by
  have hk := StreamOf.sticky step
  have hbeside {ε : Type} (log : List ε) :
      List.Forall₂ (Runs (F.beside ε) (unnoted (StreamOf.pull step)) (ω, log)) ss rs :=
    h.imp fun _ _ h => h.beside log
  refine ⟨fun xs combine R hxs hg => ?_, fun xs f R hxs hg => ?_, fun xs f log hxs hnone => ?_,
    fun combine log hno => ?_, fun e he => he.kind, fun combine moves m w => ?_⟩
  · exact StreamOf.runs_run (zipping_runs hk hrs (.of_single hxs hg) h)
  · refine StreamOf.runs_run (zipping_runs hk hrs (.of_single hxs ?_) h)
    rwa [Step.whenAll_some]
  · refine StreamOf.runs_run (zipping_runs hk.unnoted hrs (.of_single hxs ?_) (hbeside log))
    rw [Step.whenAll_of_none hnone]
    refine fun p hp => ⟨.ok .empty, p, rfl, (F.beside _).guarantee_idle hp, ?_⟩
    exact (StreamOf.runs_done [] p.1).beside p.2
  · refine StreamOf.runs_run (zipping_runs hk.unnoted hrs ⟨fun e he => .failed _ e he, ?_⟩ (hbeside log))
    exact fun xs hxs => absurd ⟨xs, hxs⟩ hno
  · intro pull now next
    have hl : StreamLog ss.length now.1 now.2.2 := by
      refine play_invariant (I := fun s (p : W × List (ZipNotice α)) => StreamLog ss.length s p.2) ?_
        (fun s p hp => (streamLog_pull combine _ _ hp rfl).2) ⟨rfl, .start ss⟩
      intro m hm s p hp
      obtain ⟨m, -, rfl⟩ := List.mem_map.mp hm
      exact hp
    have hm : StreamLog ss.length now.1 (Prod.map m id now.2).2 := hl
    exact ⟨hl.call, (streamLog_pull combine _ _ hm rfl).1⟩

/-- Two sequences that wait for something, the second of which is empty. -/
theorem zip_semantics_awaiting :
    Runs .latch (StreamOf.pull (Step.zipping
        (fun found => return .ok ⟨found.map (·.getD 0), .done⟩) (StreamOf.pull awaiting)
        (StreamOf.pull (awaiting (α := Nat))))) false
      (.run (.start [.run [1], .run []])) (.complete [1, 0]) := by
  have h : List.Forall₂ (Runs .latch (StreamOf.pull awaiting) false) [.run [1], .run []]
      [.single (some 1), .single none] :=
    .cons (StreamOf.runs_run (awaiting_runs false [1]))
      (.cons (StreamOf.runs_run (awaiting_runs false [])) .nil)
  refine (zip_semantics awaiting h ?_).1 [some 1, none] _ _ rfl fun w hw => ?_
  · rintro r (_ | ⟨_, _ | ⟨_, ⟨⟩⟩⟩) <;> exact nofun
  · exact ⟨.ok ⟨[1, 0], .done⟩, w, rfl, Frame.latch.guarantee_idle hw, StreamOf.runs_done [1, 0] w⟩

end

end LazyXPath
