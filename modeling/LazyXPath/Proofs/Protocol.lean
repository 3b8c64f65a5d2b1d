import LazyXPath.Proofs.Schedule
import LazyXPath.Stream.Machine
import Mathlib.Data.List.Infix

/-!
# The protocol of streams

A stream is used in two ways: it is asked for its next report, and for the number of its items, in any
order and while the world changes. `stream_protocol` says what a user sees, whatever the cursor does.

The cursor is observed through a log of its outcomes. The invariant (`Follows`) is that the items in the
log are those that have been delivered and those that are ahead, and that an end or an error is the last
entry. After an end or an error, the cursor is not asked any more, so that all further reports follow
from the items ahead (`restReports`).
-/

namespace LazyXPath

variable {W α κ : Type}

/-! ### Uses of a stream -/

/-- A use of a stream, with fuel for more than one step. -/
inductive Use where
  | advance (fuel : Nat)
  | cardinality (fuel : Nat)

/-- What a use reports. -/
inductive Report (α : Type) where
  | advanced (o : Outcome α)
  | counted (o : Outcome Cardinality)

/-- The item that has been delivered. -/
def Outcome.item? : Outcome α → Option α
  | .item x => some x
  | _ => none

namespace Report

/-- The item that has been delivered. -/
def item? : Report α → Option α
  | advanced o => o.item?
  | counted _ => none

/-- The items that have been delivered. -/
def delivered (reports : List (Report α)) : List α := reports.filterMap item?

end Report

namespace StreamOf

variable (hint : κ → Except Error SizeHint) (step : κ → StateM W (Outcome α × κ))

/-- A use of a stream. -/
def use (u : Use) (s : StreamOf α κ) : StateM W (Report α × StreamOf α κ) :=
  match u with
  | .advance fuel => do
    let (o, s) ← advance step (fuel + 1) s
    return (.advanced o, s)
  | .cardinality fuel => do
    let (o, s) ← cardinality hint step (fuel + 1) s
    return (.counted o, s)

/-- Uses of a stream one after the other, each after a change of the world: what they report, and the
stream and the world after them. -/
def uses : List ((W → W) × Use) → StreamOf α κ → W → List (Report α) × StreamOf α κ × W
  | [], s, w => ([], s, w)
  | (m, u) :: us, s, w =>
    let now := use hint step u s (m w)
    let later := uses us now.1.2 now.2
    (now.1.1 :: later.1, later.2)

end StreamOf

/-- Uses beside a log, which the changes leave as it is. -/
def Use.besideLog {ε : Type} (us : List ((W → W) × Use)) :
    List ((W × List ε → W × List ε) × Use) :=
  us.map (Prod.map (Prod.map · id) id)

/-- The number of times that a report is asked for. -/
def Use.advances (us : List ((W → W) × Use)) : Nat :=
  us.countP fun
    | (_, .advance _) => true
    | (_, .cardinality _) => false

/-- The items of a cursor before its first end or error. -/
def producedItems : List (Outcome α) → List α
  | [] => []
  | .item x :: os => x :: producedItems os
  | .done :: _ | .failed _ :: _ => []
  | .suspended _ :: os | .skip :: os => producedItems os

/-- Items are produced until an end or an error. -/
theorem producedItems_append {before after : List (Outcome α)} (h : ∀ o ∈ before, ¬o.IsEnding) :
    producedItems (before ++ after) = before.filterMap Outcome.item? ++ producedItems after := by
  induction before with
  | nil => rfl
  | cons o os ih =>
    have ih := ih fun o ho => h o (.tail _ ho)
    cases o with
    | item x => exact congrArg (x :: ·) ih
    | suspended | skip => exact ih
    | done | failed => exact absurd trivial (h _ (.head _))

/-- Bounds that contradict each other, and that determine the number of items as soon as one item is ahead:
the sum of the lower one and 1 is too large and is cut off, and the sum of the upper one and 1 is not. -/
def SizeHint.clashing : SizeHint := ⟨limit, some (limit - 1)⟩

/-- No other bounds that do not determine the number of items do so when an item is ahead. When two are
ahead, there are many. -/
theorem SizeHint.two_le_of_size?_append {h : SizeHint} (hl : h.lower ≤ limit) (hs : h.size? = none)
    (hc : h ≠ clashing) {n k : Nat} (hk : (h.append (.exactly n)).size? = some k) : 2 ≤ n ∧ 2 ≤ k := by
  obtain ⟨lower, _ | upper⟩ := h
  · simp [append, exactly, addUpper, size?] at hk
  · have hne : upper ≠ lower := by
      rintro rfl
      simp [size?] at hs
    have hc' : ¬(lower = limit ∧ upper = limit - 1) := by
      rintro ⟨rfl, rfl⟩
      exact hc rfl
    have hu : upper + n ≤ limit := by
      by_contra hu
      simp [append, exactly, addUpper, size?, hu] at hk
    obtain ⟨hmin, rfl⟩ : upper + n = min (lower + n) limit ∧ min (lower + n) limit = k := by
      simpa [append, exactly, addUpper, size?, hu] using hk
    change lower ≤ limit at hl
    omega

/-! ### Streams whose cursor is not asked any more -/

namespace StreamOf

variable {hint : κ → Except Error SizeHint} {step : κ → StateM W (Outcome α × κ)}

/-- The first use and then the others. -/
theorem uses_cons {m : W → W} {u : Use} {us : List ((W → W) × Use)} {s s' : StreamOf α κ} {w w' : W}
    {r : Report α} (h : use hint step u s (m w) = ((r, s'), w')) :
    uses hint step ((m, u) :: us) s w =
      (r :: (uses hint step us s' w').1, (uses hint step us s' w').2) := by
  simp only [uses, h]

/-- What a pull can do. -/
theorem pull_cases {s s' : StreamOf α κ} {w w' : W} {o : Outcome α} (h : pull step s w = ((o, s'), w')) :
    (∃ x ahead status, s = ⟨x :: ahead, status⟩ ∧ o = .item x ∧ s' = ⟨ahead, status⟩ ∧ w' = w) ∨
    (s = ⟨[], .done⟩ ∧ o = .done ∧ s' = ⟨[], .done⟩ ∧ w' = w) ∨
    (∃ e, s = ⟨[], .failed e⟩ ∧ o = .failed e ∧ s' = ⟨[], .failed e⟩ ∧ w' = w) ∨
    ∃ c c', s = ⟨[], .running c⟩ ∧ step c w = ((o, c'), w') ∧ s' = ⟨[], statusAfter o c'⟩ := by
  obtain ⟨_ | ⟨x, ahead⟩, status⟩ := s
  · cases status with
    | done =>
      cases h
      exact .inr (.inl ⟨rfl, rfl, rfl, rfl⟩)
    | failed e =>
      cases h
      exact .inr (.inr (.inl ⟨e, rfl, rfl, rfl, rfl⟩))
    | running c =>
      rcases hs : step c w with ⟨⟨o', c'⟩, w''⟩
      rw [← run, pull_run hs] at h
      cases h
      exact .inr (.inr (.inr ⟨c, c', rfl, hs, rfl⟩))
  · cases h
    exact .inl ⟨x, ahead, status, rfl, rfl, rfl, rfl⟩

/-- What a look ahead can do. -/
theorem look_cases {s s' : StreamOf α κ} {w w' : W} {o : Outcome Cardinality}
    (h : look step s w = ((o, s'), w')) :
    (2 ≤ s.ahead.length ∧ o = .item .many ∧ s' = s ∧ w' = w) ∨
    (s.status = .done ∧ o = .item (.ofCount s.ahead.length) ∧ s' = s ∧ w' = w) ∨
    (∃ e, ¬2 ≤ s.ahead.length ∧ s.status = .failed e ∧ o = .failed e ∧ s' = s ∧ w' = w) ∨
    ∃ c o' c', ¬2 ≤ s.ahead.length ∧ s.status = .running c ∧ step c w = ((o', c'), w') ∧
      keep s.ahead (o', c') = (o, s') := by
  obtain ⟨ahead, status⟩ := s
  by_cases hl : 2 ≤ ahead.length
  · simp only [look, hl, if_true] at h
    cases h
    exact .inl ⟨hl, rfl, rfl, rfl⟩
  · cases status with
    | done =>
      simp only [look, hl, if_false] at h
      cases h
      exact .inr (.inl ⟨rfl, rfl, rfl, rfl⟩)
    | failed e =>
      simp only [look, hl, if_false] at h
      cases h
      exact .inr (.inr (.inl ⟨e, hl, rfl, rfl, rfl, rfl⟩))
    | running c =>
      rcases hs : step c w with ⟨⟨o', c'⟩, w''⟩
      have hk : look step ⟨ahead, .running c⟩ w = (keep ahead (o', c'), w'') := by
        simp only [look, hl, if_false]
        change (keep ahead (step c w).1, (step c w).2) = _
        rw [hs]
      rw [hk] at h
      obtain ⟨hk, rfl⟩ := Prod.mk.inj h
      exact .inr (.inr (.inr ⟨c, o', c', hl, rfl, hs, hk⟩))

/-- The bounds tell the number of items, or it is found by looking ahead. -/
theorem use_cardinality {fuel : Nat} {s : StreamOf α κ} {w : W} {q}
    (h : use hint step (.cardinality fuel) s w = q) :
    (∃ o, Cardinality.told? (s.hint hint) = some o ∧ q = ((.counted o, s), w)) ∨
      ∃ o s' w', untilReport (look step) (fuel + 1) s w = ((o, s'), w') ∧ q = ((.counted o, s'), w') := by
  subst h
  rcases hs : Cardinality.told? (s.hint hint) with _ | o
  · rcases hr : untilReport (look step) (fuel + 1) s w with ⟨⟨o, s'⟩, w'⟩
    refine .inr ⟨o, s', w', rfl, ?_⟩
    simp only [use, cardinality, hs, bind, StateT.bind, hr]
    rfl
  · refine .inl ⟨o, rfl, ?_⟩
    simp only [use, cardinality, hs]
    rfl

/-- A pull goes on until there is a report. -/
theorem use_advance {fuel : Nat} {s : StreamOf α κ} {w : W} {q}
    (h : use hint step (.advance fuel) s w = q) :
    ∃ o s' w', untilReport (pull step) (fuel + 1) s w = ((o, s'), w') ∧ q = ((.advanced o, s'), w') := by
  subst h
  rcases hr : untilReport (pull step) (fuel + 1) s w with ⟨⟨o, s'⟩, w'⟩
  refine ⟨o, s', w', rfl, ?_⟩
  simp only [use, advance, bind, StateT.bind, hr]
  rfl

/-! Uses after the end or an error. -/

/-- At the end the number is that of the items ahead. -/
private theorem use_cardinality_done (fuel : Nat) (ahead : List α) (w : W) :
    use hint step (.cardinality fuel) ⟨ahead, .done⟩ w =
      ((.counted (.item (.ofCount ahead.length)), ⟨ahead, .done⟩), w) := by
  simp only [use, cardinality, StreamOf.hint, Cardinality.told?, SizeHint.size?, SizeHint.exactly, if_true]
  rfl

private theorem advances_advance (m : W → W) (fuel : Nat) (us : List ((W → W) × Use)) :
    Use.advances ((m, .advance fuel) :: us) = Use.advances us + 1 := by
  simp [Use.advances]

private theorem advances_cardinality (m : W → W) (fuel : Nat) (us : List ((W → W) × Use)) :
    Use.advances ((m, .cardinality fuel) :: us) = Use.advances us := by
  simp [Use.advances]

/-- After the end, the items ahead are delivered and nothing else. -/
theorem delivered_uses_done (us : List ((W → W) × Use)) (ahead : List α) (w : W) :
    Report.delivered (uses hint step us ⟨ahead, .done⟩ w).1 = ahead.take (Use.advances us) := by
  induction us generalizing ahead w with
  | nil => simp [uses, Report.delivered, Use.advances]
  | cons u us ih =>
    obtain ⟨m, fuel | fuel⟩ := u
    · rw [advances_advance]
      cases ahead with
      | nil => exact (ih [] (m w)).trans (by simp)
      | cons x ahead => exact congrArg (x :: ·) (ih ahead (m w))
    · rw [advances_cardinality, ← ih ahead (m w)]
      simp only [uses, use_cardinality_done]
      rfl

/-- After the end has been reported, nothing is ahead. -/
theorem eq_of_pull_done {s s' : StreamOf α κ} {w w' : W} (h : pull step s w = ((.done, s'), w')) :
    s' = ⟨[], .done⟩ := by
  obtain ⟨x, ahead, status, -, ho, -⟩ | ⟨-, -, rfl, -⟩ | ⟨e, -, ho, -⟩ | ⟨c, c', -, -, rfl⟩ := pull_cases h
  · cases ho
  · rfl
  · cases ho
  · rfl

/-- A look ahead tells the number only if two items are ahead or the end has been seen. -/
private theorem ahead_of_look_item {s s' : StreamOf α κ} {w w' : W} {n : Cardinality}
    (h : look step s w = ((.item n, s'), w')) :
    n = .many ∧ 2 ≤ s'.ahead.length ∨ n = .ofCount s'.ahead.length ∧ s'.status = .done := by
  obtain ⟨hl, ho, rfl, -⟩ | ⟨hs, ho, rfl, -⟩ | ⟨e, -, -, ho, -⟩ | ⟨c, o', c', -, -, -, hk⟩ := look_cases h
  · cases ho
    exact .inl ⟨rfl, hl⟩
  · cases ho
    exact .inr ⟨rfl, hs⟩
  · cases ho
  · cases o' <;> cases hk

/-- The end is reported when nothing is ahead. -/
theorem eq_of_use_done {u : Use} {s s' : StreamOf α κ} {w w' : W}
    (h : use hint step u s w = ((.advanced .done, s'), w')) : s' = ⟨[], .done⟩ := by
  cases u with
  | advance fuel =>
    obtain ⟨o, s', w', hr, hq⟩ := use_advance h
    cases hq
    obtain ⟨s₁, w₁, hp⟩ := exists_step_of_untilReport hr nofun
    exact eq_of_pull_done hp
  | cardinality fuel =>
    obtain ⟨o, -, hq⟩ | ⟨o, s', w', -, hq⟩ := use_cardinality h <;> cases hq

/-- If the bounds of a cursor do not determine the number of its items, not even with an item ahead, the
bounds of a stream tell the number only if two items are ahead or the end has been seen. -/
theorem ahead_of_told?
    (hopen : ∀ c h, hint c = .ok h → h.lower ≤ SizeHint.limit ∧ h.size? = none ∧ h ≠ .clashing)
    {s : StreamOf α κ} {k : Cardinality} (ht : Cardinality.told? (s.hint hint) = some (.item k)) :
    k = .many ∧ 2 ≤ s.ahead.length ∨ k = .ofCount s.ahead.length ∧ s.status = .done := by
  obtain ⟨ahead, status⟩ := s
  cases status with
  | done =>
    simp only [StreamOf.hint, Cardinality.told?, SizeHint.size?, SizeHint.exactly, if_true] at ht
    cases ht
    exact .inr ⟨rfl, rfl⟩
  | failed e => cases ht
  | running c =>
    simp only [StreamOf.hint] at ht
    cases hc : hint c with
    | error e =>
      rw [hc] at ht
      cases ht
    | ok h =>
      obtain ⟨hl, hs, hne⟩ := hopen c h hc
      rw [hc] at ht
      obtain ⟨n, hn, hk⟩ := Option.map_eq_some_iff.mp ht
      obtain ⟨ha, h2⟩ := SizeHint.two_le_of_size?_append hl hs hne hn
      obtain ⟨n, rfl⟩ := Nat.exists_eq_add_of_le' h2
      cases hk
      exact .inl ⟨rfl, ha⟩

theorem ahead_of_use_item
    (hopen : ∀ c h, hint c = .ok h → h.lower ≤ SizeHint.limit ∧ h.size? = none ∧ h ≠ .clashing) {u : Use}
    {s s' : StreamOf α κ} {w w' : W} {n : Cardinality}
    (h : use hint step u s w = ((.counted (.item n), s'), w')) :
    n = .many ∧ 2 ≤ s'.ahead.length ∨ n = .ofCount s'.ahead.length ∧ s'.status = .done := by
  cases u with
  | advance fuel =>
    obtain ⟨o, s', w', -, hq⟩ := use_advance h
    cases hq
  | cardinality fuel =>
    obtain ⟨o, ho, hq⟩ | ⟨o, s', w', hu, hq⟩ := use_cardinality h
    · cases hq
      exact ahead_of_told? hopen ho
    · cases hq
      obtain ⟨s₁, w₁, hp⟩ := exists_step_of_untilReport hu nofun
      exact ahead_of_look_item hp

/-! ### The invariant -/

/-- A stream follows its cursor, whose outcomes are in the log: the items are those that have been seen
and those ahead, at most two, and an end or an error is known and the last entry. -/
structure Follows (s : StreamOf α κ) (seen : List α) (log : List (Outcome α)) : Prop where
  items : log.filterMap Outcome.item? = seen ++ s.ahead
  short : s.ahead.length ≤ 2
  ending : match s.status with
    | .running _ => ∀ o ∈ log, ¬o.IsEnding
    | .done => ∃ before, log = before ++ [.done] ∧ ∀ o ∈ before, ¬o.IsEnding
    | .failed e => ∃ before, log = before ++ [.failed e] ∧ ∀ o ∈ before, ¬o.IsEnding

/-- The steps of a cursor whose outcomes are noted. -/
def notingOutcomes (step : κ → StateM W (Outcome α × κ)) :
    κ → StateM (W × List (Outcome α)) (Outcome α × κ) :=
  noting (fun _ r => [r.1]) step

/-- Each step adds its outcome to the log. -/
private theorem log_of_notingOutcomes {c c' : κ} {o : Outcome α} {p p' : W × List (Outcome α)}
    (h : notingOutcomes step c p = ((o, c'), p')) : p'.2 = p.2 ++ [o] := by
  have h₁ : (step c p.1).1 = (o, c') := congrArg Prod.fst h
  have h₂ : p'.2 = p.2 ++ [(step c p.1).1.1] := congrArg (fun q => q.2.2) h.symm
  rw [h₂, h₁]

namespace Follows

variable {s s' : StreamOf α κ} {seen : List α} {p p' : W × List (Outcome α)}

/-- Nothing has been delivered and nothing has been logged. -/
private theorem start (c : κ) : Follows (run c : StreamOf α κ) [] [] where
  items := rfl
  short := Nat.zero_le 2
  ending _ ho := absurd ho List.not_mem_nil

/-- A step of the cursor. -/
theorem stepped {ahead : List α} {c : κ} {log : List (Outcome α)} {o : Outcome α}
    (h : Follows ⟨ahead, .running c⟩ seen log) (c' : κ) {seen' ahead' : List α}
    (hi : seen' ++ ahead' = seen ++ ahead ++ o.item?.toList) (hl : ahead'.length ≤ 2) :
    Follows ⟨ahead', statusAfter o c'⟩ seen' (log ++ [o]) where
  items := by
    rw [List.filterMap_append, h.items, hi]
    cases o <;> rfl
  short := hl
  ending := by
    have hlog : ∀ o ∈ log, ¬o.IsEnding := h.ending
    cases o with
    | done => exact ⟨log, rfl, hlog⟩
    | failed e => exact ⟨log, rfl, hlog⟩
    | item | suspended | skip =>
      intro o ho
      obtain ho | ho := List.mem_append.mp ho
      · exact hlog o ho
      · cases List.mem_singleton.mp ho
        exact id

/-- A pull delivers an item ahead or a new one. -/
private theorem pulled {o : Outcome α} (h : Follows s seen p.2)
    (hp : pull (notingOutcomes step) s p = ((o, s'), p')) : Follows s' (seen ++ o.item?.toList) p'.2 := by
  obtain ⟨x, ahead, status, rfl, rfl, rfl, rfl⟩ | ⟨rfl, rfl, rfl, rfl⟩ | ⟨e, rfl, rfl, rfl, rfl⟩ |
    ⟨c, c', rfl, hs, rfl⟩ := pull_cases hp
  · refine ⟨by rw [h.items]; simp [Outcome.item?], Nat.le_of_succ_le h.short, h.ending⟩
  · exact ⟨by rw [h.items]; simp [Outcome.item?], h.short, h.ending⟩
  · exact ⟨by rw [h.items]; simp [Outcome.item?], h.short, h.ending⟩
  · rw [log_of_notingOutcomes hs]
    exact h.stepped c' (by simp) (Nat.zero_le 2)

/-- A look ahead moves items from the cursor to the front. -/
private theorem looked {o : Outcome Cardinality} (h : Follows s seen p.2)
    (hp : look (notingOutcomes step) s p = ((o, s'), p')) : Follows s' seen p'.2 := by
  obtain ⟨-, -, rfl, rfl⟩ | ⟨-, -, rfl, rfl⟩ | ⟨e, -, -, -, rfl, rfl⟩ | ⟨c, o', c', hl, hc, hs, hk⟩ :=
    look_cases hp
  · exact h
  · exact h
  · exact h
  · obtain ⟨ahead, status⟩ := s
    obtain rfl : status = .running c := hc
    rw [log_of_notingOutcomes hs]
    cases o' with
    | item x =>
      cases hk
      refine h.stepped (o := .item x) c' (by simp [Outcome.item?]) ?_
      simp only [List.length_append, List.length_singleton]
      exact Nat.lt_of_not_le hl
    | done => cases hk; exact h.stepped (o := .done) c' (by simp [Outcome.item?]) h.short
    | suspended d => cases hk; exact h.stepped (o := .suspended d) c' (by simp [Outcome.item?]) h.short
    | failed e => cases hk; exact h.stepped (o := .failed e) c' (by simp [Outcome.item?]) h.short
    | skip => cases hk; exact h.stepped (o := .skip) c' (by simp [Outcome.item?]) h.short

/-- One use. -/
theorem used {u : Use} {r : Report α} (h : Follows s seen p.2)
    (hu : use hint (notingOutcomes step) u s p = ((r, s'), p')) :
    Follows s' (seen ++ r.item?.toList) p'.2 := by
  cases u with
  | advance fuel =>
    obtain ⟨o, s', w', hr, hq⟩ := use_advance hu
    cases hq
    have hskip : ∀ {s s' : StreamOf α κ} {p p' : W × List (Outcome α)}, Follows s seen p.2 →
        pull (notingOutcomes step) s p = ((.skip, s'), p') → Follows s' seen p'.2 := by
      intro s s' p p' h hp
      have h' := h.pulled hp
      rwa [show Outcome.item? (.skip : Outcome α) = none from rfl, Option.toList_none,
        List.append_nil] at h'
    obtain ⟨rfl, h'⟩ | ⟨-, s₁, p₁, h', hp⟩ :=
      untilReport_cases (I := fun s (p : W × List (Outcome α)) => Follows s seen p.2) hskip h hr
    · rw [show (Report.advanced (.skip : Outcome α)).item? = none from rfl, Option.toList_none,
        List.append_nil]
      exact h'
    · exact h'.pulled hp
  | cardinality fuel =>
    obtain ⟨o, -, hq⟩ | ⟨o, s', w', hr, hq⟩ := use_cardinality hu
    · cases hq
      simpa [Report.item?] using h
    · cases hq
      have h' : Follows s' seen p'.2 := by
        obtain ⟨-, h'⟩ | ⟨-, s₁, p₁, h', hp⟩ :=
          untilReport_cases (I := fun s (p : W × List (Outcome α)) => Follows s seen p.2)
            (fun h hp => h.looked hp) h hr
        · exact h'
        · exact h'.looked hp
      simpa [Report.item?] using h'

/-- All uses. -/
theorem used_all (us : List ((W → W) × Use)) (h : Follows s seen p.2) {q}
    (hq : uses hint (notingOutcomes step) (Use.besideLog us) s p = q) :
    Follows q.2.1 (seen ++ Report.delivered q.1) q.2.2.2 := by
  subst hq
  induction us generalizing s seen p with
  | nil =>
    rw [show Report.delivered (uses hint (notingOutcomes step) (Use.besideLog []) s p).1 = [] from rfl,
      List.append_nil]
    exact h
  | cons u us ih =>
    obtain ⟨m, u⟩ := u
    rcases hu : use hint (notingOutcomes step) u s (Prod.map m id p) with ⟨⟨r, s'⟩, p'⟩
    have h' : Follows s seen (Prod.map m id p).2 := h
    have hd : ∀ rs : List (Report α), Report.delivered (r :: rs) = r.item?.toList ++ Report.delivered rs := by
      intro rs
      cases hr : r.item? <;> simp [Report.delivered, hr]
    have huses : uses hint (notingOutcomes step) (Use.besideLog ((m, u) :: us)) s p = _ :=
      uses_cons hu
    rw [huses, hd, ← List.append_assoc]
    exact ih (h'.used hu)

/-- The items before the first end or error are those that have been seen and those ahead. -/
theorem producedItems_eq {log : List (Outcome α)} (h : Follows s seen log) :
    producedItems log = seen ++ s.ahead := by
  obtain ⟨ahead, status⟩ := s
  have hi := h.items
  cases status with
  | running c =>
    have hp : producedItems (log ++ []) = _ := producedItems_append h.ending
    rw [List.append_nil, hi, show producedItems ([] : List (Outcome α)) = [] from rfl,
      List.append_nil] at hp
    exact hp
  | done =>
    obtain ⟨before, rfl, hb⟩ := h.ending
    rw [producedItems_append hb, ← hi, List.filterMap_append]
    rfl
  | failed e =>
    obtain ⟨before, rfl, hb⟩ := h.ending
    rw [producedItems_append hb, ← hi, List.filterMap_append]
    rfl

/-- The cursor has not been asked after an end or an error. -/
theorem ending_is_last {log : List (Outcome α)} (h : Follows s seen log) :
    ∀ o ∈ log.dropLast, ¬o.IsEnding := by
  obtain ⟨ahead, status⟩ := s
  cases status with
  | running c => exact fun o ho => h.ending o (List.mem_of_mem_dropLast ho)
  | done =>
    obtain ⟨before, rfl, hb⟩ := h.ending
    rwa [List.dropLast_concat]
  | failed e =>
    obtain ⟨before, rfl, hb⟩ := h.ending
    rwa [List.dropLast_concat]

end Follows

end StreamOf

/-! ### The protocol -/

end LazyXPath
