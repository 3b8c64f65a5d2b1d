import LazyXPath.Proofs.Tally
import LazyXPath.Stream.Machine

/-!
# Bounds of streams of items

The bounds of a stream are computed from those of the cursors in it (`Stream.hint`). There are two
conditions.

* The lengths that scripts claim are true (`Stream.Truthful`). This is a condition on the start of a
  stream, and is preserved by its steps.
* A conversion adds the items that wait in it to the upper bound of its input, and breaks down if the sum
  is not a 64-bit number. It has to fit (`Stream.SumsFit`). This is a condition on the state in which the
  bounds are asked for, and they can be computed exactly if it holds (`Stream.hint_givenIf`).

All other sums are cut off or dropped when they are too large, and stay right. The argument goes through
the bounds without the limit on the sums of conversions (`Cursor.bounds`), which are right whenever the
claims of scripts are true (`Cursor.step_admits`).
-/

namespace LazyXPath

/-! ### The cursors that bounds are computed from -/

mutual

/-- A property of a cursor and of all those from whose bounds its bounds are computed. -/
def Cursor.Every (P : Cursor → Prop) : Cursor → Prop
  | .map f input => P (.map f input) ∧ streamEvery P input
  | .filter f input => P (.filter f input) ∧ streamEvery P input
  | .take n input => P (.take n input) ∧ streamEvery P input
  | .concat first rest => P (.concat first rest) ∧ streamEvery P first ∧ streamsEvery P rest
  | .convert c input => P (.convert c input) ∧ (c.type.item = .item → streamEvery P input)
  | c => P c

/-- The same of the cursor of a stream. -/
def streamEvery (P : Cursor → Prop) : StreamOf Item Cursor → Prop
  | ⟨_, status⟩ => statusEvery P status

/-- The same of the cursor that is running. -/
def statusEvery (P : Cursor → Prop) : Status Cursor → Prop
  | .running c => c.Every P
  | .done | .failed _ => True

/-- The same of several streams. -/
def streamsEvery (P : Cursor → Prop) : List (StreamOf Item Cursor) → Prop
  | [] => True
  | s :: rest => streamEvery P s ∧ streamsEvery P rest

end

/-- The recursion over streams, as a statement about members. -/
theorem streamsEvery_iff {P : Cursor → Prop} {ss : List Stream} :
    streamsEvery P ss ↔ ∀ s ∈ ss, streamEvery P s := by
  induction ss with
  | nil => exact ⟨fun _ _ h => absurd h List.not_mem_nil, fun _ => trivial⟩
  | cons s ss ih => exact (and_congr_right' ih).trans List.forall_mem_cons.symm

/-- A script that delivers `n` items before its end, or at most `n` before an error. -/
def Claims : List (ScriptStep Item) → Nat → Prop
  | [], n | .done :: _, n => n = 0
  | .item _ :: rest, n => ∃ m, n = m + 1 ∧ Claims rest m
  | .await _ :: rest, n => Claims rest n
  | .fail _ :: _, _ => True

/-- If a script claims a number of items, the claim is true. -/
def Cursor.IsTruthful : Cursor → Prop
  | .script _ steps (some n) => Claims steps n
  | _ => True

/-- The sum of the items that wait in a conversion and the upper bound of its input fits. Where no item
waits, there is nothing to add. -/
def Cursor.SumFits : Cursor → Prop
  | .convert c input => c.type.item = .item → c.pending ≠ [] →
    ∀ h u, streamHint input = .ok h → h.upper = some u → u + c.pending.length ≤ SizeHint.limit
  | _ => True

namespace Stream

/-- The claims of all scripts are true. -/
def Truthful (s : Stream) : Prop := streamEvery Cursor.IsTruthful s

/-- The sums of all conversions fit. -/
def SumsFit (s : Stream) : Prop := streamEvery Cursor.SumFits s

end Stream

/-! ### Bounds without a limit on the sums of conversions -/

mutual

/-- The bounds of a cursor. -/
def Cursor.bounds : Cursor → SizeHint
  | .items xs => .exactly xs.length
  | .candidates nodes _ _ => .upTo (some nodes.length)
  | .script _ _ (some n) => .exactly n
  | .range next last => rangeHint next last
  | .map _ input => streamBounds input
  | .filter _ input => .upTo (streamBounds input).upper
  | .concat first rest => (streamBounds first).append (streamsBounds rest)
  | .take n input => (streamBounds input).take n
  | .convert c input =>
    if c.type.item = .item then .upTo ((streamBounds input).upper.map (· + c.pending.length))
    else .unknown
  | _ => .unknown

/-- The bounds of a stream. -/
def streamBounds : StreamOf Item Cursor → SizeHint
  | ⟨ahead, status⟩ => statusBounds ahead.length status

/-- The bounds of a stream with so many items ahead. -/
def statusBounds (ahead : Nat) : Status Cursor → SizeHint
  | .running c => c.bounds.append (.exactly ahead)
  | .done => .exactly ahead
  | .failed _ => ⟨ahead, none⟩

/-- The bounds of several streams one after the other. -/
def streamsBounds : List (StreamOf Item Cursor) → SizeHint
  | [] => .exactly 0
  | s :: rest => (streamBounds s).append (streamsBounds rest)

end

/-! ### When bounds can be computed -/

section

variable {α β γ : Type} {p q : Prop} {x : Except Error α} {a : α}

/-- A result that is there exactly under a condition; otherwise the process breaks down. -/
def GivenIf (p : Prop) (a : α) (x : Except Error α) : Prop :=
  p ∧ x = .ok a ∨ ¬p ∧ x = .error .sumOverflow

namespace GivenIf

/-- Under the condition there is a result. -/
theorem ok (h : GivenIf p a x) (hp : p) : x = .ok a := by
  obtain ⟨-, hx⟩ | ⟨hn, -⟩ := h
  · exact hx
  · exact absurd hp hn

/-- Without it the process breaks down, and there is no other failure. -/
private theorem error (h : GivenIf p a x) (hp : ¬p) : x = .error .sumOverflow := by
  obtain ⟨hp', -⟩ | ⟨-, hx⟩ := h
  · exact absurd hp' hp
  · exact hx

/-- If there is a result at all, the condition holds, and it is the right one. -/
theorem eq_of_ok {b : α} (h : GivenIf p a x) (hb : x = .ok b) : p ∧ a = b := by
  obtain ⟨hp, hx⟩ | ⟨-, hx⟩ := h
  · exact ⟨hp, Except.ok.inj (hx.symm.trans hb)⟩
  · cases hx.symm.trans hb

private theorem of_ok (a : α) (hp : p) : GivenIf p a (.ok a) := .inl ⟨hp, rfl⟩

private theorem congr (h : GivenIf p a x) (hpq : p ↔ q) : GivenIf q a x :=
  h.imp (.imp_left hpq.mp) (.imp_left (mt hpq.mpr))

private theorem map (h : GivenIf p a x) (f : α → β) : GivenIf p (f a) (x.map f) := by
  obtain ⟨hp, rfl⟩ | ⟨hp, rfl⟩ := h
  · exact .inl ⟨hp, rfl⟩
  · exact .inr ⟨hp, rfl⟩

/-- Two computations in a row: both conditions have to hold, and the second one matters only after the first.
-/
private theorem bind {b : β} {f : α → Except Error β} (h : GivenIf p a x) (hf : p → GivenIf q b (f a)) :
    GivenIf (p ∧ q) b (x >>= f) := by
  obtain ⟨hp, rfl⟩ | ⟨hp, rfl⟩ := h
  · exact (hf hp).congr (and_iff_right hp).symm
  · exact .inr ⟨fun h => hp h.1, rfl⟩

/-- One result after another. -/
theorem map₂ {b : β} {y : Except Error β} (hx : GivenIf p a x) (hy : GivenIf q b y) (f : α → β → γ) :
    GivenIf (p ∧ q) (f a b) (do return f (← x) (← y)) :=
  hx.bind fun _ => hy.map (f a)

end GivenIf

end

/-- A checked sum is given if it is a 64-bit number, or if nothing is added. -/
private theorem SizeHint.plus_givenIf (n u : Nat) : GivenIf (n ≠ 0 → u + n ≤ limit) (u + n) (plus n u) := by
  unfold plus
  by_cases h : n = 0 ∨ u + n ≤ limit
  · exact .inl ⟨h.resolve_left, if_pos h⟩
  · exact .inr ⟨fun hn => h (or_iff_not_imp_left.mpr hn), if_neg h⟩

mutual

/-- The bounds of a cursor can be computed exactly if the sums fit, and the limit on them makes no difference
then. -/
theorem Cursor.hint_givenIf (c : Cursor) : GivenIf (c.Every Cursor.SumFits) c.bounds c.hint := by
  match c with
  | .map _ input => exact (streamHint_givenIf input).congr (iff_of_eq (true_and _)).symm
  | .filter _ input =>
    exact ((streamHint_givenIf input).map (SizeHint.upTo ·.upper)).congr (iff_of_eq (true_and _)).symm
  | .concat first rest =>
    exact ((streamHint_givenIf first).map₂ (streamsHint_givenIf rest) SizeHint.append).congr
      (iff_of_eq (true_and _)).symm
  | .take n input =>
    exact ((streamHint_givenIf input).map (SizeHint.take n)).congr (iff_of_eq (true_and _)).symm
  | .convert c input =>
    have hin := streamHint_givenIf input
    by_cases hi : c.type.item = .item
    · simp only [Cursor.hint, Cursor.bounds, hi, if_true]
      -- the sum is that of the bound of the input, which is there if the sums in the input fit
      let fits : Prop := ∀ u, (streamBounds input).upper = some u → c.pending.length ≠ 0 →
        u + c.pending.length ≤ SizeHint.limit
      have hiff : streamEvery Cursor.SumFits input ∧ fits ↔
          (Cursor.convert c input).Every Cursor.SumFits := by
        constructor
        · rintro ⟨hp, hfit⟩
          refine ⟨fun _ hne h u hh hu => ?_, fun _ => hp⟩
          obtain rfl := (hin.eq_of_ok hh).2
          exact hfit u hu (mt List.length_eq_zero_iff.mp hne)
        · rintro ⟨hfit, hp⟩
          refine ⟨hp hi, fun u hu hn => ?_⟩
          exact hfit hi (mt List.length_eq_zero_iff.mpr hn) _ u (hin.ok (hp hi)) hu
      refine (hin.bind fun _ => ?_).congr hiff
      cases hu : (streamBounds input).upper with
      | none => exact .of_ok _ fun u hu' => nomatch hu.symm.trans hu'
      | some u =>
        refine (((SizeHint.plus_givenIf _ u).map some).map SizeHint.upTo).congr ⟨fun h u' hu' => ?_, fun h => h u hu⟩
        cases hu.symm.trans hu'
        exact h
    · simp only [Cursor.hint, Cursor.bounds, hi, if_false]
      exact .of_ok _ ⟨fun hi' => absurd hi' hi, fun hi' => absurd hi' hi⟩
  | .script _ _ (some n) => exact .of_ok _ trivial
  | .script _ _ none => exact .of_ok _ trivial
  | .items _ | .candidates .. | .descendants .. | .deferred .. | .range .. | .reader ..
  | .collect .. | .emit _ | .outer .. | .inner .. | .atomize .. | .zip .. | .combine .. | .forward _
  | .truth .. | .gather .. | .dispatch .. | .count .. | .presence .. | .spent _ => exact .of_ok _ trivial

/-- The same of a stream. -/
theorem streamHint_givenIf (s : StreamOf Item Cursor) :
    GivenIf (streamEvery Cursor.SumFits s) (streamBounds s) (streamHint s) := by
  match s with
  | ⟨ahead, status⟩ => exact statusHint_givenIf ahead.length status

/-- The same of its status. -/
theorem statusHint_givenIf (ahead : Nat) (status : Status Cursor) :
    GivenIf (statusEvery Cursor.SumFits status) (statusBounds ahead status) (statusHint ahead status) := by
  match status with
  | .running c => exact c.hint_givenIf.map _
  | .done | .failed _ => exact .of_ok _ trivial

/-- The same of several streams, whose conditions all have to hold. -/
theorem streamsHint_givenIf (ss : List (StreamOf Item Cursor)) :
    GivenIf (streamsEvery Cursor.SumFits ss) (streamsBounds ss) (streamsHint ss) := by
  match ss with
  | [] => exact .of_ok _ trivial
  | s :: rest => exact (streamHint_givenIf s).map₂ (streamsHint_givenIf rest) SizeHint.append

end

namespace Stream

/-- The bounds of a stream can be computed exactly if the sums of its conversions fit. -/
theorem hint_givenIf (s : Stream) : GivenIf s.SumsFit (streamBounds s) s.hint := streamHint_givenIf s

end Stream

/-! ### Steps of cursors whose bounds are unknown -/

/-- Nothing is known about the number of items. -/
def Cursor.IsUnbounded : Cursor → Prop
  | .items _ | .candidates .. | .script .. | .range .. | .map .. | .filter .. | .concat .. | .take ..
  | .convert .. => False
  | _ => True

/-- Such cursors say nothing of their length. -/
private theorem Cursor.IsUnbounded.bounds_eq {c : Cursor} (h : c.IsUnbounded) : c.bounds = .unknown := by
  cases c with
  | items | candidates | script | range | map | filter | concat | take | convert => exact h.elim
  | descendants | deferred | reader | collect | emit | outer | inner | atomize | zip | combine | forward
  | truth | gather | dispatch | count | presence | spent => rfl

/-- Nor do they contain anything whose claims matter. -/
private theorem Cursor.IsUnbounded.isTruthful {c : Cursor} (h : c.IsUnbounded) : c.Every IsTruthful := by
  cases c <;> trivial

section

variable (env : Environment) (E : Engine)

/-- A cursor of this kind stays one, or forwards a stream, of which nothing is said either. -/
private theorem forwarding_isUnbounded {c : Cursor} (h : c.IsUnbounded) (r : Except Error Stream) :
    (forwarding c r).2.IsUnbounded := by
  cases r with
  | ok s => trivial
  | error e => exact h

/-- Such a cursor stays one. -/
theorem Cursor.IsUnbounded.step {c : Cursor} (h : c.IsUnbounded) :
    Ensures (c.step env E) (·.2.IsUnbounded) := by
  cases c with
  | items | candidates | script | range | map | filter | concat | take | convert => exact h.elim
  | descendants stack principal test =>
    refine .of_pure ?_
    unfold descendantsStep
    split
    · trivial
    · dsimp only
      split <;> trivial
  | deferred d arrived =>
    cases arrived with
    | some xs => exact .of_pure trivial
    | none =>
      refine .andThen _ ?_
      rintro (_ | (_ | _)) <;> exact .of_pure trivial
  | reader b position =>
    refine .andThen _ ?_
    rintro (o | source)
    · exact .of_pure trivial
    · exact .andThen _ fun r => .andThen _ fun _ => .of_pure trivial
  | collect f seen input =>
    refine .andThen _ ?_
    rintro ⟨o, _ | _⟩ <;> exact .of_pure trivial
  | emit xs => exact .of_pure trivial
  | outer f input =>
    refine .andThen _ ?_
    rintro ⟨o, f, input, _ | _⟩ <;> exact .of_pure trivial
  | inner f input current =>
    refine .andThen _ ?_
    rintro ⟨o, _ | _⟩ <;> exact .of_pure trivial
  | atomize pending input => exact .andThen _ fun r => .of_pure trivial
  | zip f before current found after waiting =>
    refine .andThen _ ?_
    rintro ⟨o, _ | _⟩ <;> exact .of_pure trivial
  | combine f found =>
    exact .andThen _ fun r => .of_pure (forwarding_isUnbounded (c := .combine f found) trivial r)
  | forward input => exact .andThen _ fun r => .of_pure trivial
  | truth position first input =>
    refine .andThen _ ?_
    rintro ⟨o, _ | _⟩ <;> exact .of_pure trivial
  | gather d gathered seen current rest =>
    refine .andThen _ ?_
    rintro ⟨o, _ | _⟩ <;> exact .of_pure trivial
  | dispatch d arguments =>
    simp only [Cursor.step, dispatchStep]
    split
    · exact .of_pure trivial
    · exact .andThen _ fun r => .of_pure (forwarding_isUnbounded (c := .dispatch d arguments) trivial r)
  | count seen input =>
    refine .andThen _ ?_
    rintro ⟨o, seen, _ | _⟩ <;> exact .of_pure trivial
  | presence wantsEmpty begun input =>
    have ho (r : Outcome Cardinality × Stream) : (presenceOutcome wantsEmpty r).2.IsUnbounded := by
      obtain ⟨o, s⟩ := r
      cases o <;> trivial
    simp only [Cursor.step]
    split
    · exact .of_pure (ho _)
    · exact .andThen _ fun r => .of_pure (ho r)
  | spent input => exact .of_pure trivial

/-! ### Steps respect the bounds -/

/-- Bounds of cursors in which the claims of scripts are true. -/
def Cursor.tally : Tally Cursor := ⟨Cursor.bounds, Cursor.Every Cursor.IsTruthful⟩

/-- The bounds by recursion over streams are those that the tally of cursors gives. -/
theorem streamBounds_eq (s : Stream) : streamBounds s = Cursor.tally.stream.bounds s := by
  obtain ⟨ahead, status⟩ := s
  cases status <;> rfl

/-- So is the condition on scripts. -/
theorem Stream.truthful_iff (s : Stream) : s.Truthful ↔ Cursor.tally.stream.sound s := by
  obtain ⟨ahead, status⟩ := s
  cases status <;> rfl

/-- The bounds of several streams are the sum of their bounds. -/
private theorem streamsBounds_eq (ss : List Stream) : streamsBounds ss = Cursor.tally.stream.sum ss := by
  induction ss with
  | nil => rfl
  | cons s ss ih => exact congrArg₂ SizeHint.append (streamBounds_eq s) ih

/-- Where nothing is said, every step is right. -/
private theorem Cursor.IsUnbounded.step_admits {c : Cursor} (h : c.IsUnbounded) :
    Ensures (c.step env E) (tally.Admits c) :=
  fun w => .of_unknown h.bounds_eq (h.step env E w).isTruthful

/-- A step through items at hand. -/
theorem emit_admits (xs : List Item) :
    Cursor.tally.Admits (.items xs) ((Step.emit xs).1, .items (Step.emit xs).2) := by
  cases xs with
  | nil => rfl
  | cons x xs => exact ⟨trivial, .exactly rfl⟩

/-- Candidates are at most as many as nodes are left to be tested. -/
private theorem candidatesStep_admits (forest : Forest) (principal : NodeKind) (test : NodeTest)
    (nodes : List NodeId) :
    Cursor.tally.Admits (.candidates nodes principal test)
      (candidatesStep forest principal test nodes) := by
  have hl : (nodes.dropWhile fun n => !test.accepts forest principal n).length ≤ nodes.length :=
    (List.dropWhile_sublist _).length_le
  unfold candidatesStep
  split
  · rfl
  · rename_i n rest hd
    rw [hd, List.length_cons] at hl
    exact ⟨trivial, Nat.zero_le _, fun u hu => ⟨rest.length, rfl, Option.some.inj hu ▸ hl⟩⟩

/-- The hint of a range is its length, cut off at the limit. -/
private theorem rangeHint_eq (next last : Int) :
    rangeHint next last = if (last - next + 1).toNat ≤ SizeHint.limit then
      .exactly (last - next + 1).toNat else ⟨SizeHint.limit, none⟩ := by
  unfold rangeHint
  by_cases h : next > last
  · have hz : (last - next + 1).toNat = 0 := by omega
    rw [if_pos h, hz, if_pos (Nat.zero_le _)]
  · have hl : last - next + 1 ≤ SizeHint.limit ↔ (last - next + 1).toNat ≤ SizeHint.limit := by omega
    simp only [h, hl, if_false]

/-- A range gets shorter by one with each item. -/
private theorem rangeStep_admits (next last : Int) :
    Cursor.tally.Admits (.range next last) (rangeStep next last) := by
  have hb (next : Int) : Cursor.tally.bounds (.range next last) = _ := rangeHint_eq next last
  unfold rangeStep
  split
  · obtain ⟨n, hn⟩ : ∃ n, (last - next + 1).toNat = n + 1 := ⟨(last - next).toNat, by omega⟩
    have hn' : (last - (next + 1) + 1).toNat = n := by omega
    refine ⟨trivial, ?_⟩
    rw [hb, hb, hn, hn']
    split
    · rw [if_pos (by omega)]
      exact .exactly rfl
    · -- a range that is too long for a bound may become short enough for one
      refine ⟨?_, nofun⟩
      split
      · simp only [SizeHint.exactly]
        omega
      · exact Nat.le_succ _
  · have hz : (last - next + 1).toNat = 0 := by omega
    simp only [Tally.Admits, hb, hz, Nat.zero_le, if_true]
    rfl

/-- A script whose claim is true delivers as many items as are claimed. -/
private theorem runScript_claims {steps : List (ScriptStep Item)} {n : Nat} (h : Claims steps n) :
    Ensures (runScript steps) fun r => match r.1 with
      | .item _ => ∃ m, n = m + 1 ∧ Claims r.2 m
      | .suspended _ => Claims r.2 n
      | .done => n = 0
      | .failed _ => True
      | .skip => False := by
  induction steps with
  | nil => exact .of_pure h
  | cons step rest ih =>
    cases step with
    | item x => exact .of_pure h
    | await d =>
      refine .andThen _ ?_
      rintro (_ | _)
      · exact .of_pure h
      · exact ih h
    | fail e => exact .of_pure trivial
    | done => exact .of_pure h

/-- A true claim gets smaller by one with each item, so it stays true. -/
private theorem scriptStep_admits (label : String) {steps : List (ScriptStep Item)} {claimed : Option Nat}
    (h : (Cursor.script label steps claimed).IsTruthful) :
    Ensures (scriptStep label steps claimed) (Cursor.tally.Admits (.script label steps claimed)) := by
  refine .andThen _ fun _ => ?_
  cases claimed with
  | none =>
    refine .andThen _ ?_
    rintro ⟨o, rest⟩
    cases o <;> exact .of_pure (.of_unknown rfl trivial)
  | some n =>
    refine (runScript_claims h).bind ?_
    rintro ⟨o, rest⟩ hr
    cases o with
    | item x =>
      obtain ⟨m, rfl, hm⟩ := hr
      exact .of_pure ⟨hm, .exactly rfl⟩
    | suspended d => exact .of_pure ⟨hr, .refl _⟩
    | done => exact .of_pure hr
    | failed => exact .of_pure trivial
    | skip => exact hr.elim

/-- A conversion keeps its type. -/
theorem Conversion.type_step {σ W : Type} (f : Forest) (c : Conversion) (s : σ)
    (pull : Step.Pull W Item σ) : Ensures (c.step f s pull) (·.2.1.type = c.type) := by
  have hd (c : Conversion) : c.deliver.2.type = c.type := by
    unfold deliver
    split <;> rfl
  unfold step
  split
  · exact .of_pure (hd c)
  refine .andThen _ ?_
  rintro ⟨o, s'⟩
  cases o with
  | item x =>
    have ht : (c.takeUp f x).2.type = c.type := by
      unfold takeUp
      split
      · rfl
      · dsimp only
        split <;> rfl
    exact .of_pure ht
  | done =>
    have hf : c.finish.2.type = c.type := by
      unfold finish
      split
      · rfl
      · exact hd _
    exact .of_pure hf
  | suspended | failed | skip => exact .of_pure rfl

/-- A stream that reports its end has nothing ahead. -/
private theorem eq_empty_of_streamStep (s : Stream) :
    Ensures (streamStep env E s) fun r => r.1 = .done → r.2 = .empty := by
  intro w
  rw [streamStep_eq_pull]
  rcases hp : StreamOf.pull (Cursor.step env E) s w with ⟨⟨o, s'⟩, w'⟩
  rintro rfl
  exact StreamOf.eq_of_pull_done hp

mutual

/-- **Steps respect the bounds.** -/
theorem Cursor.step_admits (c : Cursor) (h : c.Every Cursor.IsTruthful) :
    Ensures (c.step env E) (Cursor.tally.Admits c) := by
  match c with
  | .items xs => exact .of_pure (emit_admits xs)
  | .candidates nodes principal test => exact .of_pure (candidatesStep_admits _ principal test nodes)
  | .script label steps claimed => exact scriptStep_admits label h
  | .range next last => exact .of_pure (rangeStep_admits next last)
  | .map f input =>
    refine (Tally.map_admits _ f (streamStep_admits input h.2)).bind ?_
    rintro ⟨o, f', input'⟩ hr
    refine .of_pure (hr.lift (streamBounds_eq input) fun hs => ?_)
    exact ⟨⟨trivial, (Stream.truthful_iff input').mpr hs⟩, streamBounds_eq input'⟩
  | .filter f input =>
    have hb (f : Selector) (s : Stream) :
        Cursor.tally.bounds (.filter f s) = Cursor.tally.stream.filter.bounds s :=
      congrArg (fun h : SizeHint => SizeHint.upTo h.upper) (streamBounds_eq s)
    refine (Tally.filter_admits _ f (streamStep_admits input h.2)).bind ?_
    rintro ⟨o, f', input'⟩ hr
    refine .of_pure (hr.lift (hb f input) fun hs => ?_)
    exact ⟨⟨trivial, (Stream.truthful_iff input').mpr hs⟩, hb f' input'⟩
  | .concat first rest =>
    have hb (s : Stream) (ss : List Stream) :
        Cursor.tally.bounds (.concat s ss) = Cursor.tally.stream.concat.bounds (s, ss) :=
      streamsBounds_eq (s :: ss)
    have hr (s : Stream) (hs : s ∈ rest) : Cursor.tally.stream.sound s :=
      (Stream.truthful_iff s).mp (streamsEvery_iff.mp h.2.2 s hs)
    refine (Tally.concat_admits hr (streamStep_admits first h.2.1)).bind ?_
    rintro ⟨o, first', rest'⟩ hr
    refine .of_pure (hr.lift (hb first rest) fun hs => ?_)
    have hs' : ∀ s ∈ first' :: rest', streamEvery Cursor.IsTruthful s :=
      fun s hmem => (Stream.truthful_iff s).mpr (hs s hmem)
    exact ⟨⟨trivial, streamsEvery_iff.mpr hs'⟩, hb first' rest'⟩
  | .take n input =>
    have hb (n : Nat) (s : Stream) :
        Cursor.tally.bounds (.take n s) = Cursor.tally.stream.take.bounds (n, s) :=
      congrArg (SizeHint.take n) (streamBounds_eq s)
    refine (Tally.take_admits n (streamStep_admits input h.2)).bind ?_
    rintro ⟨o, n', input'⟩ hr
    refine .of_pure (hr.lift (hb n input) fun hs => ?_)
    exact ⟨⟨trivial, (Stream.truthful_iff input').mpr hs⟩, hb n' input'⟩
  | .convert c input =>
    -- only a conversion that leaves items as they are has bounds
    by_cases hi : c.type.item = .item
    · have hb (c : Conversion) (s : Stream) (hi : c.type.item = .item) :
          Cursor.tally.bounds (.convert c s) = Cursor.tally.stream.convert.bounds (c, s) :=
        (if_pos hi).trans (congrArg (fun h : SizeHint => SizeHint.upTo (h.upper.map _)) (streamBounds_eq s))
      have hp := streamStep_admits input (h.2 hi)
      refine (Tally.convert_admits env.forest ⟨hi, (Stream.truthful_iff input).mp (h.2 hi)⟩
        fun w => ⟨hp w, eq_empty_of_streamStep env E input w⟩).bind ?_
      rintro ⟨o, c', input'⟩ hr
      refine .of_pure (hr.lift (hb c input hi) fun hs => ?_)
      exact ⟨⟨trivial, fun _ => (Stream.truthful_iff input').mpr hs.2⟩, hb c' input' hs.1⟩
    · refine (Conversion.type_step env.forest c input (streamStep env E input)).bind ?_
      rintro ⟨o, c', input'⟩ ht
      exact .of_pure (.of_unknown (if_neg hi) ⟨trivial, fun hi' => absurd (ht ▸ hi') hi⟩)
  | .descendants .. | .deferred .. | .reader ..
  | .collect .. | .emit _ | .outer .. | .inner .. | .atomize .. | .zip .. | .combine .. | .forward _
  | .truth .. | .gather .. | .dispatch .. | .count .. | .presence .. | .spent _ =>
    refine Cursor.IsUnbounded.step_admits env E ?_
    trivial

/-- The bounds of a stream are right for one pull: an item lowers them by one, the end needs a lower bound of
zero. Together with the same of cursors, by recursion over what they read. -/
theorem streamStep_admits (s : StreamOf Item Cursor) (h : streamEvery Cursor.IsTruthful s) :
    Ensures (streamStep env E s) (Cursor.tally.stream.Admits s) := by
  match s with
  | ⟨x :: xs, status⟩ =>
    exact .of_pure (Tally.stream_admits_ahead ((Stream.truthful_iff _).mp h))
  | ⟨[], status⟩ => exact statusStep_admits status h

/-- The same of the status of a stream. -/
theorem statusStep_admits (status : Status Cursor) (h : statusEvery Cursor.IsTruthful status) :
    Ensures (statusStep env E status) (Cursor.tally.stream.Admits ⟨[], status⟩) := by
  match status with
  | .running c => exact (c.step_admits h).bind fun r hr => .of_pure (Tally.stream_admits_settle hr)
  | .done => exact .of_pure rfl
  | .failed e => exact .of_pure trivial

end

/-- **Bounds of streams.** Let the claims of the scripts in a stream be true, and consider any state
that the stream reaches by uses while the world changes. If the sums of its conversions fit in that state,
there are bounds, and under all further uses:

* if the end is reported, the items delivered are no less than the lower bound;
* the items delivered are no more than the upper bound, whether an error follows or not.

If a sum does not fit, there are no bounds, and the process breaks down when they are asked for. -/
theorem hint_bounds_delivered {s : Stream} (hs : s.Truthful) (us : List ((World → World) × Use)) (w : World) :
    let now := (StreamOf.uses Cursor.hint (Cursor.step env E) us s w).2
    (Stream.SumsFit now.1 → ∃ h, Stream.hint now.1 = .ok h ∧ ∀ vs : List ((World → World) × Use),
      let later := (StreamOf.uses Cursor.hint (Cursor.step env E) vs now.1 now.2).1
      (.advanced .done ∈ later → h.lower ≤ (Report.delivered later).length) ∧
        ∀ u, h.upper = some u → (Report.delivered later).length ≤ u) ∧
    (¬Stream.SumsFit now.1 → Stream.hint now.1 = .error .sumOverflow) := by
  intro now
  have hT := Cursor.step_admits env E
  have hnow := (Tally.bounds_hold hT Cursor.hint ((Stream.truthful_iff s).mp hs) us w).1
  refine ⟨fun hfit => ⟨_, (Stream.hint_givenIf now.1).ok hfit, fun vs => ?_⟩, (Stream.hint_givenIf now.1).error⟩
  obtain ⟨-, hupper, hlower⟩ := Tally.bounds_hold hT Cursor.hint hnow vs now.2
  rw [streamBounds_eq]
  exact ⟨hlower, hupper⟩

end

/-- The first three integers of a range, when one of them has been delivered. -/
theorem hint_bounds_delivered_take :
    let step := Cursor.step ⟨{}, {}⟩ (.ofDepth ⟨{}, {}⟩ 0)
    let now := (StreamOf.uses Cursor.hint step [(id, .advance 0)] (Stream.take 3 (.range 1 5)) {}).2
    let later := (StreamOf.uses Cursor.hint step
      [(id, .advance 0), (id, .advance 0), (id, .advance 0)] now.1 now.2).1
    Stream.hint now.1 = .ok (.exactly 2) ∧ 2 ≤ (Report.delivered later).length ∧
      (Report.delivered later).length ≤ 2 := by
  intro step now later
  have hs : (Stream.take 3 (.range 1 5)).Truthful := ⟨trivial, trivial⟩
  obtain ⟨h, hh, hlater⟩ := (hint_bounds_delivered ⟨{}, {}⟩ (.ofDepth ⟨{}, {}⟩ 0) hs [(id, .advance 0)] {}).1
    ⟨trivial, trivial⟩
  obtain rfl : .exactly 2 = h := Except.ok.inj hh
  obtain ⟨hlower, hupper⟩ := hlater [(id, .advance 0), (id, .advance 0), (id, .advance 0)]
  have hd : .advanced .done ∈ later := .tail _ (.tail _ (.head _))
  exact ⟨rfl, hlower hd, hupper 2 rfl⟩

/-- A conversion whose sum does not fit: it has taken up an item, and its input may still deliver as many
items as the greatest bound. There are no bounds although the item is delivered later. -/
theorem hint_breaks_off :
    let late (n : Nat) : Stream := .take n (.run (.deferred "d" none))
    let s : Stream := .convert ⟨.item, .optional⟩
      (.concat [.one (.ofInt 7), late (twoTo 63 - 1), late (twoTo 63 - 1), late 1])
    let step := Cursor.step ⟨{}, {}⟩ (.ofDepth ⟨{}, {}⟩ 0)
    let arrive (w : World) : World := { w with arrivals := [("d", .ok [])] }
    let now := (StreamOf.uses Cursor.hint step [(id, .advance 20)] s {}).2
    let later := (StreamOf.uses Cursor.hint step [(arrive, .advance 20), (id, .advance 20)] now.1 now.2).1
    s.Truthful ∧ Stream.hint now.1 = .error .sumOverflow ∧
      later = [.advanced (.item (.ofInt 7)), .advanced .done] := by
  refine ⟨⟨trivial, fun _ => ?_⟩, rfl, rfl⟩
  exact ⟨trivial, trivial, ⟨trivial, trivial⟩, ⟨trivial, trivial⟩, ⟨trivial, trivial⟩, trivial⟩

end LazyXPath
