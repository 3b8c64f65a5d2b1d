import LazyXPath.Proofs.Production.Conversion

/-!
# Conversions that are repeated

A sequence that is converted twice to the same type shows what it shows when it is converted once, and does the same to
the world. The second conversion finds nothing to do (`Item.convert_convert`), but it takes steps of its own: an item
that the first one delivers is taken up before it is delivered again, and if at most one item is allowed, the end is
looked for once more. So the two do not go step by step together. One of them **delays** the other (`Delays`): each step
of a single conversion is a step of the repeated one, at times after a step that reports nothing. Reports are made of as
many steps as it takes, so that no schedule of reports tells the two apart (`Delays.shows_iff`).

`Repeated` relates the states of both. The cases are those of a single conversion: it still reads its input, it has read
all of it and has delivered its only item, or it is over.
-/

namespace LazyXPath

variable {W α σ τ : Type}

/-! ### Reports -/

/-- What a schedule shows: after each change of the world there is a report, made of as many steps as it takes. The last
world is the one after the last report. -/
inductive Shows (step : σ → StateM W (Outcome α × σ)) : List (W → W) → σ → W → List (Outcome α) → W → Prop where
  | nil (s : σ) (w : W) : Shows step [] s w [] w
  | cons {move : W → W} {moves : List (W → W)} {s s' : σ} {w w' w'' : W} {o : Outcome α} {os : List (Outcome α)}
      (fuel : Nat) (report : untilReport step fuel s (move w) = ((o, s'), w')) (isReport : o ≠ .skip)
      (rest : Shows step moves s' w' os w'') : Shows step (move :: moves) s w (o :: os) w''

/-- The slow steps are those of `step`, each of them at once or after one that reports nothing. Only a step with a report
may come late. -/
def Delays (slow : τ → StateM W (Outcome α × τ)) (step : σ → StateM W (Outcome α × σ)) (R : τ → σ → Prop) : Prop :=
  ∀ t s w, R t s → ∃ o t' s' w', step s w = ((o, s'), w') ∧ R t' s' ∧ (slow t w = ((o, t'), w') ∨
    o ≠ .skip ∧ ∃ t₁ w₁, slow t w = ((.skip, t₁), w₁) ∧ slow t₁ w₁ = ((o, t'), w'))

namespace Delays

variable {slow : τ → StateM W (Outcome α × τ)} {step : σ → StateM W (Outcome α × σ)} {R : τ → σ → Prop}
  {t t' : τ} {s s' : σ} {w w' : W} {o : Outcome α} {fuel : Nat}

private theorem report_slow (hR : Delays slow step R) (h : R t s) (hs : untilReport step fuel s w = ((o, s'), w'))
    (ho : o ≠ .skip) : ∃ fuel' t', untilReport slow fuel' t w = ((o, t'), w') ∧ R t' s' := by
  induction fuel generalizing t s w with
  | zero =>
    cases hs
    exact absurd rfl ho
  | succ fuel ih =>
    obtain ⟨o₁, t₁, s₁, w₁, hstep, h₁, hslow⟩ := hR t s w h
    by_cases ho₁ : o₁ = .skip
    · subst ho₁
      rw [untilReport_skip hstep] at hs
      obtain hslow | ⟨hne, -⟩ := hslow
      · obtain ⟨fuel', t', ht, h'⟩ := ih h₁ hs
        exact ⟨fuel' + 1, t', by rw [untilReport_skip hslow, ht], h'⟩
      · exact absurd rfl hne
    · rw [untilReport_report hstep ho₁] at hs
      cases hs
      obtain hslow | ⟨-, t₂, w₂, hskip, hslow⟩ := hslow
      · exact ⟨1, t₁, untilReport_report hslow ho, h₁⟩
      · exact ⟨2, t₁, by rw [untilReport_skip hskip, untilReport_report hslow ho], h₁⟩

private theorem report_of_slow (hR : Delays slow step R) (h : R t s)
    (ht : untilReport slow fuel t w = ((o, t'), w'))
    (ho : o ≠ .skip) : ∃ fuel' s', untilReport step fuel' s w = ((o, s'), w') ∧ R t' s' := by
  induction fuel generalizing t s w with
  | zero =>
    cases ht
    exact absurd rfl ho
  | succ fuel ih =>
    obtain ⟨o₁, t₁, s₁, w₁, hstep, h₁, hslow⟩ := hR t s w h
    by_cases ho₁ : o₁ = .skip
    · subst ho₁
      obtain hslow | ⟨hne, -⟩ := hslow
      · rw [untilReport_skip hslow] at ht
        obtain ⟨fuel', s', hs, h'⟩ := ih h₁ ht
        exact ⟨fuel' + 1, s', by rw [untilReport_skip hstep, hs], h'⟩
      · exact absurd rfl hne
    · refine ⟨1, s₁, ?_⟩
      rw [untilReport_report hstep ho₁]
      obtain hslow | ⟨-, t₂, w₂, hskip, hslow⟩ := hslow
      · rw [untilReport_report hslow ho₁] at ht
        cases ht
        exact ⟨rfl, h₁⟩
      · rw [untilReport_skip hskip] at ht
        cases fuel with
        | zero =>
          cases ht
          exact absurd rfl ho
        | succ fuel =>
          rw [untilReport_report hslow ho₁] at ht
          cases ht
          exact ⟨rfl, h₁⟩

/-- **Delays are not seen** by a schedule of reports. -/
theorem shows_iff (hR : Delays slow step R) (h : R t s) {moves : List (W → W)} {os : List (Outcome α)} :
    Shows slow moves t w os w' ↔ Shows step moves s w os w' := by
  constructor
  · intro hshows
    induction hshows generalizing s with
    | nil t w => exact .nil s w
    | cons fuel report isReport _ ih =>
      obtain ⟨fuel', s', hs, h'⟩ := hR.report_of_slow h report isReport
      exact .cons fuel' hs isReport (ih h')
  · intro hshows
    induction hshows generalizing t with
    | nil s w => exact .nil t w
    | cons fuel report isReport _ ih =>
      obtain ⟨fuel', t', ht, h'⟩ := hR.report_slow h report isReport
      exact .cons fuel' ht isReport (ih h')

end Delays

/-! ### A single conversion -/

/-- At the end of the input, what is pending is delivered if there have been items enough. -/
theorem Conversion.finish_eq_deliver {c : Conversion}
    (h : c.pending = [] → c.emitted = false → c.type.occurrence.atLeastOne = false) :
    c.finish = { c with checked := true }.deliver := by
  refine if_neg fun hmissing => ?_
  obtain ⟨⟨hp, he⟩, hl⟩ : (c.pending = [] ∧ c.emitted = false) ∧ c.type.occurrence.atLeastOne = true := by
    simpa using hmissing
  exact Bool.false_ne_true ((h hp he).symm.trans hl)

namespace Stream

/-- A conversion that still reads its input. -/
def converting (type : SequenceType) (pending : List Item) (emitted : Bool) (s : Stream) : Stream :=
  .run (.convert { type, pending, emitted } s)

/-- A conversion to a type that allows at most one item, after this item. -/
def finished (type : SequenceType) (s : Stream) : Stream :=
  .run (.convert { type, emitted := true, checked := true } s)

/-- What is pending in a conversion that still reads its input: items that are not changed by another conversion. If at
most one item is allowed, then at most one is pending, and none has been delivered. -/
structure IsPending (f : Forest) (type : SequenceType) (pending : List Item) (emitted : Bool) : Prop where
  unchanged : ∀ y ∈ pending, y.convert f type = .ok [y]
  single : type.occurrence.atMostOne = true → pending.length ≤ 1 ∧ emitted = false

/-- What a step of a single conversion comes to while it reads its input. -/
inductive Converted (f : Forest) (type : SequenceType) (emitted : Bool) : Outcome Item × Stream → Prop where
  | skipped {pending : List Item} (h : IsPending f type pending emitted) (s : Stream) :
      Converted f type emitted (.skip, converting type pending emitted s)
  | suspended {pending : List Item} (d : DeferredId) (h : IsPending f type pending emitted) (s : Stream) :
      Converted f type emitted (.suspended d, converting type pending emitted s)
  | failed (e : Error) : Converted f type emitted (.failed e, .failed e)
  | done (enough : emitted = false → type.occurrence.atLeastOne = false) : Converted f type emitted (.done, .empty)
  /-- One of several items. -/
  | item {y : Item} {pending : List Item} (several : type.occurrence.atMostOne = false)
      (unchanged : y.convert f type = .ok [y]) (h : IsPending f type pending true) (s : Stream) :
      Converted f type emitted (.item y, converting type pending true s)
  /-- The only item. -/
  | only {y : Item} (atMostOne : type.occurrence.atMostOne = true) (unchanged : y.convert f type = .ok [y])
      (s : Stream) : Converted f type emitted (.item y, finished type s)

section

variable {env : Environment} {E : Engine} {type : SequenceType} {pending : List Item} {emitted : Bool}
  {s s' : Stream} {w w' : World}

/-- The cursor of a conversion takes the steps of the conversion, in any engine. -/
theorem streamStep_convert (c : Conversion) (s : Stream) (w : World) : streamStep env E (.run (.convert c s)) w =
    (let r := Step.converting env.forest (streamStep env E) (c, s) w
    (StreamOf.settle (r.1.1, Cursor.convert r.1.2.1 r.1.2.2), r.2)) := by
  rcases hr : c.step env.forest s (streamStep env E s) w with ⟨⟨o, c', s'⟩, w'⟩
  simp only [StreamOf.run, streamStep, statusStep, Cursor.step, Step.converting, bind, StateT.bind, hr]
  rfl

/-! ### Items to deliver -/

/-- A converted item is delivered at once if several are allowed. -/
theorem converting_deliver (hm : type.occurrence.atMostOne = false) (y : Item) :
    streamStep env E (converting type (y :: pending) emitted s) w =
      ((.item y, converting type pending true s), w) := by
  have hready : ({ type, pending := y :: pending, emitted } : Conversion).isReady = true := by
    simp [Conversion.isReady, hm]
  rw [converting, streamStep_convert, Step.converting_ready hready]
  rfl

/-- After the only item there is the end. -/
theorem streamStep_finished (hm : type.occurrence.atMostOne = true) (s : Stream) (w : World) :
    streamStep env E (finished type s) w = ((.done, .empty), w) := by
  have hready : ({ type, emitted := true, checked := true } : Conversion).isReady = true := by
    simp [Conversion.isReady, hm]
  rw [finished, streamStep_convert, Step.converting_ready hready]
  rfl

/-! ### Input to read -/

/-- A conversion reads on while nothing is pending, and to the end if at most one item is allowed. -/
theorem isReady_converting (h : pending = [] ∨ type.occurrence.atMostOne = true) :
    ({ type, pending, emitted } : Conversion).isReady = false := by
  obtain rfl | hm := h
  · simp [Conversion.isReady]
  · simp [Conversion.isReady, hm]

private theorem converting_pass {o : Outcome Item} (h : pending = [] ∨ type.occurrence.atMostOne = true)
    (hs : streamStep env E s w = ((o, s'), w')) (hitem : ∀ x, o ≠ .item x) (hdone : o ≠ .done) :
    streamStep env E (converting type pending emitted s) w =
      ((o, ⟨[], StreamOf.statusAfter o (.convert { type, pending, emitted } s')⟩), w') := by
  rw [converting, streamStep_convert, Step.converting_pass (isReady_converting h) hs hitem hdone]
  cases o with
  | item x => exact absurd rfl (hitem x)
  | done => exact absurd rfl hdone
  | suspended | failed | skip => rfl

private theorem converting_item {x : Item} (h : pending = [] ∨ type.occurrence.atMostOne = true)
    (hs : streamStep env E s w = ((.item x, s'), w')) :
    streamStep env E (converting type pending emitted s) w =
      (let r := ({ type, pending, emitted } : Conversion).takeUp env.forest x
      (StreamOf.settle (r.1, .convert r.2 s'), w')) := by
  rw [converting, streamStep_convert, Step.converting_item (isReady_converting h) hs]

private theorem converting_done (h : pending = [] ∨ type.occurrence.atMostOne = true)
    (hs : streamStep env E s w = ((.done, s'), w')) :
    streamStep env E (converting type pending emitted s) w =
      (let r := ({ type, pending, emitted } : Conversion).finish
      (StreamOf.settle (r.1, .convert r.2 s'), w')) := by
  rw [converting, streamStep_convert, Step.converting_done (isReady_converting h) hs]

variable (emitted) in
/-- An item that is not changed by the conversion is taken up. -/
theorem converting_takeUp {y : Item} (hy : y.convert env.forest type = .ok [y])
    (hs : streamStep env E s w = ((.item y, s'), w')) :
    streamStep env E (converting type [] emitted s) w = ((.skip, converting type [y] emitted s'), w') := by
  rw [converting_item (.inl rfl) hs, Conversion.takeUp_ok (c := { type, emitted }) hy fun _ => Nat.le_refl 1]
  rfl

private theorem converted_takeUp {x : Item} (h : IsPending env.forest type pending emitted) (s : Stream) :
    let r := ({ type, pending, emitted } : Conversion).takeUp env.forest x
    Converted env.forest type emitted (StreamOf.settle (r.1, .convert r.2 s)) := by
  intro r
  cases hx : x.convert env.forest type with
  | error e =>
    have hr : r = _ := Conversion.takeUp_error hx
    rw [hr]
    exact .failed e
  | ok ys =>
    by_cases hl : type.occurrence.atMostOne = true → (pending ++ ys).length ≤ 1
    · have hr : r = _ := Conversion.takeUp_ok hx hl
      rw [hr]
      refine .skipped ⟨fun y hy => ?_, fun hm => ⟨hl hm, (h.single hm).2⟩⟩ s
      obtain hy | hy := List.mem_append.mp hy
      · exact h.unchanged y hy
      · exact Item.convert_convert hx y hy
    · obtain ⟨hm, hlt⟩ := Classical.not_imp.mp hl
      have hr : r = _ := Conversion.takeUp_many hx hm (Nat.lt_of_not_le hlt)
      rw [hr]
      exact .failed _

private theorem converted_finish (h : IsPending env.forest type pending emitted)
    (hread : pending = [] ∨ type.occurrence.atMostOne = true) (s : Stream) :
    let r := ({ type, pending, emitted } : Conversion).finish
    Converted env.forest type emitted (StreamOf.settle (r.1, .convert r.2 s)) := by
  intro r
  by_cases hmissing : pending = [] ∧ emitted = false ∧ type.occurrence.atLeastOne = true
  · obtain ⟨rfl, rfl, hleast⟩ := hmissing
    have hr : r = _ := Conversion.finish_missing (c := { type }) rfl rfl hleast
    rw [hr]
    exact .failed _
  have hr : r = _ := Conversion.finish_eq_deliver (by simpa using hmissing)
  rw [hr]
  match pending with
  | [] => exact .done (by simpa using hmissing)
  | [y] => exact .only (hread.resolve_left (List.cons_ne_nil y [])) (h.unchanged y (.head _)) s
  | y :: z :: zs =>
    have hlength := (h.single (hread.resolve_left (List.cons_ne_nil y _))).1
    simp at hlength

/-- Every step of a single conversion. -/
theorem exists_converted (E : Engine) (h : IsPending env.forest type pending emitted) (s : Stream) (w : World) :
    ∃ r w', streamStep env E (converting type pending emitted s) w = (r, w') ∧
      Converted env.forest type emitted r := by
  by_cases hread : pending = [] ∨ type.occurrence.atMostOne = true
  · rcases hs : streamStep env E s w with ⟨⟨o, s'⟩, w'⟩
    cases o with
    | item x => exact ⟨_, w', converting_item hread hs, converted_takeUp h s'⟩
    | done => exact ⟨_, w', converting_done hread hs, converted_finish h hread s'⟩
    | suspended d => exact ⟨_, w', converting_pass hread hs (by simp) (by simp), .suspended d h s'⟩
    | failed e => exact ⟨_, w', converting_pass hread hs (by simp) (by simp), .failed e⟩
    | skip => exact ⟨_, w', converting_pass hread hs (by simp) (by simp), .skipped h s'⟩
  · obtain ⟨hpending, hm⟩ := not_or.mp hread
    obtain ⟨y, ys, rfl⟩ := List.exists_cons_of_ne_nil hpending
    have hm : type.occurrence.atMostOne = false := Bool.eq_false_iff.mpr hm
    obtain ⟨hy, hys⟩ := List.forall_mem_cons.mp h.unchanged
    have hrest : IsPending env.forest type ys true :=
      ⟨hys, fun hone => absurd (hm.symm.trans hone) Bool.false_ne_true⟩
    exact ⟨_, w, converting_deliver hm y, .item hm hy hrest s⟩

end

/-! ### A repeated conversion -/

/-- The states of a repeated conversion, beside those of a single one. -/
inductive Repeated (f : Forest) (type : SequenceType) : Stream → Stream → Prop where
  | converting {pending : List Item} {emitted : Bool} (h : IsPending f type pending emitted) (s : Stream) :
      Repeated f type (converting type [] emitted (converting type pending emitted s))
        (converting type pending emitted s)
  | finished (h : type.occurrence.atMostOne = true) (s t : Stream) :
      Repeated f type (finished type t) (finished type s)
  | same (s : Stream) : Repeated f type s s

private theorem repeated_delays (env : Environment) (E : Engine) (type : SequenceType) :
    Delays (streamStep env E) (streamStep env E) (Repeated env.forest type) := by
  intro t s w h
  cases h with
  | same s => exact ⟨_, _, _, _, rfl, .same _, .inl rfl⟩
  | finished hm s t =>
    refine ⟨_, _, _, w, streamStep_finished hm s w, .same .empty, .inl ?_⟩
    exact streamStep_finished hm t w
  | @converting pending emitted h s =>
    obtain ⟨⟨o, u⟩, w', hs, hconverted⟩ := exists_converted E h s w
    cases hconverted with
    | skipped h s' =>
      refine ⟨_, _, _, w', hs, .converting h s', .inl ?_⟩
      exact converting_pass (.inl rfl) hs (by simp) (by simp)
    | suspended d h s' =>
      refine ⟨_, _, _, w', hs, .converting h s', .inl ?_⟩
      exact converting_pass (.inl rfl) hs (by simp) (by simp)
    | failed e =>
      refine ⟨_, _, _, w', hs, .same (.failed e), .inl ?_⟩
      exact converting_pass (.inl rfl) hs (by simp) (by simp)
    | done enough =>
      refine ⟨_, _, _, w', hs, .same .empty, .inl ?_⟩
      rw [converting_done (.inl rfl) hs, Conversion.finish_eq_deliver fun _ => enough]
      rfl
    -- an item is taken up by the second conversion, which is the step that reports nothing
    | @item y pending several unchanged h s' =>
      have htaken := converting_takeUp emitted unchanged hs
      exact ⟨_, _, _, w', hs, .converting h s', .inr ⟨by simp, _, _, htaken, converting_deliver several y⟩⟩
    | @only y atMostOne unchanged s' =>
      have htaken := converting_takeUp emitted unchanged hs
      refine ⟨_, _, _, w', hs, .finished atMostOne s' .empty, .inr ⟨by simp, _, _, htaken, ?_⟩⟩
      rw [converting_done (.inr atMostOne) (streamStep_finished atMostOne s' w'),
        Conversion.finish_eq_deliver fun h => absurd h (List.cons_ne_nil y [])]
      rfl

private theorem repeated_convert (f : Forest) (type : SequenceType) (s : Stream) :
    Repeated f type ((s.convert type).convert type) (s.convert type) := by
  unfold convert
  split
  case isTrue => exact .same s
  case isFalse => exact .converting ⟨fun _ h => absurd h List.not_mem_nil, fun _ => ⟨Nat.zero_le 1, rfl⟩⟩ s

end Stream

/-- **Conversion is idempotent.** A sequence that is converted twice to a type shows the same along every schedule, does
the same to the world, and waits where it waits when it is converted once. If the sequence produces a run, whatever
happens between the steps, then both produce the converted run. -/
theorem convert_idempotent (env : Environment) (type : SequenceType) (s : Stream) :
    (∀ (E : Engine) (moves : List (World → World)) (w w' : World) (os : List (Outcome Item)),
      Shows (streamStep env E) moves ((s.convert type).convert type) w os w' ↔
        Shows (streamStep env E) moves (s.convert type) w os w') ∧
    ∀ (F : Regime (World × Nat)) (ω : F.Situation) (r : Run Item), Produces F (streamPull env) ω s r →
      Produces F (streamPull env) ω (s.convert type) (r.convert env.forest type) ∧
        Produces F (streamPull env) ω ((s.convert type).convert type) (r.convert env.forest type) := by
  refine ⟨fun E moves w w' os => ?_, fun F ω r h => ?_⟩
  · exact (Stream.repeated_delays env E type).shows_iff (Stream.repeated_convert env.forest type s)
  · have honce := convert_produces type h
    have htwice := convert_produces type honce
    rw [Run.convert_convert] at htwice
    exact ⟨honce, htwice⟩

/-- A time with an offset that arrives late as a text. It is converted to a type of which it is not an instance
afterwards, but the second conversion accepts it. The report before it has arrived is a suspension. -/
theorem convert_idempotent_dateTimeStamp :
    let env : Environment := ⟨{}, {}⟩
    let lexical : Item := .atomic (.text .untypedAtomic "2024-05-01T10:00:00+02:00")
    let values : List (DeferredId × Except Error (List Item)) := [("d", .ok [lexical])]
    let stamp : Item := .atomic (.dateTime
      ⟨⟨2024, 5, 1, by decide, by decide, by decide⟩, ⟨36000 * 1000000000, by decide⟩⟩ (some ⟨7200⟩))
    let F := regime env values 0
    let ω : F.Situation := ⟨fun _ => none, {}, 1⟩
    let s : Stream := .run (.deferred "d" none)
    let twice : Stream := (s.convert ⟨.dateTimeStamp, .one⟩).convert ⟨.dateTimeStamp, .one⟩
    (stamp.itemType env.forest).isSubtypeOf .dateTimeStamp = false ∧
      Produces F (streamPull env) ω s (.complete [lexical]) ∧
      Produces F (streamPull env) ω twice (.complete [stamp]) ∧
      Shows (streamStep env (.ofDepth env 0)) [id, fun w => { w with arrivals := values }, id] twice {}
        [.suspended "d", .item stamp, .done] { arrivals := values } := by
  intro env lexical values stamp F ω s twice
  have hs : Produces F (streamPull env) ω s (.complete [lexical]) := produces_complete_iff.mpr (deferred_delivers rfl)
  have hstamp : (Run.complete [lexical]).convert env.forest ⟨.dateTimeStamp, .one⟩ = .complete [stamp] :=
    Run.convert_complete rfl
  obtain ⟨hshows, hproduces⟩ := convert_idempotent env ⟨.dateTimeStamp, .one⟩ s
  refine ⟨rfl, hs, hstamp ▸ (hproduces F ω _ hs).2, (hshows (.ofDepth env 0) _ _ _ _).mpr ?_⟩
  -- the steps of a single conversion after the arrival, one by one
  let input (rest : List Item) : Stream := .run (.deferred "d" (some rest))
  let reading (pending : List Item) (s : Stream) : Stream := Stream.converting ⟨.dateTimeStamp, .one⟩ pending false s
  let arrived : World := { arrivals := values }
  have harrives : streamStep env (.ofDepth env 0) (reading [] s) arrived =
    ((.skip, reading [] (input [lexical])), arrived) := rfl
  have htaken : streamStep env (.ofDepth env 0) (reading [] (input [lexical])) arrived =
    ((.skip, reading [stamp] (input [])), arrived) := rfl
  have hdelivered : streamStep env (.ofDepth env 0) (reading [stamp] (input [])) arrived =
    ((.item stamp, Stream.finished ⟨.dateTimeStamp, .one⟩ .empty), arrived) := rfl
  have hreport : untilReport (streamStep env (.ofDepth env 0)) 3 (reading [] s) arrived =
      ((.item stamp, Stream.finished ⟨.dateTimeStamp, .one⟩ .empty), arrived) := by
    rw [untilReport_skip harrives, untilReport_skip htaken, untilReport_report hdelivered nofun]
  exact .cons 1 rfl nofun (.cons 3 hreport nofun (.cons 1 rfl nofun (.nil _ _)))

end LazyXPath
