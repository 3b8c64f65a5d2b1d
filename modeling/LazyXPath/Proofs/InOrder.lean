import LazyXPath.Proofs.Combinator
import LazyXPath.Proofs.Schedule

/-!
# Combinators that read in order

The combinators that read their inputs in order have the semantics of functions on lists, under every
schedule (`inOrder_semantics`): each is a stream whose run is that function of the runs of its inputs,
and each calls its callback once for every item that is delivered to it, right after the item, or at
most once with all items. The calls are seen from a log in which deliveries and calls are noted; no
assumption about the input, the callback or the changes of the world is made for them.
-/

namespace LazyXPath

variable {W α β γ σ τ : Type}

/-! ### Calls item by item -/

/-- A log in which every item is followed by the call for it. -/
def calledEach (xs : List α) : List (Notice α α) := xs.flatMap fun x => [.delivered x, .called x]

/-- A log stays as it is, or grows by an item and the call for it. -/
def GrowsByCall (log log' : List (Notice α α)) : Prop :=
  log' = log ∨ ∃ x, log' = log ++ [.delivered x, .called x]

namespace GrowsByCall

private theorem item {log log' : List (Notice α α)} {x : α} (h : log' = log ++ [.delivered x] ++ [.called x]) :
    GrowsByCall log log' :=
  .inr ⟨x, by rw [h, List.append_assoc]; rfl⟩

private theorem calledEach {log log' : List (Notice α α)} (h : GrowsByCall log log')
    (hl : ∃ xs, log = calledEach xs) : ∃ xs, log' = LazyXPath.calledEach xs := by
  obtain ⟨xs, rfl⟩ := hl
  obtain rfl | ⟨x, rfl⟩ := h
  · exact ⟨xs, rfl⟩
  · exact ⟨xs ++ [x], by simp [LazyXPath.calledEach]⟩

end GrowsByCall

section

variable (pull : σ → StateM W (Outcome α × σ))

private theorem Step.mapping_calls (f : γ → α → StateM W (Except Error β × γ)) (c : γ × σ)
    (p : W × List (Notice α α)) :
    GrowsByCall p.2 (mapping (fun g => notingCalls (f g)) (notingItems pull) c p).2.2 := by
  obtain ⟨g, s⟩ := c
  obtain ⟨w, log⟩ := p
  obtain ⟨x, s', w', hp⟩ | ⟨o, s', w', ho, hp⟩ := notingItems_cases pull s w log
  · obtain ⟨⟨_ | y, g'⟩, w'', hc⟩ := exists_notingCalls (f g) x w' (log ++ [.delivered x])
    · exact .item (by rw [mapping_error hp hc])
    · exact .item (by rw [mapping_ok hp hc])
  · exact .inl (by rw [mapping_pass hp ho])

private theorem Step.filtering_calls (f : γ → α → StateM W (Except Error Bool × γ)) (c : γ × σ)
    (p : W × List (Notice α α)) :
    GrowsByCall p.2 (filtering (fun g => notingCalls (f g)) (notingItems pull) c p).2.2 := by
  obtain ⟨g, s⟩ := c
  obtain ⟨w, log⟩ := p
  obtain ⟨x, s', w', hp⟩ | ⟨o, s', w', ho, hp⟩ := notingItems_cases pull s w log
  · obtain ⟨⟨_ | b, g'⟩, w'', hc⟩ := exists_notingCalls (f g) x w' (log ++ [.delivered x])
    · exact .item (by rw [filtering_error hp hc])
    · exact .item (by rw [filtering_ok hp hc])
  · exact .inl (by rw [filtering_pass hp ho])

private theorem Step.flattening_calls (f : γ → α → StateM W (Except Error τ × γ))
    (pullInner : τ → StateM W (Outcome β × τ)) (c : γ × σ × Option τ) (p : W × List (Notice α α)) :
    GrowsByCall p.2 (flattening (fun g => notingCalls (f g)) (notingItems pull) (unnoted pullInner)
      c p).2.2 := by
  obtain ⟨g, s, _ | t⟩ := c <;> obtain ⟨w, log⟩ := p
  · obtain ⟨x, s', w', hp⟩ | ⟨o, s', w', ho, hp⟩ := notingItems_cases pull s w log
    · obtain ⟨⟨_ | t, g'⟩, w'', hc⟩ := exists_notingCalls (f g) x w' (log ++ [.delivered x])
      · exact .item (by rw [flattening_error hp hc])
      · exact .item (by rw [flattening_ok hp hc])
    · exact .inl (by rw [flattening_outer hp ho])
  · obtain ⟨⟨o, t'⟩, w', hp⟩ := exists_unnoted pullInner t w log
    by_cases ho : o = .done
    · subst ho
      exact .inl (by rw [flattening_done hp])
    · exact .inl (by rw [flattening_inner hp ho])

end

/-- A stream over a cursor whose steps call the callback for every item does so under every
schedule. -/
theorem play_calledEach {κ : Type} {step : κ → StateM (W × List (Notice α α)) (Outcome β × κ)}
    (h : ∀ c p, GrowsByCall p.2 (step c p).2.2) (moves : List (W → W)) (c : κ) (w : W) :
    ∃ xs, (play (StreamOf.pull step) (besideLog moves) (.run c) (w, [])).2.2.2 = calledEach xs := by
  refine play_invariant (I := fun _ (p : W × List (Notice α α)) => ∃ xs, p.2 = calledEach xs) ?_ ?_ ⟨[], rfl⟩
  · intro m hm s p hp
    obtain ⟨m, -, rfl⟩ := List.mem_map.mp hm
    exact hp
  · intro s p hp
    obtain ⟨_ | ⟨x, ahead⟩, status⟩ := s
    · cases status with
      | running c => exact (h c p).calledEach hp
      | done | failed => exact hp
    · exact hp

/-! ### One call with all items -/

/-- A log in which the items are followed by at most one call, which is with all of them. -/
def CalledOnce (log : List (Notice α (List α))) : Prop :=
  ∃ xs, log = xs.map .delivered ∨ log = xs.map .delivered ++ [.called xs]

/-- The log of a stream that collects items: as long as it does so, there is no call. -/
def CollectLog (s : StreamOf β (List α × σ ⊕ List β)) (log : List (Notice α (List α))) : Prop :=
  match s.status with
  | .running (.inl (seen, _)) => log = seen.reverse.map .delivered
  | _ => CalledOnce log

private theorem CollectLog.calledOnce {s : StreamOf β (List α × σ ⊕ List β)} {log : List (Notice α (List α))}
    (h : CollectLog s log) : CalledOnce log := by
  unfold CollectLog at h
  split at h
  · exact ⟨_, .inl h⟩
  · exact h

section

variable (f : List α → StateM W (Except Error (List β))) (pull : σ → StateM W (Outcome α × σ))

/-- One pull while items are collected. -/
theorem collectLog_collecting (seen : List α) (s : σ) (w : W) {q}
    (h : StreamOf.pull (Step.collecting (notingCalls f) (notingItems pull)) (.run (.inl (seen, s)))
      (w, seen.reverse.map .delivered) = q) : CollectLog q.1.2 q.2.2 := by
  subst h
  obtain ⟨x, s', w', hp⟩ | ⟨o, s', w', ho, hp⟩ :=
    notingItems_cases (ι := List α) pull s w (seen.reverse.map .delivered)
  · rw [StreamOf.pull_run (Step.collecting_item hp)]
    simp [CollectLog, StreamOf.statusAfter]
  · by_cases hd : o = .done
    · subst hd
      obtain ⟨_ | ys, w'', hc⟩ := exists_notingCalls f seen.reverse w' (seen.reverse.map .delivered)
      · rw [StreamOf.pull_run (Step.collecting_error hp hc)]
        exact ⟨_, .inr rfl⟩
      · rw [StreamOf.pull_run (Step.collecting_ok hp hc)]
        exact ⟨_, .inr rfl⟩
    · rw [StreamOf.pull_run (Step.collecting_pass hp ho hd)]
      cases o with
      | item x => exact absurd rfl (ho x)
      | done => exact absurd rfl hd
      | failed e => exact ⟨_, .inl rfl⟩
      | suspended d => exact rfl
      | skip => exact rfl

/-- One pull of a stream that collects items. -/
theorem collectLog_pull (s : StreamOf β (List α × σ ⊕ List β)) (p : W × List (Notice α (List α)))
    (h : CollectLog s p.2) :
    CollectLog (StreamOf.pull (Step.collecting (notingCalls f) (notingItems pull)) s p).1.2
      (StreamOf.pull (Step.collecting (notingCalls f) (notingItems pull)) s p).2.2 := by
  have hc : CalledOnce p.2 := h.calledOnce
  obtain ⟨_ | ⟨y, ahead⟩, status⟩ := s
  · rcases status with (⟨seen, s⟩ | (_ | ⟨y, ys⟩)) | _ | e
    · obtain ⟨w, log⟩ := p
      obtain rfl : log = _ := h
      exact collectLog_collecting f pull seen s w rfl
    · exact hc
    · exact hc
    · exact hc
    · exact hc
  · exact h

private theorem play_calledOnce (moves : List (W → W)) (s : σ) (w : W) :
    CalledOnce (play (StreamOf.pull (Step.collecting (notingCalls f) (notingItems pull)))
      (besideLog moves) (.run (.inl ([], s))) (w, [])).2.2.2 := by
  refine CollectLog.calledOnce (play_invariant
    (I := fun s (p : W × List (Notice α (List α))) => CollectLog s p.2) ?_ (collectLog_pull f pull) rfl)
  intro m hm s p hp
  obtain ⟨m, -, rfl⟩ := List.mem_map.mp hm
  exact hp

end

/-! ### The semantics -/

/-- **List semantics of the combinators that read in order.** Let a sequence have a run, under the
schedules of a frame. Then the streams of the combinators over it have the runs that the functions on
lists give: the items after a function up to its first failure, those that pass a test, the sequences
made from the items one after the other, the first items whatever follows them, the items each replaced
by several ones with nothing of an item for which this fails, and what a function makes of all items if
the sequence comes to its end. Sequences one after the other have their runs one after the other.

Moreover, for every schedule of any changes at all, every item that is delivered to a callback is
followed at once by the only call for it, and a function of all items is called at most once, with all
items and after them. -/
theorem inOrder_semantics {F : Frame W} {pull : σ → StateM W (Outcome α × σ)} {ω : F.Situation} {s : σ}
    {r : Run α} (h : Runs F pull ω s r) :
    (∀ {β γ : Type} (f : γ → α → StateM W (Except Error β × γ)) (φ : γ → α → Except Error β × γ) (g : γ),
      ((∀ g, F.Answers ω (f g) (φ g)) →
        Runs F (StreamOf.pull (Step.mapping f pull)) ω (.run (g, s)) (r.map φ g)) ∧
      ∀ moves w, ∃ xs, (play (StreamOf.pull (Step.mapping (fun g => notingCalls (f g))
        (notingItems pull))) (besideLog moves) (.run (g, s)) (w, [])).2.2.2 = calledEach xs) ∧
    (∀ {γ : Type} (f : γ → α → StateM W (Except Error Bool × γ)) (φ : γ → α → Except Error Bool × γ)
      (g : γ),
      ((∀ g, F.Answers ω (f g) (φ g)) →
        Runs F (StreamOf.pull (Step.filtering f pull)) ω (.run (g, s)) (r.filter φ g)) ∧
      ∀ moves w, ∃ xs, (play (StreamOf.pull (Step.filtering (fun g => notingCalls (f g))
        (notingItems pull))) (besideLog moves) (.run (g, s)) (w, [])).2.2.2 = calledEach xs) ∧
    (∀ {β γ τ : Type} (pullInner : τ → StateM W (Outcome β × τ))
      (f : γ → α → StateM W (Except Error τ × γ)) (φ : γ → α → Run β × γ) (g : γ),
      ((∀ g x, F.Gives pullInner ω (f g x) (·, (φ g x).2) (φ g x).1) →
        Runs F (StreamOf.pull (Step.flattening f pull pullInner)) ω (.run (g, s, none))
          (r.flatMap φ g)) ∧
      ∀ moves w, ∃ xs, (play (StreamOf.pull (Step.flattening (fun g => notingCalls (f g))
        (notingItems pull) (unnoted pullInner))) (besideLog moves) (.run (g, s, none))
        (w, [])).2.2.2 = calledEach xs) ∧
    (∀ ss rs, List.Forall₂ (Runs F pull ω) ss rs →
      Runs F (StreamOf.pull (Step.joining pull)) ω (.run ss) (Run.concat rs)) ∧
    (∀ n, Runs F (StreamOf.pull (Step.taking pull)) ω (.run (n, s)) (r.take n)) ∧
    (∀ {β : Type} (f : α → Except Error (List β)),
      Runs F (StreamOf.pull (Step.expanding f pull)) ω (.run ([], s)) (r.expand f)) ∧
    ∀ {β : Type} (f : List α → StateM W (Except Error (List β))) (φ : List α → Except Error (List β)),
      (F.Answers ω f φ →
        Runs F (StreamOf.pull (Step.collecting f pull)) ω (.run (.inl ([], s))) (r.collect φ)) ∧
      ∀ moves w, CalledOnce (play (StreamOf.pull (Step.collecting (notingCalls f) (notingItems pull)))
        (besideLog moves) (.run (.inl ([], s))) (w, [])).2.2.2 := by
  refine ⟨fun f φ g => ⟨fun hf => ?_, fun moves w => ?_⟩, fun f φ g => ⟨fun hf => ?_, fun moves w => ?_⟩,
    fun pullInner f φ g => ⟨fun hf => ?_, fun moves w => ?_⟩, fun ss rs hs => ?_, fun n => ?_,
    fun f => ?_, fun f φ => ⟨fun hf => ?_, fun moves w => ?_⟩⟩
  · exact StreamOf.runs_run (mapping_runs hf h g)
  · exact play_calledEach (Step.mapping_calls pull f) moves (g, s) w
  · exact StreamOf.runs_run (filtering_runs hf h g)
  · exact play_calledEach (Step.filtering_calls pull f) moves (g, s) w
  · exact StreamOf.runs_run (flattening_runs (.of_forall hf g r.items) h)
  · exact play_calledEach (Step.flattening_calls pull f pullInner) moves (g, s, none) w
  · exact StreamOf.runs_run (joining_runs hs)
  · exact StreamOf.runs_run (taking_runs h n)
  · exact StreamOf.runs_run (expanding_runs h)
  · exact StreamOf.runs_run (collecting_runs hf h)
  · exact play_calledOnce f pull moves s w

/-- Twice the items of a sequence that waits for something. -/
theorem inOrder_semantics_awaiting :
    Runs .latch (StreamOf.pull (Step.mapping (fun (_ : Unit) (n : Nat) => pure (.ok (2 * n), ()))
      awaiting)) false (.run ((), [1, 2])) (.complete [2, 4]) :=
  ((inOrder_semantics (awaiting_runs false [1, 2])).1 _ (fun _ n => (.ok (2 * n), ())) ()).1
    fun _ _ w _ => ⟨w, rfl, rfl⟩

end LazyXPath
