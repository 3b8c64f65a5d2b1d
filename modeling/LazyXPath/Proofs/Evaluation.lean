import LazyXPath.Proofs.Refinement

/-!
# Evaluation under every schedule

The main result about evaluation, `evaluate_refines_eager`: if an expression has a value by eager
evaluation, then its stream shows exactly this value and then the end, whenever the values arrive that it
waits for. A **schedule** says which values arrive before each step of the stream.
-/

namespace LazyXPath

/-! ### Arrivals -/

/-- The world after the arrival of some of the values. -/
def World.arrive (values : List (DeferredId × Except Error (List Item))) (ds : List DeferredId)
    (w : World) : World :=
  { w with arrivals := w.arrivals ++ ds.filterMap fun d => (values.lookup d).map (d, ·) }

section

variable {env : Environment} {values : List (DeferredId × Except Error (List Item))} {k : Nat}

private theorem lookup_arrived (ds : List DeferredId) (d : DeferredId) :
    (ds.filterMap fun d => (values.lookup d).map (d, ·)).lookup d =
      if d ∈ ds then values.lookup d else none := by
  induction ds with
  | nil => rfl
  | cons d' ds ih =>
    by_cases hd : d = d'
    · subst hd
      rw [if_pos (.head ds)]
      cases hv : values.lookup d with
      | none =>
        rw [List.filterMap_cons, hv, Option.map_none, ih, hv]
        exact ite_self none
      | some v => rw [List.filterMap_cons, hv, Option.map_some, List.lookup_cons_self]
    · have hmem : d ∈ d' :: ds ↔ d ∈ ds := by simp [hd]
      rw [if_congr hmem rfl rfl, ← ih]
      cases hv : values.lookup d' with
      | none => rw [List.filterMap_cons, hv, Option.map_none]
      | some v =>
        have hne : (d == d') = false := beq_false_of_ne hd
        rw [List.filterMap_cons, hv, Option.map_some, List.lookup_cons, hne]

theorem lookup_arrive (w : World) (ds : List DeferredId) (d : DeferredId) :
    (w.arrive values ds).arrivals.lookup d =
      (w.arrivals.lookup d).or (if d ∈ ds then values.lookup d else none) := by
  rw [World.arrive, List.lookup_append, lookup_arrived]

/-- The situation after the arrival of some of the values. -/
def Situation.arrive (ω : Situation) (values : List (DeferredId × Except Error (List Item)))
    (ds : List DeferredId) : Situation :=
  { ω with world := ω.world.arrive values ds }

theorem Moves.arrive {S : BufferId → Nat → Prop} {ω : Situation} (h : ω.Sane values)
    (ds : List DeferredId) : Moves values S ω (ω.arrive values ds) where
  evolves := by
    refine ⟨fun _ _ h => h, fun d v hd => ?_, fun _ β hβ => ⟨β, hβ, Nat.le_refl _⟩⟩
    rw [Situation.arrive, lookup_arrive, hd, Option.some_or]
  sane := by
    refine ⟨fun d v hd => ?_, h.operators, h.pledged⟩
    rw [Situation.arrive, lookup_arrive] at hd
    cases hw : ω.world.arrivals.lookup d with
    | some v' =>
      rw [hw, Option.some_or] at hd
      exact h.arrivals d v (hw.trans hd)
    | none =>
      rw [hw, Option.none_or] at hd
      split at hd
      · exact hd
      · cases hd
  kept _ _ hp _ := ⟨hp, rfl⟩

/-- Values may arrive at any time. -/
theorem permits_arrive (ds : List DeferredId) :
    (regime env values k).Permits fun p => (p.1.arrive values ds, p.2) :=
  fun ω h => ⟨ω.arrive values ds, ⟨.arrive h.1.sane ds, rfl⟩, rfl⟩

end

/-! ### What a stream shows -/

/-- Whether an outcome is an item, the end or an error. -/
def Outcome.isReport {α : Type} : Outcome α → Bool
  | .item _ | .done | .failed _ => true
  | .suspended _ | .skip => false

/-- Up to the end, the reports are the items of the list. -/
theorem Run.Allows.filter_isReport {α : Type} {xs : List α} {os : List (Outcome α)}
    (h : (Run.complete xs).Allows (os ++ [.done])) (ho : Outcome.done ∉ os) :
    (os ++ [Outcome.done]).filter Outcome.isReport = xs.map Outcome.item ++ [.done] := by
  induction os generalizing xs with
  | nil =>
    obtain _ | _ | ⟨next, -⟩ := h
    cases next
    rfl
  | cons o os ih =>
    have ho' : Outcome.done ∉ os := fun hmem => ho (.tail o hmem)
    rw [List.cons_append] at h
    obtain _ | _ | ⟨next, rest⟩ := h
    cases next with
    | item x xs t =>
      have hrest : (Run.complete xs).Allows (os ++ [.done]) := rest id
      rw [List.cons_append, List.filter_cons_of_pos rfl, ih hrest ho']
      rfl
    | skip | suspended =>
      have hrest : (Run.complete xs).Allows (os ++ [.done]) := rest id
      rw [List.cons_append, List.filter_cons_of_neg Bool.false_ne_true, ih hrest ho']
    | done => exact absurd (.head os) ho

section

variable {W α σ : Type} {pull : σ → StateM W (Outcome α × σ)} {moves : Nat → W → W} {s : σ} {w : W}

/-- If the end is reported, then there is a first time. -/
theorem exists_first_done {n : Nat} (h : .done ∈ (play pull ((List.range n).map moves) s w).1) :
    ∃ m os, (play pull ((List.range m).map moves) s w).1 = os ++ [.done] ∧ Outcome.done ∉ os := by
  induction n with
  | zero => cases h
  | succ n ih =>
    by_cases hn : .done ∈ (play pull ((List.range n).map moves) s w).1
    · exact ih hn
    have hr : (List.range (n + 1)).map moves = (List.range n).map moves ++ [moves n] := by
      simp [List.range_succ]
    refine ⟨n + 1, (play pull ((List.range n).map moves) s w).1, ?_, hn⟩
    rw [hr, play_append] at h ⊢
    obtain h | h := List.mem_append.mp h
    · exact absurd h hn
    · exact congrArg _ (congrArg (fun o => [o]) (List.mem_singleton.mp h).symm)

end

/-- What the steps of a stream show under a schedule: before each step some of the values arrive. -/
def shown (env : Environment) (values : List (DeferredId × Except Error (List Item))) (depth : Nat)
    (schedule : List (List DeferredId)) (s : Stream) (w : World) : List (Outcome Item) :=
  (play (Engine.ofDepth env depth).step (schedule.map (World.arrive values)) s w).1

section

variable {env : Environment} {values : List (DeferredId × Except Error (List Item))} {k : Nat}

/-- The steps of the engine under a schedule, beside the depth. -/
theorem play_step_eq (env : Environment) (depth : Nat) (moves : List (World → World)) (s : Stream) (w : World) :
    (play (Engine.ofDepth env (depth + 1)).step moves s w).1 =
      (play (streamPull env) (moves.map fun m p => (m p.1, p.2)) s (w, depth)).1 := by
  induction moves generalizing s w with
  | nil => rfl
  | cons m moves ih =>
    obtain ⟨o, s', w', h, h'⟩ := exists_streamStep env s (m w) depth
    have hstep : (Engine.ofDepth env (depth + 1)).step s (m w) = ((o, s'), w') := h
    simp only [List.map_cons, play, hstep, h']
    exact congrArg _ (ih s' w')

private theorem shown_eq (depth : Nat) (schedule : List (List DeferredId)) (s : Stream) (w : World) :
    shown env values (depth + 1) schedule s w = (play (streamPull env)
      (schedule.map fun ds p => (p.1.arrive values ds, p.2)) s (w, depth)).1 := by
  rw [shown, play_step_eq, List.map_map]
  rfl

private theorem shown_range (depth : Nat) (schedule : Nat → List DeferredId) (s : Stream) (w : World) (n : Nat) :
    shown env values (depth + 1) ((List.range n).map schedule) s w = (play (streamPull env)
      ((List.range n).map fun i p => (p.1.arrive values (schedule i), p.2)) s (w, depth)).1 := by
  rw [shown_eq, List.map_map]
  rfl

/-- Every value arrives by some step of a schedule. -/
theorem exists_arrived {schedule : Nat → List DeferredId}
    (h : ∀ d v, values.lookup d = some v → ∃ n, d ∈ schedule n) :
    ∃ N, ∀ d v, values.lookup d = some v → ∃ n < N, d ∈ schedule n := by
  suffices hall : ∀ l : List DeferredId, (∀ d ∈ l, ∃ n, d ∈ schedule n) →
      ∃ N, ∀ d ∈ l, ∃ n < N, d ∈ schedule n by
    obtain ⟨N, hN⟩ := hall ((values.map (·.1)).filter fun d => (values.lookup d).isSome) fun d hd => by
      obtain ⟨v, hv⟩ := Option.isSome_iff_exists.mp (List.mem_filter.mp hd).2
      exact h d v hv
    refine ⟨N, fun d v hv => hN d (List.mem_filter.mpr ⟨?_, by rw [hv, Option.isSome_some]⟩)⟩
    obtain ⟨l₁, l₂, hl, -⟩ := List.lookup_eq_some_iff.mp hv
    exact List.mem_map.mpr ⟨(d, v), hl ▸ List.mem_append_right l₁ (.head l₂), rfl⟩
  intro l
  induction l with
  | nil => exact fun _ => ⟨0, nofun⟩
  | cons d l ih =>
    intro hl
    obtain ⟨n, hn⟩ := hl d (.head l)
    obtain ⟨N, hN⟩ := ih fun d hd => hl d (.tail _ hd)
    refine ⟨max (n + 1) N, List.forall_mem_cons.mpr ⟨⟨n, by omega, hn⟩, fun d hd => ?_⟩⟩
    obtain ⟨m, hm, hmem⟩ := hN d hd
    exact ⟨m, by omega, hmem⟩

/-- A stream that delivers a list shows it under every schedule. -/
theorem Delivers.shows {ω : Situation} {s : Stream} {xs : List Item}
    (h : Delivers (regime env values k) (streamPull env) ω s xs) (hv : (regime env values k).Valid ω) :
    (∀ schedule, (Run.complete xs).Allows (shown env values (ω.depth + 1) schedule s ω.world)) ∧
      ∀ schedule : Nat → List DeferredId, (∀ d v, values.lookup d = some v → ∃ n, d ∈ schedule n) →
        ∃ n, (shown env values (ω.depth + 1) ((List.range n).map schedule) s ω.world).filter
          Outcome.isReport = xs.map Outcome.item ++ [.done] := by
  have hd : Delivering (regime env values k) (streamPull env) ω s xs := h.delivering hv
  have allows (schedule : List (List DeferredId)) :
      (Run.complete xs).Allows (shown env values (ω.depth + 1) schedule s ω.world) := by
    rw [shown_eq]
    refine hd.play_allows fun m hm => ?_
    obtain ⟨ds, -, rfl⟩ := List.mem_map.mp hm
    exact permits_arrive ds
  refine ⟨allows, fun schedule hs => ?_⟩
  obtain ⟨N, hN⟩ := exists_arrived hs
  have hm (i : Nat) : (regime env values k).Permits fun p => (p.1.arrive values (schedule i), p.2) :=
    permits_arrive (schedule i)
  suffices hdone : ∃ n, Outcome.done ∈ (play (streamPull env)
      ((List.range n).map fun i p => (p.1.arrive values (schedule i), p.2)) s (ω.world, ω.depth)).1 by
    obtain ⟨n, hn⟩ := hdone
    obtain ⟨m, os, hos, hno⟩ := exists_first_done hn
    have hshown := allows ((List.range m).map schedule)
    rw [← shown_range] at hos
    refine ⟨m, ?_⟩
    rw [hos] at hshown ⊢
    exact hshown.filter_isReport hno
  -- after the first `N` steps all values are there
  have hfirst := hd.play_first hm (P := fun i (ω : Situation) => ∀ d ∈ schedule i, ∀ v,
    values.lookup d = some v → ω.world.arrivals.lookup d = some v) ?_ ?_ N
  · obtain hdone | ⟨os, s', ω', ys, hp, hd', hall⟩ := hfirst
    · exact ⟨N, hdone⟩
    have hsettled : (regime env values k).settled ω' := by
      intro d v hv
      obtain ⟨n, hn, hmem⟩ := hN d v hv
      exact hall n hn d hmem v hv
    obtain ⟨m, hdone⟩ := hd'.play_ends hsettled fun i => hm (N + i)
    exact ⟨N + m, mem_play_add hp hdone⟩
  · intro i ω ω₁ h₁ hw d hmem v hv
    have hw : ω₁.world = ω.world.arrive values (schedule i) := congrArg Prod.fst hw
    cases ha : ω.world.arrivals.lookup d with
    | some v' =>
      have ha₁ := h₁.1.evolves.arrivals d v' ha
      rw [ha₁, ← h₁.1.sane.arrivals d v' ha₁, hv]
    | none => rw [hw, lookup_arrive, ha, Option.none_or, if_pos hmem, hv]
  · intro i ω ω₁ h₁ hP d hmem v hv
    exact h₁.arrivals d v (hP d hmem v hv)

end

/-! ### Contexts to begin with -/

/-- The context of a scope as far as it is at hand: the focus, and the variables that hold items. -/
def Scope.atHand (scope : Scope) : Context where
  value? x :=
    match scope.value? x with
    | some (.items xs) => some xs
    | _ => none
  focus := scope.focus?.map fun f => (f.item, f.position)

section

variable {env : Environment} {values : List (DeferredId × Except Error (List Item))} {k : Nat}
  {ω : Situation}

private theorem items_opens (xs : List Item) :
    (regime env values k).Opens (streamPull env) ω (atDepth env fun E => E.replay (.items xs)) id xs := by
  intro ω₁ h₁ hv
  have hsane := (standard env values k).sane hv.2
  refine ⟨.ofList xs, ω₁, ?_, ⟨.refl hsane, rfl⟩, hv, ofList_delivers (F := regime env values k) ω₁ xs⟩
  obtain ⟨depth, hd⟩ := exists_depth_eq hv
  simp only [atDepth, hd]
  rfl

private theorem presents_atHand (scope : Scope) : Presents env values k ω scope scope.atHand := by
  refine ⟨rfl, fun x xs hx => ?_⟩
  cases hr : scope.value? x with
  | none => simp [Scope.atHand, hr] at hx
  | some r =>
    cases r with
    | items ys =>
      obtain rfl : ys = xs := by simpa [Scope.atHand, hr] using hx
      exact ⟨.items ys, rfl, items_opens ys⟩
    | buffered | evaluated | regenerated | produced => simp [Scope.atHand, hr] at hx

/-- As long as nothing is shared, everything is in order. -/
theorem holds_of_unshared (h : ω.Sane values) (hp : ∀ b, ω.pledges b = none) :
    (standard env values k).holds ω := by
  refine standard_holds_iff.mpr ⟨h, fun b p hb => ?_⟩
  rw [hp b] at hb
  cases hb

end

/-! ### Evaluation -/

section

variable {env : Environment} {values : List (DeferredId × Except Error (List Item))} {k depth : Nat}
  {ω : Situation} {scope : Scope} {ctx : Context} {e : Expr} {xs : List Item}

/-- **Lazy evaluation refines eager evaluation.** Let a scope present a context in a world whose shared
buffers are in order, and let an expression have a value in this context when all values have arrived.
Then there is a stream of the expression, whatever has arrived so far. Under every schedule of arrivals,
the stream shows the items of the value in order and then the end, and nothing else but suspensions and
steps without a report. If all values arrive at some time, it comes to its end.

The engine has to be deeper than the number of bindings in the expression and the rank of the scope. -/
theorem evaluate_refines_eager (hg : env.forest.Grounded)
    (hω : (standard env values (k + Expr.bindings e)).holds ω) (hp : Presents env values k ω scope ctx)
    (hx : eager env.forest values ctx e = some xs) (hd : k + Expr.bindings e + 1 < depth) :
    ∃ s w, evaluate env (.ofDepth env depth) scope e ω.world = (s, w) ∧
      (∀ schedule, (Run.complete xs).Allows (shown env values depth schedule s w)) ∧
      ∀ schedule : Nat → List DeferredId, (∀ d v, values.lookup d = some v → ∃ n, d ∈ schedule n) →
        ∃ n, (shown env values depth ((List.range n).map schedule) s w).filter Outcome.isReport =
          xs.map .item ++ [.done] := by
  have hsane := (standard env values (k + Expr.bindings e)).sane hω
  have hm : Moves values (fun _ r => r < k + Expr.bindings e) ω { ω with depth } := .atDepth hsane depth
  have hv : (regime env values (k + Expr.bindings e)).Valid { ω with depth } :=
    ⟨Nat.lt_of_succ_lt hd, (standard env values (k + Expr.bindings e)).stable hω hm⟩
  obtain ⟨s, ω', hs, he, hv', hdel⟩ := refined hg e hp hx _ hm.evolves hv
  -- the stream is pulled by the engine that evaluates, which steps by the engine below
  have hm' := Moves.atDepth (S := fun _ r => r < k + Expr.bindings e) he.1.sane (depth - 1)
  have hbelow : (regime env values (k + Expr.bindings e)).Valid { ω' with depth := depth - 1 } :=
    ⟨Nat.lt_sub_of_add_lt hd, (standard env values (k + Expr.bindings e)).stable hv'.2 hm'⟩
  have hdel := Delivers.later (F := regime env values (k + Expr.bindings e)) hdel hm'.evolves
  have hshows := hdel.shows hbelow
  have hsucc : depth - 1 + 1 = depth := by omega
  rw [hsucc] at hshows
  refine ⟨s, ω'.world, ?_, hshows⟩
  have hs : atDepth env (fun E => evaluate env E scope e) (ω.world, depth) = (s, ω'.world, ω'.depth) := hs
  have hs₁ : (evaluate env (.ofDepth env depth) scope e ω.world).1 = s := congrArg Prod.fst hs
  have hs₂ : (evaluate env (.ofDepth env depth) scope e ω.world).2 = ω'.world :=
    congrArg (fun p => p.2.1) hs
  exact Prod.ext hs₁ hs₂

end

/-- A value that arrives late and is shared by two readers. -/
theorem evaluate_refines_eager_shared : ∃ s w,
    evaluate ⟨{}, {}⟩ (.ofDepth ⟨{}, {}⟩ 3) (.root default)
      (.letIn default (.deferred "d") (.sequence [.varRef default, .varRef default])) {} = (s, w) ∧
    ∃ n, (shown ⟨{}, {}⟩ [("d", .ok [.ofInt 7])] 3
      ((List.range n).map fun i => if i = 5 then ["d"] else []) s w).filter Outcome.isReport =
        [.item (.ofInt 7), .item (.ofInt 7), .done] := by
  have hg : (Environment.mk {} {}).forest.Grounded := nofun
  have hsane : Situation.Sane [("d", .ok [.ofInt 7])] ⟨fun _ => none, {}, 3⟩ :=
    ⟨fun _ v h => absurd h (Option.some_ne_none v).symm, fun _ h => absurd h List.not_mem_nil,
      fun _ p h => absurd h (Option.some_ne_none p).symm⟩
  have hx : eager {} [("d", .ok [.ofInt 7])] (Scope.root default).atHand
      (.letIn default (.deferred "d") (.sequence [.varRef default, .varRef default])) =
        some [.ofInt 7, .ofInt 7] := by
    simp [eager, eagerAll, Context.bind, Except.toOption]
  have hd : 0 + Expr.bindings (.letIn default (.deferred "d")
      (.sequence [.varRef default, .varRef default])) + 1 < 3 := by
    simp [Expr.bindings, Expr.bindingsAll]
  obtain ⟨s, w, hs, -, hf⟩ := evaluate_refines_eager hg (holds_of_unshared hsane fun _ => rfl)
    (presents_atHand (.root default)) hx hd
  refine ⟨s, w, hs, hf _ fun d v hd => ⟨5, ?_⟩⟩
  by_cases hne : d = "d"
  · exact hne ▸ .head _
  · rw [List.lookup_cons, beq_false_of_ne hne] at hd
    cases hd

end LazyXPath
