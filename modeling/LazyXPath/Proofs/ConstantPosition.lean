import LazyXPath.Proofs.Production.Call
import LazyXPath.Proofs.Refinement

/-!
# Constant positions

A predicate that is an integer is not evaluated for each item. Only so many items are taken as are needed, and the last
one is kept. `constantPosition_shortcut` says what this gives for every run of the base, also for one that fails or of
which only a part is known: the item at the position and then the end, or the end of the base if the item is missing.
For a base that comes to its end this is the run of the predicate.

Nothing is pulled beyond the item (`filtered_pullsWhile`). This is a fact about steps and not about runs: the base is
pulled once in each step until the last item that is needed, and never again.
-/

namespace LazyXPath

/-- The run of the item at a position, counted from one. A run that is too short goes on as it does. -/
def Run.atPosition {α : Type} (k : Int) (r : Run α) : Run α :=
  if k ≤ 0 then .complete []
  else
    match r.items[k.toNat - 1]? with
    | some x => .complete [x]
    | none => ⟨[], r.tail⟩

/-! ### Runs of the first items -/

section

variable {W α γ σ : Type} {F : Regime W} {pull : σ → StateM W (Outcome α × σ)} {ω : F.Situation} {s : σ} {r : Run α}

private theorem taking_zero_produces (ω : F.Situation) (s : σ) (r : Run α) :
    Produces F (Step.taking pull) ω (0, s) (r.take 0) := by
  have hr : r.take 0 = .complete [] := by simp [Run.take, Run.complete]
  rw [hr]
  exact produces_complete_iff.mpr (taking_zero_delivers ω s)

/-- The first items produce the first part of the run. -/
theorem taking_produces (h : Produces F pull ω s r) (n : Nat) :
    Produces F (Step.taking pull) ω (n, s) (r.take n) := by
  cases n with
  | zero => exact taking_zero_produces ω s r
  | succ n =>
    refine Produces.simulate (e := fun n s => (n + 1, s)) (H := fun _ _ _ => True)
      (R := fun n r => r.take (n + 1)) (fun _ _ => trivial) (fun ho _ hp => Step.taking_pass hp ho)
      (fun _ => rfl) (fun _ => rfl) ?_ ?_ trivial h
    · intro ω₀ ω ω' n s s' x xs t _ ih hp he hv h
      rw [Run.take_succ_cons]
      refine .reported (Step.taking_item hp) he (.item hv ?_)
      cases n with
      | zero => exact taking_zero_produces ω' s' ⟨xs, t⟩
      | succ n => exact ih trivial h
    · intro ω₀ ω ω' n s s' _ hp he hv
      exact .reported (Step.taking_pass hp nofun) he (.done hv)

/-- What passes a test that cannot fail, with the tail of the run. -/
theorem filtering_produces {f : γ → α → StateM W (Except Error Bool × γ)} {φ : γ → α → Bool × γ}
    (hf : ∀ g x w, f g x w = ((.ok (φ g x).1, (φ g x).2), w)) (h : Produces F pull ω s r) (g : γ) :
    Produces F (Step.filtering f pull) ω (g, s) ⟨passing φ g r.items, r.tail⟩ := by
  refine Produces.simulate (e := Prod.mk) (H := fun _ _ _ => True) (R := fun g r => ⟨passing φ g r.items, r.tail⟩)
    (fun _ _ => trivial) (fun ho _ hp => Step.filtering_pass hp ho) (fun _ => rfl) (fun _ => rfl) ?_ ?_ trivial h
  · intro ω₀ ω ω' g s s' x xs t _ ih hp he hv h
    have hp' := Step.filtering_ok hp (hf g x (F.world ω'))
    simp only [passing]
    cases hb : (φ g x).1 with
    | true =>
      rw [hb] at hp'
      exact .reported hp' he (.item hv (ih trivial h))
    | false =>
      rw [hb] at hp'
      exact .skip hp' he ⟨hv, ih trivial h⟩
  · intro ω₀ ω ω' g s s' _ hp he hv
    exact .reported (Step.filtering_pass hp fun _ h => by cases h) he (.done hv)

end

section

variable {env : Environment} {F : Regime (World × Nat)} {ω : F.Situation} {s : Stream} {r : Run Item}

private theorem take_produces (n : Nat) (h : Produces F (streamPull env) ω s r) :
    Produces F (streamPull env) ω (s.take n) (r.take n) :=
  StreamOf.produces_run ((taking_produces h n).embed (fun p => Cursor.take p.1 p.2) (cursorStep_take env))

private theorem only_produces (k : Nat) (h : Produces F (streamPull env) ω s r) :
    Produces F (streamPull env) ω (s.filter (.only k 0)) ⟨passing (isNext k) 0 r.items, r.tail⟩ := by
  have hf := filtering_produces
    (f := fun n x => pure (.ok (isNext k n x).1, (isNext k n x).2)) (fun _ _ _ => rfl) h 0
  exact StreamOf.produces_run (hf.embed (fun p => Cursor.filter (.only k p.1) p.2) (cursorStep_only env k))

/-- Among the items that come after the first `n`, the one at a position that is still to come. -/
theorem passing_isNext_of_lt {k n : Nat} (h : n < k) (xs : List Item) :
    passing (isNext k) n xs = xs[k - n - 1]?.toList := by
  induction xs generalizing n with
  | nil => rfl
  | cons x xs ih =>
    have hnext : isNext k n x = (decide (n + 1 = k), n + 1) := rfl
    rw [passing, hnext]
    by_cases hk : n + 1 = k
    · have hfirst : k - n - 1 = 0 := by omega
      rw [passing_isNext_nil (Nat.le_of_eq hk.symm), hfirst, if_pos (decide_eq_true hk)]
      rfl
    · have hlater : k - n - 1 = k - (n + 1) - 1 + 1 := by omega
      rw [ih (by omega), hlater, List.getElem?_cons_succ]
      exact if_neg fun hd => hk (of_decide_eq_true hd)

/-- What the first items and the last one of them come to. -/
theorem Run.only_take_eq_atPosition {k : Int} (hk : 0 < k) (r : Run Item) :
    ⟨passing (isNext k.toNat) 0 (r.take k.toNat).items, (r.take k.toNat).tail⟩ = r.atPosition k := by
  have hpos : 0 < k.toNat := by omega
  rw [passing_isNext_of_lt hpos, Nat.sub_zero, atPosition, if_neg (Int.not_le.mpr hk)]
  by_cases hlength : k.toNat ≤ r.items.length
  · have hlast : k.toNat - 1 < r.items.length := by omega
    have hlast' : k.toNat - 1 < k.toNat := by omega
    simp only [take, if_pos hlength, List.getElem?_take_of_lt hlast', List.getElem?_eq_getElem hlast]
    rfl
  · have hlast : r.items.length ≤ k.toNat - 1 := by omega
    simp only [take, if_neg hlength, List.getElem?_eq_none hlast]
    rfl

private theorem constantFilter_produces {k : Int} (hk : 0 < k) (h : Produces F (streamPull env) ω s r) :
    Produces F (streamPull env) ω (constantFilter k.toNat s) (r.atPosition k) := by
  rw [← Run.only_take_eq_atPosition hk]
  exact only_produces k.toNat (take_produces k.toNat h)

/-! ### The predicate for each item -/

/-- The predicate that is a constant, evaluated with the focus on each item of a complete list. -/
theorem forEachFocus_constant_produces {base : Expr} {scope : Scope} (k : Int) {xs : List Item}
    {size : Option Nat} (hsize : s.exactSize? = .ok size) (h : Produces F (streamPull env) ω s (.complete xs)) :
    Produces F (streamPull env) ω (forEachFocus .filter base (.literal (.integer .integer k)) scope s)
      ((Run.complete xs).atPosition k) := by
  have hrun : (Run.complete xs).atPosition k = .complete (if 0 < k then passing (isNext k.toNat) 0 xs else []) := by
    by_cases hk : 0 < k
    · have hpos : 0 < k.toNat := by omega
      rw [if_pos hk, passing_isNext_of_lt hpos, Nat.sub_zero, Run.atPosition, if_neg (Int.not_le.mpr hk)]
      cases hx : xs[k.toNat - 1]? <;> simp only [Run.complete, hx] <;> rfl
    · rw [if_neg hk, Run.atPosition, if_pos (Int.not_lt.mp hk)]
  rw [hrun]
  refine produces_complete_iff.mpr (focus_delivers ?_ (forEach_constant k 0 xs) hsize
    (produces_complete_iff.mp h))
  intro x i size sequence ys hy
  obtain ⟨b, hb, hy⟩ := Option.bind_eq_some_iff.mp hy
  cases hy
  exact .of_pure (fun _ => rfl) (keep_delivers hb (one_delivers ω _) x)

end

/-! ### Steps -/

section

variable {env : Environment} {E : Engine} {s s' t t' : Stream} {w w' : World} {o o' : Outcome Item}
  {moves : List (World → World)} {move : World → World}

/-- A stream that is over leaves the world alone. -/
theorem play_of_over {t : Stream} (ht : ∀ w, ∃ o, streamStep env E t w = ((o, t), w)) (moves : List (World → World))
    (w : World) : (play (streamStep env E) moves t w).2.2 = moves.foldl (fun w m => m w) w := by
  induction moves generalizing w with
  | nil => rfl
  | cons m moves ih =>
    obtain ⟨o, ho⟩ := ht (m w)
    simp only [play, ho, List.foldl_cons]
    exact ih (m w)

variable (env E) in
/-- Along a schedule, a stream pulls its input once after each change of a first part of the schedule, and never again.
The items that have come before the last pull are as `P` says. -/
def PullsWhile (P : List Item → Prop) (t s : Stream) (moves : List (World → World)) (w : World) : Prop :=
  ∃ before after, moves = before ++ after ∧
    (play (streamStep env E) moves t w).2.2 =
      after.foldl (fun w change => change w) (play (streamStep env E) before s w).2.2 ∧
    ∀ os o, (play (streamStep env E) before s w).1 = os ++ [o] → P (os.filterMap Outcome.item?)

namespace PullsWhile

variable {P Q : List Item → Prop}

/-- A stream that leaves the world alone does not pull. -/
theorem never (h : (play (streamStep env E) moves t w).2.2 = moves.foldl (fun w m => m w) w) :
    PullsWhile env E P t s moves w :=
  ⟨[], moves, rfl, h, fun os o h => by simp [play] at h⟩

/-- A step that is a pull of the input. -/
theorem cons (hs : streamStep env E s (move w) = ((o, s'), w'))
    (ht : streamStep env E t (move w) = ((o', t'), w')) (hnil : P [])
    (hP : ∀ xs, Q xs → P (o.item?.toList ++ xs)) (h : PullsWhile env E Q t' s' moves w') :
    PullsWhile env E P t s (move :: moves) w := by
  obtain ⟨before, after, rfl, hworld, hitems⟩ := h
  refine ⟨move :: before, after, rfl, ?_, fun os o₁ h => ?_⟩
  · simp only [play, hs, ht]
    exact hworld
  · cases os with
    | nil => exact hnil
    | cons o₂ os =>
      simp only [play, hs, List.cons_append, List.cons.injEq] at h
      obtain ⟨rfl, hrest⟩ := h
      have hcons : (o :: os).filterMap Outcome.item? = o.item?.toList ++ os.filterMap Outcome.item? := by
        cases ho : o.item? <;> simp [ho]
      rw [hcons]
      exact hP _ (hitems os o₁ hrest)

/-- A step that is the last pull. -/
theorem last (hs : streamStep env E s (move w) = ((o, s'), w'))
    (ht : streamStep env E t (move w) = ((o', t'), w')) (hnil : P [])
    (hidle : (play (streamStep env E) moves t' w').2.2 = moves.foldl (fun w m => m w) w') :
    PullsWhile env E P t s (move :: moves) w := by
  refine ⟨[move], moves, rfl, ?_, fun os o₁ h => ?_⟩
  · simp only [play, hs, ht]
    exact hidle
  · cases os with
    | nil => exact hnil
    | cons => simp [play] at h

end PullsWhile

/-- The state of a filter for a constant position: `n` items have been seen, and `m` may still be taken. -/
def filtered (k n m : Nat) (s : Stream) : Stream := .run (.filter (.only k n) (.run (.take m s)))

/-- If no item may be taken any more, then the filter is over without a pull of its input. -/
theorem streamStep_filtered_zero (k n : Nat) (s : Stream) (w : World) :
    streamStep env E (filtered k n 0 s) w = ((.done, .empty), w) := rfl

variable (env E) in
/-- Otherwise a step of the filter is a pull of its input. It is over, or one item less may be taken if there was one. -/
theorem streamStep_filtered_succ (k n m : Nat) (s : Stream) (w : World) :
    ∃ o t, streamStep env E (filtered k n (m + 1) s) w = ((o, t), (streamStep env E s w).2) ∧
      ((∀ w, ∃ o, streamStep env E t w = ((o, t), w)) ∨ ∃ n', t = filtered k n'
        (m + 1 - (streamStep env E s w).1.1.item?.toList.length) (streamStep env E s w).1.2) := by
  rcases hs : streamStep env E s w with ⟨⟨o, s'⟩, w'⟩
  -- the filter pulls the first items, and these pull the input
  simp only [filtered, StreamOf.run, streamStep, statusStep, Cursor.step, Step.filter, Step.take, bind, StateT.bind, hs]
  cases o with
  | item x =>
    refine ⟨if n + 1 = k then .item x else .skip, filtered k (n + 1) m s', ?_, .inr ⟨n + 1, rfl⟩⟩
    by_cases hk : n + 1 = k <;> simp only [Selector.apply, hk] <;> rfl
  | done => exact ⟨.done, .empty, rfl, .inl fun _ => ⟨.done, rfl⟩⟩
  | failed e => exact ⟨.failed e, .failed e, rfl, .inl fun _ => ⟨.failed e, rfl⟩⟩
  | suspended d => exact ⟨.suspended d, filtered k n (m + 1) s', rfl, .inr ⟨n, rfl⟩⟩
  | skip => exact ⟨.skip, filtered k n (m + 1) s', rfl, .inr ⟨n, rfl⟩⟩

/-- Along a schedule, the filter pulls its input until so many items have come as may be taken. -/
theorem filtered_pullsWhile (k n m : Nat) (s : Stream) (moves : List (World → World)) (w : World) :
    PullsWhile env E (fun xs => xs.length < m) (filtered k n m s) s moves w := by
  induction moves generalizing n m s w with
  | nil => exact .never rfl
  | cons move moves ih =>
    cases m with
    | zero =>
      refine .never ?_
      simp only [play, streamStep_filtered_zero, List.foldl_cons]
      exact play_of_over (t := .empty) (fun _ => ⟨.done, rfl⟩) moves (move w)
    | succ m =>
      have hstep := streamStep_filtered_succ env E k n m s (move w)
      rcases hs : streamStep env E s (move w) with ⟨⟨o, s'⟩, w'⟩
      rw [hs] at hstep
      obtain ⟨o', t, hstep, hover | ⟨n', rfl⟩⟩ := hstep
      · exact .last hs hstep (Nat.succ_pos m) (play_of_over hover moves w')
      · refine .cons hs hstep (Nat.succ_pos m) (fun xs h => ?_) (ih n' _ s' w')
        simp only at h
        rw [List.length_append]
        omega

end

/-! ### The item at a position -/

section

variable {env : Environment} {F : Regime (World × Nat)} {ω : F.Situation} {scope : Scope} {e : Expr} {r : Run Item}

/-- **The shortcut for constant positions.** Let the evaluation of a base give a run. Then the item at a constant
position comes with the end after it; a base that is too short ends as it does without an item; and a position that is
not positive gives nothing, without the base. If the base comes to its end, then this is also the run of the predicate
that is evaluated for each item. Whatever happens in between, the base is not pulled any more when the item at the
position has come. -/
theorem constantPosition_shortcut (k : Int)
    (h : F.Calls env ω (atDepth env fun E => do return .ok (← evaluate env E scope e)) r) :
    F.Calls env ω (atDepth env fun E => do
      return .ok (← evaluate env E scope (.filter e (.literal (.integer .integer k))))) (r.atPosition k) ∧
    (r.tail = .done → F.Calls env ω (atDepth env fun E => do
      return .ok (forEachFocus .filter e (.literal (.integer .integer k)) scope (← evaluate env E scope e)))
      (r.atPosition k)) ∧
    ∀ E w,
      (k ≤ 0 → evaluate env E scope (.filter e (.literal (.integer .integer k))) w = (.empty, w)) ∧
      (0 < k → ∃ s t w', evaluate env E scope e w = (s, w') ∧
        evaluate env E scope (.filter e (.literal (.integer .integer k))) w = (t, w') ∧
        ∀ moves, ∃ before after, moves = before ++ after ∧
          (play (streamStep env E) moves t w').2.2 =
            after.foldl (fun w move => move w) (play (streamStep env E) before s w').2.2 ∧
          ∀ os o, (play (streamStep env E) before s w').1 = os ++ [o] →
            (os.filterMap Outcome.item?).length < k.toNat) := by
  have hnone (E : Engine) (w : World) (hk : k ≤ 0) :
      evaluate env E scope (.filter e (.literal (.integer .integer k))) w = (.empty, w) := by
    simp only [evaluate, Expr.constantPosition?, if_neg (Int.not_lt.mpr hk)]
    rfl
  have hsome (E : Engine) (hk : 0 < k) : evaluate env E scope (.filter e (.literal (.integer .integer k))) =
      do return constantFilter k.toNat (← evaluate env E scope e) := by
    simp only [evaluate, Expr.constantPosition?, if_pos hk]
  have hfresh (ω₁ : F.Situation) : Stream.Fresh (atDepth env (fun E => evaluate env E scope e) (F.world ω₁)).1 :=
    evaluate_fresh (Engine.ofDepth_makesFresh env _) scope e _
  refine ⟨?_, fun ht => h.through_of hfresh fun ω s _ hf hs => ?_, fun E w => ⟨hnone E w, fun hk => ?_⟩⟩
  · by_cases hk : 0 < k
    · have hcalls := h.through fun ω s _ hs => constantFilter_produces hk hs
      simp only [hsome _ hk, bind_assoc, pure_bind]
      exact hcalls
    · have hk : k ≤ 0 := Int.not_lt.mp hk
      intro ω₁ h₁ hv
      refine ⟨.ok .empty, ω₁, ?_, F.effect_of_drift (F.drift_of_valid hv), hv, ?_⟩
      · simp only [atDepth, bind, StateT.bind, hnone _ _ hk]
        rfl
      · rw [Run.atPosition, if_pos hk]
        exact produces_complete_iff.mpr (empty_delivers ω₁)
  · obtain ⟨xs, rfl⟩ : ∃ xs, r = .complete xs := ⟨r.items, by rw [Run.complete, ← ht]⟩
    obtain ⟨size, hsize⟩ := hf.exactSize?_eq_ok
    exact forEachFocus_constant_produces k hsize hs
  · rcases hs : evaluate env E scope e w with ⟨s, w'⟩
    refine ⟨s, constantFilter k.toNat s, w', rfl, ?_, fun moves => filtered_pullsWhile k.toNat 0 k.toNat s moves w'⟩
    rw [hsome E hk]
    simp only [bind, StateT.bind, hs]
    rfl

end

/-- The second of three values that arrive late. -/
theorem constantPosition_shortcut_deferred :
    let F := regime ⟨{}, {}⟩ [("d", .ok [.ofInt 7, .ofInt 8, .ofInt 9])] 0
    let ω : F.Situation := ⟨fun _ => none, {}, 1⟩
    let e : Expr := .deferred "d"
    F.Calls ⟨{}, {}⟩ ω (atDepth ⟨{}, {}⟩ fun E => do return .ok (← evaluate ⟨{}, {}⟩ E (.root default) e))
      (.complete [.ofInt 7, .ofInt 8, .ofInt 9]) ∧
    F.Calls ⟨{}, {}⟩ ω (atDepth ⟨{}, {}⟩ fun E => do
      return .ok (← evaluate ⟨{}, {}⟩ E (.root default) (.filter e (.literal (.integer .integer 2)))))
      (.complete [.ofInt 8]) ∧
    F.Calls ⟨{}, {}⟩ ω (atDepth ⟨{}, {}⟩ fun E => do
      return .ok (forEachFocus .filter e (.literal (.integer .integer 2)) (.root default)
        (← evaluate ⟨{}, {}⟩ E (.root default) e))) (.complete [.ofInt 8]) := by
  intro F ω e
  have hbase : F.Calls ⟨{}, {}⟩ ω
      (atDepth ⟨{}, {}⟩ fun E => do return .ok (← evaluate ⟨{}, {}⟩ E (.root default) e))
      (.complete [.ofInt 7, .ofInt 8, .ofInt 9]) := fun ω₁ _ hv =>
    ⟨.ok (.run (.deferred "d" none)), ω₁, rfl, F.effect_of_drift (F.drift_of_valid hv), hv,
      produces_complete_iff.mpr (deferred_delivers rfl)⟩
  obtain ⟨hshort, hgeneral, -⟩ := constantPosition_shortcut 2 hbase
  exact ⟨hbase, hshort, hgeneral rfl⟩

end LazyXPath
