import LazyXPath.Function.Catalog
import LazyXPath.Proofs.ConstantPosition
import LazyXPath.Proofs.Counting
import LazyXPath.Proofs.Evaluation
import LazyXPath.Proofs.PartialApplication

/-!
# Positions and sizes in a focus

The focus on an item of a sequence knows the position of the item. The number of items is known in advance if the
bounds of the sequence determine it. Otherwise the sequence is evaluated once more when the number is asked for, in the
same scope as before, and the items are counted. Both evaluations read the same shared buffers, each at its own pace.

* Where the bounds determine a number, it is the number of items that come (`exactSize?_eq_length`). This needs that the
  lengths are true which hosts claim for their scripts. That there are bounds need not be assumed, because a stream that
  has just been evaluated is fresh.
* The evaluation for the sake of counting takes place two engines below the one that asks (`counted_size_opens`): the
  call is one engine below, and the sequence one further. So the rank grows by two.

An expression **repeats** a list if every evaluation of it delivers this list (`Repeats`). Then the positions, the sizes
and the last item are what they ought to be, and each of them is repeated in turn (`focus_positions_and_sizes`). This
holds also if the items are still to arrive, or are in buffers that others are reading. A claim that is not true is
believed, and a number that is no 64-bit integer is refused (`last_not_length`).
-/

namespace LazyXPath

/-! ### Accounts of deliveries -/

section

variable {W α κ : Type} {F : Regime W} {step : κ → StateM W (Outcome α × κ)} {A : Account step} {ω : F.Situation}
  {seen xs : List α} {s : StreamOf α κ}

/-- An account holds when something is reported. -/
theorem Account.Holds.reported {Q : Outcome α → F.Situation → StreamOf α κ → Prop} (ha : A.Holds seen s)
    (hω : F.drift ω ω) (h : Reports F (StreamOf.pull step) Q ω s) :
    ∃ o ω' s', Q o ω' s' ∧ F.evolves ω ω' ∧ A.Holds (seen ++ o.item?.toList) s' ∧ (o = .done → s' = .empty) := by
  refine h.induction (P := fun ω s => F.drift ω ω → A.Holds seen s → ∃ o ω' s', Q o ω' s' ∧ F.evolves ω ω' ∧
    A.Holds (seen ++ o.item?.toList) s' ∧ (o = .done → s' = .empty)) ?_ hω ha
  intro ω s h hω ha
  obtain ⟨o, s', ω', hp, he, hy, hq⟩ := h ω hω
  have ha' := ha.pulled hp
  by_cases ho : o = .skip
  · subst ho
    obtain ⟨o, ω₁, s₁, hQ, h₁, ha₁, hd⟩ := (hy rfl).2 (F.drift_of_effect he) (List.append_nil seen ▸ ha')
    exact ⟨o, ω₁, s₁, hQ, F.evolves_trans (F.evolves_of_effect he) h₁, ha₁, hd⟩
  · refine ⟨o, ω', s', hq ho, F.evolves_of_effect he, ha', ?_⟩
    rintro rfl
    exact StreamOf.eq_of_pull_done hp

/-- When nothing is outstanding, the account of the end holds of everything that is delivered. -/
theorem Delivers.ended (h : Delivers F (StreamOf.pull step) ω s xs) (hv : F.Valid ω) (hs : F.settled ω)
    (ha : A.Holds seen s) : A.ended (seen ++ xs) := by
  induction xs generalizing ω seen s with
  | nil =>
    obtain ⟨o, ω', s', hc, -, ha', hd⟩ := ha.reported (F.drift_of_valid hv) (h.reports (F.evolves_refl ω) hv)
    cases hc with
    | done =>
      obtain rfl := hd rfl
      simpa [Account.Holds, StreamOf.empty, Outcome.item?] using ha'
    | suspended _ hns => exact absurd hs hns
  | cons x xs ih =>
    obtain ⟨o, ω', s', hc, h', ha', -⟩ := ha.reported (F.drift_of_valid hv) (h.reports (F.evolves_refl ω) hv)
    cases hc with
    | item hv' hd =>
      have he := ih hd hv' (F.settled_of_evolves h' hs) ha'
      simpa [Outcome.item?] using he
    | suspended _ hns => exact absurd hs hns

end

/-! ### Known sizes -/

section

variable {env : Environment} {values : List (DeferredId × Except Error (List Item))} {k : Nat} {ω : Situation}
  {s : Stream} {xs : List Item} {n : Nat}

/-- When all values have arrived, nothing is outstanding. -/
theorem arrive_settled (h : ω.Sane values) :
    (regime env values k).settled (ω.arrive values (values.map Prod.fst)) := by
  intro d v hd
  have hmem : d ∈ values.map Prod.fst := by
    obtain ⟨l₁, l₂, hl, -⟩ := List.lookup_eq_some_iff.mp hd
    exact List.mem_map.mpr ⟨(d, v), hl ▸ List.mem_append_right l₁ (.head l₂), rfl⟩
  rw [Situation.arrive, lookup_arrive, if_pos hmem, hd]
  cases ha : ω.world.arrivals.lookup d with
  | none => rfl
  | some v' =>
    have hv' := h.arrivals d v' ha
    rw [hd] at hv'
    exact hv'.symm

/-- **Known sizes are right**: a number that the bounds of a stream determine is that of the items it delivers. -/
theorem exactSize?_eq_length (h : Delivers (regime env values k) (streamPull env) ω s xs)
    (hv : (regime env values k).Valid ω) (ht : s.Truthful) (hn : s.exactSize? = .ok (some n)) : n = xs.length := by
  have hT (c : Cursor) (hc : Cursor.tally.sound c) : Ensures (cursorStep env c) (Cursor.tally.Admits c) :=
    fun p => c.step_admits env (.ofDepth env p.2) hc p.1
  have hb := Stream.bounds_of_exactSize? hn
  have hstart := Tally.account_start hT ((Stream.truthful_iff s).mp ht)
  rw [hb] at hstart
  -- the items do not depend on when the values arrive, so let all of them arrive at once
  have hsane := (standard env values k).sane hv.2
  have hm (S : BufferId → Nat → Prop) := Moves.arrive (S := S) hsane (values.map Prod.fst)
  have hv' := (regime env values k).valid_of_drift hv ⟨hm _, rfl⟩
  have hl : (SizeHint.exactly n).Loses xs.length (.exactly 0) :=
    (Delivers.later (F := regime env values k) h (hm fun _ _ => True).evolves).ended hv' (arrive_settled hsane) hstart
  exact hl.eq_of_exactly.symm

end

/-! ### Evaluations and calls -/

section

variable {env : Environment} {F : Regime (World × Nat)} {ω : F.Situation} {f : Engine → Action Stream}
  {xs ys : List Item}

/-- A failure to make a stream is found in the stream. -/
theorem Regime.Calls.opens {f : Engine → Action (Except Error Stream)}
    (h : F.Calls env ω (atDepth env f) (.complete xs)) :
    F.Opens (streamPull env) ω (atDepth env fun E => do return .orFailed (← f E)) id xs := by
  intro ω₁ h₁ hv
  obtain ⟨result, ω₂, hf, he, hv₂, hp⟩ := h ω₁ h₁ hv
  obtain ⟨hresult, hworld⟩ := Prod.mk.inj hf
  exact ⟨.orFailed result, ω₂, Prod.ext (congrArg Stream.orFailed hresult) hworld, he, hv₂,
    produces_complete_iff.1 hp⟩

/-- An action that gives a stream, as one that may fail to. -/
theorem Regime.Opens.calls (h : F.Opens (streamPull env) ω (atDepth env f) id xs) :
    F.Calls env ω (atDepth env fun E => do return .ok (← f E)) (.complete xs) := by
  intro ω₁ h₁ hv
  obtain ⟨s, ω₂, hf, he, hv₂, hd⟩ := h ω₁ h₁ hv
  obtain ⟨hs, hworld⟩ := Prod.mk.inj hf
  exact ⟨.ok s, ω₂, Prod.ext (congrArg Except.ok hs) hworld, he, hv₂, produces_complete_iff.2 hd⟩

end

/-- A name stands for a function of the catalog that takes no arguments and gives an integer. -/
def Registry.Denotes (r : Registry) (space : Option String) (name : Name) (b : Builtin) : Prop :=
  ∃ f, r.resolve name 0 space = .ok [f] ∧ f.callable = .builtin b ∧ f.signature = ⟨[], none, ⟨.integer, .one⟩⟩

private theorem Registry.standard_denotes_position (space : Option String) :
    Registry.Denotes .standard space (.inSpace .functions "position") .position :=
  ⟨_, rfl, rfl, rfl⟩

private theorem Registry.standard_denotes_last (space : Option String) :
    Registry.Denotes .standard space (.inSpace .functions "last") .last :=
  ⟨_, rfl, rfl, rfl⟩

section

variable {env : Environment} {values : List (DeferredId × Except Error (List Item))} {k : Nat} {ω : Situation}
  {scope : Scope} {e : Expr} {xs : List Item} {name : Name} {b : Builtin} {i : Int}

/-- A sequence that is evaluated once more, by the engine below. -/
theorem replay_opens (h : (regime env values k).Opens (streamPull env) ω (atDepth env fun E => evaluate env E scope e)
    id xs) : (regime env values (k + 1)).Opens (streamPull env) ω
      (atDepth env fun E => E.replay (.evaluated e scope)) id xs := by
  intro ω₁ h₁ hv
  obtain ⟨result, ω₂, hf, he, hv₂, hp⟩ := calls_below h.calls ω₁ h₁ hv
  obtain ⟨depth, hd⟩ := exists_depth_eq hv
  simp only [belowDepth, hd] at hf
  obtain ⟨hresult, hworld⟩ := Prod.mk.inj hf
  rw [← hresult] at hp
  refine ⟨_, ω₂, Prod.ext ?_ ?_, he, hv₂, produces_complete_iff.1 hp⟩
  · simp only [atDepth, hd]
    rfl
  · simp only [atDepth, hd]
    exact hworld

/-- A call without arguments of a name that stands for one function. -/
theorem evaluate_call_nil {f : Function} (hr : env.registry.resolve name 0 scope.settings.functionSpace = .ok [f])
    (hf : f.signature.accepts 0) (E : Engine) :
    evaluate env E scope (.call name []) = do return .orFailed (← E.call f scope []) := by
  have hinvoke : E.callNamed env.registry name scope [] = E.call f scope [] := by
    simp only [Engine.callNamed, List.length_nil, hr, Engine.invokeAny, Engine.invoke, if_pos hf]
    rfl
  rw [← hinvoke]
  rfl

/-- A call of a function of the catalog without arguments. -/
theorem called_opens (hb : env.registry.Denotes scope.settings.functionSpace name b)
    (h : (regime env values k).Calls env ω (belowDepth env fun E => b.apply env E scope []) (.complete [.ofInt i])) :
    (regime env values k).Opens (streamPull env) ω (atDepth env fun E => evaluate env E scope (.call name [])) id
      [.ofInt i] := by
  obtain ⟨f, hr, hf, hsignature⟩ := hb
  have happly : (fun E => applyFunction env E f scope []) = fun E => b.apply env E scope [] := by
    simp only [applyFunction, hf]
  have hconvert : (Run.complete [(.ofInt i : Item)]).convert env.forest f.signature.returns = .complete [.ofInt i] := by
    rw [hsignature]
    exact Run.convert_complete rfl
  have haccepts : f.signature.accepts 0 := by
    rw [hsignature]
    rfl
  rw [← happly] at h
  have hcall := h.call
  rw [hconvert] at hcall
  simp only [evaluate_call_nil hr haccepts]
  exact hcall.opens

/-- An answer that is at hand. -/
theorem calls_of_pure {f : Engine → Action (Except Error Stream)} {x : Item}
    (hf : ∀ E w, f E w = (.ok (.one x), w)) :
    (regime env values k).Calls env ω (belowDepth env f) (.complete [x]) := by
  intro ω₁ _ hv
  obtain ⟨depth, hd⟩ := exists_depth_eq hv
  refine ⟨.ok (.one x), ω₁, ?_, ⟨.refl ((standard env values k).sane hv.2), rfl⟩, hv,
    produces_complete_iff.2 (one_delivers (F := regime env values k) ω₁ x)⟩
  simp only [belowDepth, hd, hf]

private theorem measured_eq_ok {n : Nat} (hn : n < twoTo 63) (m : Measure) :
    measured m n = .ok (.ofInt n) :=
  if_pos hn

/-- The position of a focus. -/
theorem position_opens {x : Item} {position : Nat} {size : Option Nat} {sequence : Option Replay}
    (hname : env.registry.Denotes scope.settings.functionSpace name .position) (hp : position < twoTo 63) :
    (regime env values k).Opens (streamPull env) ω (atDepth env fun E =>
      evaluate env E (scope.withFocus ⟨x, position, size, sequence⟩) (.call name [])) id [.ofInt position] := by
  refine called_opens hname (calls_of_pure fun E w => ?_)
  have hstream : Builtin.positionStream (scope.withFocus ⟨x, position, size, sequence⟩) = .ok (.one (.ofInt position)) := by
    have hm := measured_eq_ok hp .contextPosition
    simp only [Builtin.positionStream, Scope.contextPosition, Scope.withFocus, Scope.focus?, bind, Except.bind, hm]
    rfl
  simp only [Builtin.apply, hstream]
  rfl

/-- The number of items of a focus, if it is known. -/
theorem known_size_opens {x : Item} {position n : Nat} {sequence : Option Replay}
    (hname : env.registry.Denotes scope.settings.functionSpace name .last) (hn : n < twoTo 63) :
    (regime env values k).Opens (streamPull env) ω (atDepth env fun E =>
      evaluate env E (scope.withFocus ⟨x, position, some n, sequence⟩) (.call name [])) id [.ofInt n] := by
  refine called_opens hname (calls_of_pure fun E w => ?_)
  simp only [Builtin.apply, contextSize, Scope.withFocus, Scope.focus?, measured_eq_ok hn]
  rfl

/-- The number of items of a focus, if they have to be counted. -/
theorem counted_size_opens {x : Item} {position : Nat}
    (hname : env.registry.Denotes scope.settings.functionSpace name .last) (hn : xs.length < twoTo 63)
    (h : (regime env values k).Opens (streamPull env) ω (atDepth env fun E => evaluate env E scope e) id xs) :
    (regime env values (k + 2)).Opens (streamPull env) ω (atDepth env fun E =>
      evaluate env E (scope.withFocus ⟨x, position, none, some (.evaluated e scope)⟩) (.call name [])) id
      [.ofInt xs.length] := by
  have hcount : (regime env values (k + 1)).Opens (streamPull env) ω (atDepth env fun E => do
      return (← E.replay (.evaluated e scope)).collect .contextSize) id [.ofInt xs.length] :=
    opens_map id (Stream.collect .contextSize) (replay_opens h) fun _ _ _ hs =>
      collect_delivers (fun w => by rw [Collector.apply, measured_eq_ok hn]; rfl) hs
  exact called_opens hname (calls_below hcount.calls)

/-- The number of items of a focus, whether it is known or not. -/
theorem size_opens {size : Option Nat} (x : Item) (position : Nat)
    (hname : env.registry.Denotes scope.settings.functionSpace name .last) (hn : xs.length < twoTo 63)
    (h : (regime env values k).Opens (streamPull env) ω (atDepth env fun E => evaluate env E scope e) id xs)
    (hs : ∀ n, size = some n → n = xs.length) :
    (regime env values (k + 2)).Opens (streamPull env) ω (atDepth env fun E =>
      evaluate env E (scope.withFocus ⟨x, position, size, if size.isNone then some (.evaluated e scope) else none⟩)
        (.call name [])) id [.ofInt xs.length] := by
  cases size with
  | some n =>
    obtain rfl := hs n rfl
    exact known_size_opens hname hn
  | none => exact counted_size_opens hname hn h

end

/-! ### Positions and sizes -/

/-- Each item of a list gives a list of its own. -/
theorem forEach_of_forall {α : Type} {f : α → Option (List Item)} {g : α → List Item} {xs : List α}
    (h : ∀ x ∈ xs, f x = some (g x)) : forEach xs f = some (xs.flatMap g) := by
  induction xs with
  | nil => rfl
  | cons x xs ih =>
    rw [forEach_cons (h x (.head xs)) (ih fun y hy => h y (.tail x hy)), List.flatMap_cons]

/-- The item whose position is the number of items is the last one. The predicate is a constant, although it is not
written as one. -/
theorem forEach_length (xs : List Item) :
    forEach (xs.zipIdx 1) (fun (x, i) => do
    let b ← Item.truth? (some i) [.atomic (.integer .integer xs.length)]
    return if b then [x] else []) = some xs.getLast?.toList := by
  rw [forEach_constant xs.length 0 xs, List.getLast?_eq_getElem?]
  cases xs with
  | nil => rfl
  | cons x xs =>
    have hpos : 0 < (x :: xs).length := Nat.succ_pos _
    rw [if_pos (Int.natCast_pos.mpr hpos), Int.toNat_natCast, passing_isNext_of_lt hpos, Nat.sub_zero]

section

variable (env : Environment) (values : List (DeferredId × Except Error (List Item)))

/-- From a situation on, every evaluation of an expression gives a stream that delivers the same list. The lengths that
are claimed in the stream are true. -/
structure Repeats (k : Nat) (ω : Situation) (scope : Scope) (e : Expr) (xs : List Item) : Prop where
  opens : (regime env values k).Opens (streamPull env) ω (atDepth env fun E => evaluate env E scope e) id xs
  truthful : ∀ ω₁, Evolves ω ω₁ → (regime env values k).Valid ω₁ →
    Stream.Truthful (evaluate env (.ofDepth env ω₁.depth) scope e ω₁.world).1

end

section

variable {env : Environment} {values : List (DeferredId × Except Error (List Item))} {k : Nat} {ω : Situation}
  {scope : Scope} {e : Expr} {xs ys : List Item} {name : Name}

/-- Nothing is claimed about the number of items that come of a focus on each item. -/
theorem forEachFocus_truthful (role : FocusRole) (base body : Expr) (scope : Scope) (s : Stream) :
    (forEachFocus role base body scope s).Truthful := by
  unfold forEachFocus
  split <;> trivial

/-- What an evaluation shows under every schedule of arrivals. -/
theorem Repeats.shows (h : Repeats env values k ω scope e xs) (hv : (regime env values k).Valid ω) :
    ∃ s w, evaluate env (.ofDepth env ω.depth) scope e ω.world = (s, w) ∧
      (∀ schedule, (Run.complete xs).Allows (shown env values (ω.depth + 1) schedule s w)) ∧
      ∀ schedule : Nat → List DeferredId, (∀ d v, values.lookup d = some v → ∃ n, d ∈ schedule n) →
        ∃ n, (shown env values (ω.depth + 1) ((List.range n).map schedule) s w).filter Outcome.isReport =
          xs.map .item ++ [.done] := by
  obtain ⟨s, ω₁, hs, he, hv₁, hd⟩ := h.opens ω (.refl ω) hv
  obtain ⟨hstream, hworld⟩ := Prod.mk.inj hs
  have hshows := hd.shows hv₁
  rw [he.2] at hshows
  exact ⟨s, ω₁.world, Prod.ext hstream (congrArg Prod.fst hworld), hshows⟩

/-- An expression with the focus on each item of a list that is repeated. -/
theorem Repeats.forEachFocus_opens (role : FocusRole) {body : Expr} {f : Item × Nat → Option (List Item)}
    (he : Repeats env values k ω scope e xs) (hy : forEach (xs.zipIdx 1) f = some ys)
    (hf : ∀ ω₁ size x i zs, Evolves ω ω₁ → (∀ n, size = some n → n = xs.length) →
      f (x, i) = some zs → (regime env values (k + 2)).Opens (streamPull env) ω₁ (atDepth env fun E =>
        focusOn env E role body (scope.withFocus ⟨x, i, size,
          if size.isNone then some (.evaluated e scope) else none⟩) x i) .ok zs) :
    (regime env values (k + 2)).Opens (streamPull env) ω (atDepth env fun E => do
      return forEachFocus role e body scope (← evaluate env E scope e)) id ys := by
  have hle : k ≤ k + 2 := Nat.le_add_right k 2
  refine opens_map_of (P := fun s => s.Truthful ∧ s.Fresh) (opens_of_le hle he.opens) ?_ ?_
  · intro ω₁ h₁ hv
    refine ⟨he.truthful ω₁ h₁ (valid_of_le hle hv), ?_⟩
    exact evaluate_fresh (Engine.ofDepth_makesFresh env _) scope e _
  · rintro ω₁ s h₁ hv ⟨ht, hfresh⟩ hd
    obtain ⟨size, hsize⟩ := hfresh.exactSize?_eq_ok
    have hlength (n : Nat) (hn : size = some n) : n = xs.length :=
      exactSize?_eq_length hd hv ht (hn ▸ hsize)
    exact forEachFocus_delivers (fun x i zs hz => hf ω₁ size x i zs h₁ hlength hz) hy hsize hd

/-- **Positions and sizes.** Let every evaluation of an expression deliver a list, whose length is a 64-bit integer. Then
the positions of its items are the numbers from one to the length; the size that is seen from each item is the length,
whether the bounds of the stream determine it or the expression is evaluated once more; and the item whose position is the
size is the last one. The same holds of every evaluation of these expressions, whatever has arrived before it and
whatever else is reading the buffers that they read. -/
theorem focus_positions_and_sizes {position last : Name}
    (hposition : env.registry.Denotes scope.settings.functionSpace position .position)
    (hlast : env.registry.Denotes scope.settings.functionSpace last .last)
    (he : Repeats env values k ω scope e xs) (hn : xs.length < twoTo 63) :
    Repeats env values (k + 2) ω scope (.simpleMap e (.call position []))
      ((List.range' 1 xs.length).map fun (i : Nat) => .ofInt i) ∧
    Repeats env values (k + 2) ω scope (.simpleMap e (.call last []))
      (List.replicate xs.length (.ofInt xs.length)) ∧
    Repeats env values (k + 2) ω scope (.filter e (.call last [])) xs.getLast?.toList := by
  have hsize {ω₁ : Situation} {size : Option Nat} {x : Item} {i : Nat} (h₁ : Evolves ω ω₁)
      (hs : ∀ n, size = some n → n = xs.length) :=
    size_opens x i hlast hn (Regime.Opens.later (F := regime env values k) he.opens h₁) hs
  refine ⟨⟨?_, fun _ _ _ => forEachFocus_truthful _ _ _ _ _⟩, ⟨?_, fun _ _ _ => forEachFocus_truthful _ _ _ _ _⟩,
    ⟨?_, fun _ _ _ => forEachFocus_truthful _ _ _ _ _⟩⟩
  · -- every position is at most the length
    refine he.forEachFocus_opens .map
      (f := fun p => if p.2 ≤ xs.length then some [.ofInt p.2] else none) ?_ ?_
    · rw [forEach_of_forall (g := fun p => [.ofInt p.2])]
      · rw [← List.map_eq_flatMap, ← List.zipIdx_map_snd, List.map_map]
        rfl
      · intro p hp
        have hle := List.snd_lt_add_of_mem_zipIdx hp
        exact if_pos (by omega)
    · intro ω₁ size x i zs h₁ hs hz
      obtain ⟨hi, hz⟩ := Option.ite_none_right_eq_some.mp hz
      cases hz
      exact opens_map Except.ok id (position_opens hposition (Nat.lt_of_le_of_lt hi hn)) fun _ _ _ hd => hd
  · refine he.forEachFocus_opens .map (f := fun _ => some [.ofInt xs.length]) ?_ ?_
    · rw [forEach_of_forall (g := fun _ => [.ofInt xs.length]) fun _ _ => rfl, ← List.map_eq_flatMap,
        List.map_const', List.length_zipIdx]
    · intro ω₁ size x i zs h₁ hs hz
      cases hz
      exact opens_map Except.ok id (hsize h₁ hs) fun _ _ _ hd => hd
  · refine he.forEachFocus_opens .filter (forEach_length xs) ?_
    intro ω₁ size x i zs h₁ hs hz
    obtain ⟨b, hb, hz⟩ := Option.bind_eq_some_iff.mp hz
    cases hz
    exact opens_map Except.ok (fun s => (s.predicateTruth i).flatMap (.keep x)) (hsize h₁ hs)
      fun _ _ _ hd => keep_delivers hb hd x

/-- A variable whose value is in a buffer. -/
theorem varRef_repeats {x : Name} {b : BufferId} {j : Nat} (hscope : scope.value? x = some (.buffered b))
    (hjk : j < k)
    (hb : ω.pledges b = some ⟨j, .complete xs⟩) : Repeats env values k ω scope (.varRef x) xs := by
  have he (E : Engine) : evaluate env E scope (.varRef x) = E.replay (.buffered b) := by
    simp only [evaluate, hscope]
  have hreader (ω₁ : Situation) (hv : (regime env values k).Valid ω₁) :
      (evaluate env (.ofDepth env ω₁.depth) scope (.varRef x) ω₁.world).1 = .run (.reader b 0) := by
    obtain ⟨depth, hd⟩ := exists_depth_eq hv
    rw [he, hd]
    rfl
  refine ⟨?_, fun ω₁ _ hv => ?_⟩
  · simp only [he]
    exact buffered_opens hjk hb
  · rw [hreader ω₁ hv]
    trivial

/-- A range that a host supplies. -/
theorem host_range_repeats (label : String) (first last : Int) :
    Repeats env values k ω scope (.host label (.range first last)) (integersBetween first last) := by
  refine ⟨fun ω₁ _ hv => ?_, fun _ _ _ => trivial⟩
  have hm (S : BufferId → Nat → Prop) := Moves.event (S := S) ((standard env values k).sane hv.2) (.host label)
  exact ⟨.range first last, _, rfl, ⟨hm _, rfl⟩, ⟨hv.1, (standard env values k).stable hv.2 (hm _)⟩,
    range_delivers (F := regime env values k) _ first last⟩

end

/-- A variable whose value is still to arrive, and which is read once more for the sake of counting. -/
theorem focus_positions_and_sizes_shared :
    let env : Environment := ⟨{}, .standard⟩
    let position : Name := .inSpace .functions "position"
    let last : Name := .inSpace .functions "last"
    let x : Expr := .varRef (.plain "x")
    let scope : Scope := .binding (.root default) (.plain "x") (.buffered 0)
    let shows (e : Expr) (xs : List Item) : Prop :=
      ∃ s w, evaluate env (.ofDepth env 6) scope e { buffers := #[.start (.run (.deferred "d" none))] } = (s, w) ∧
        ∃ n, (shown env [("d", .ok [.ofInt 7, .ofInt 8])] 7
          ((List.range n).map fun i => if i = 5 then ["d"] else []) s w).filter Outcome.isReport =
            xs.map .item ++ [.done]
    shows (.simpleMap x (.call position [])) [.ofInt 1, .ofInt 2] ∧
      shows (.simpleMap x (.call last [])) [.ofInt 2, .ofInt 2] ∧ shows (.filter x (.call last [])) [.ofInt 8] := by
  intro env position last x scope shows
  let values : List (DeferredId × Except Error (List Item)) := [("d", .ok [.ofInt 7, .ofInt 8])]
  let ω₀ : Situation := ⟨fun _ => none, {}, 6⟩
  let ω : Situation := ω₀.newBuffer (.run (.deferred "d" none)) ⟨0, .complete [.ofInt 7, .ofInt 8]⟩
  have hsane : ω₀.Sane values :=
    ⟨fun _ v h => absurd h (Option.some_ne_none v).symm, fun _ h => absurd h List.not_mem_nil,
      fun _ p h => absurd h (Option.some_ne_none p).symm⟩
  have hdeferred : Produces (regime env values 0) (streamPull env) ω₀ (.run (.deferred "d" none))
      (.complete [.ofInt 7, .ofInt 8]) := produces_complete_iff.2 (deferred_delivers rfl)
  have hv : (regime env values 3).Valid ω :=
    newBuffer_valid ⟨by decide, holds_of_unshared hsane fun _ => rfl⟩ hdeferred
  have hx : Repeats env values 1 ω scope x [.ofInt 7, .ofInt 8] :=
    varRef_repeats rfl Nat.zero_lt_one (newBuffer_pledges_self ω₀ _ _)
  obtain ⟨hposition, hlast, hfilter⟩ := focus_positions_and_sizes (Registry.standard_denotes_position _)
    (Registry.standard_denotes_last _) hx (by decide)
  have hshows {e : Expr} {xs : List Item} (h : Repeats env values 3 ω scope e xs) : shows e xs := by
    obtain ⟨s, w, hs, -, hf⟩ := h.shows hv
    refine ⟨s, w, hs, hf _ fun d v hd => ⟨5, ?_⟩⟩
    by_cases hne : d = "d"
    · exact hne ▸ .head _
    · rw [List.lookup_cons, beq_false_of_ne hne] at hd
      cases hd
  exact ⟨hshows hposition, hshows hlast, hshows hfilter⟩

/-- What is not so. A host claims that a script of two items has five: then the size is five and there is no last item.
And the number of items of a range may be more than an integer can hold: then there is no size. -/
theorem last_not_length :
    let env : Environment := ⟨{}, .standard⟩
    let step := Cursor.step env (.ofDepth env 4)
    let reports (e : Expr) (n : Nat) : List (Report Item) :=
      let p := evaluate env (.ofDepth env 4) (.root default) e {}
      (StreamOf.uses Cursor.hint step (List.replicate n (id, .advance 20)) p.1 p.2).1
    let last : Expr := .call (.inSpace .functions "last") []
    let claimed : Expr := .host "h" (.script "L" [.item (.ofInt 1), .item (.ofInt 2)] (some 5))
    let long : Expr := .host "h" (.range (-9223372036854775808) 0)
    (reports claimed 3 = [.advanced (.item (.ofInt 1)), .advanced (.item (.ofInt 2)), .advanced .done] ∧
      reports (.simpleMap claimed last) 3 =
        [.advanced (.item (.ofInt 5)), .advanced (.item (.ofInt 5)), .advanced .done] ∧
      reports (.filter claimed last) 1 = [.advanced .done]) ∧
    ∃ xs, Repeats env [] 0 ⟨fun _ => none, {}, 4⟩ (.root default) long xs ∧ xs.length = 9223372036854775809 ∧
      reports (.simpleMap long last) 1 = [.advanced (.failed (.measureOverflow .contextSize))] := by
  refine ⟨⟨rfl, rfl, rfl⟩, _, host_range_repeats "h" _ _, ?_, rfl⟩
  simp [integersBetween]

end LazyXPath
