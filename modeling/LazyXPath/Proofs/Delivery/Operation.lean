import LazyXPath.Proofs.Delivery.Cursor
import LazyXPath.Proofs.OperatorCache

/-!
# Deliveries of operators

Operators are resolved through a cache that is part of the world. As long as its entries are what the
operators are resolved to, a resolution through the cache is the same as one without it, and the entry
that it leaves behind is of this kind again (`OperatorCache.Coherent.resolve`). So the results of operators
do not depend on what was evaluated before.
-/

namespace LazyXPath

/-! ### The cache -/

/-- Through every coherent cache the result is the same, and the cache stays coherent. -/
def Resolves {α : Type} (f : OperatorCache → Except Error α × OperatorCache) (r : α) : Prop :=
  ∀ c : OperatorCache, c.Coherent → ∃ c', f c = (.ok r, c') ∧ c'.Coherent

section

variable {a b : Atomic} {ys : List Item}

/-- Arithmetic that has a result gives it through any coherent cache. -/
private theorem arithmetic_resolves {op : ArithmeticOp} (hy : arithmetic? op a b = some ys) :
    ∃ v, ys = [.atomic v] ∧ Resolves (·.arithmetic op a b) v := by
  cases hr : ArithmeticRule.resolve op a.itemType b.itemType with
  | error e => simp [arithmetic?, hr, Except.toOption] at hy
  | ok rule =>
    cases hv : rule.apply a b with
    | error e => simp [arithmetic?, hr, hv, Except.toOption] at hy
    | ok v =>
      refine ⟨v, by simpa [arithmetic?, hr, hv, Except.toOption] using hy.symm, fun c h => ?_⟩
      refine ⟨(c.resolve (.arithmetic op a.itemType b.itemType)).2, ?_, h.resolve _⟩
      simp only [h.arithmetic_eq, hr, Except.bind, hv]

/-- So do comparisons. -/
private theorem comparison_resolves {op : ComparisonOp} (hy : comparison? op a b = some ys) :
    ∃ v, ys = [.ofBool v] ∧ Resolves (·.compare op a b) v := by
  cases hr : ComparisonRule.resolve op a.itemType b.itemType with
  | error e => simp [comparison?, hr, Except.toOption] at hy
  | ok rule =>
    cases hv : rule.apply a b with
    | error e => simp [comparison?, hr, hv, Except.toOption] at hy
    | ok v =>
      refine ⟨v, by simpa [comparison?, hr, hv, Except.toOption] using hy.symm, fun c h => ?_⟩
      refine ⟨(c.resolve (.comparison op a.itemType b.itemType)).2, ?_, h.resolve _⟩
      simp only [h.compare_eq, hr, Except.bind, hv]

/-- So do signs. -/
private theorem sign_resolves {op : UnaryOp} (hy : sign? op a = some ys) :
    ∃ v, ys = [.atomic v] ∧ Resolves (·.unary op a) v := by
  cases hv : (UnaryRule.resolve op a.itemType).apply a with
  | error e => simp [sign?, hv, Except.toOption] at hy
  | ok v =>
    refine ⟨v, by simpa [sign?, hv, Except.toOption] using hy.symm, fun c h => ?_⟩
    refine ⟨(c.resolve (.unary op a.itemType)).2, ?_, h.resolve _⟩
    simp only [h.unary_eq, hv]

end

/-! ### Combinations of operands -/

section

variable {env : Environment} {values : List (DeferredId × Except Error (List Item))} {k : Nat}
  {ω : Situation} {ys : List Item}

/-- What happens to the world besides its values and buffers does not matter, if the cache stays
coherent. -/
theorem Moves.ofWorld {S : BufferId → Nat → Prop} (h : ω.Sane values) {w : World}
    (ha : w.arrivals = ω.world.arrivals) (hb : w.buffers = ω.world.buffers)
    (hc : w.operators.Coherent) : Moves values S ω { ω with world := w } where
  evolves := by
    refine ⟨fun _ _ h => h, fun d v hd => ?_, fun b β hβ => ⟨β, ?_, Nat.le_refl _⟩⟩
    · rwa [ha]
    · rwa [hb]
  sane := by
    refine ⟨fun d v hd => h.arrivals d v ?_, hc, fun b p hp => ?_⟩
    · rwa [← ha]
    · rw [hb]
      exact h.pledged b p hp
  kept b p hp _ := ⟨hp, by rw [hb]⟩

/-- A stream of one item that is found through the cache. -/
theorem operate_opens {α : Type} {f : OperatorCache → Except Error α × OperatorCache} {r : α}
    {g : Except Error α → Except Error Stream} {x : Item} (hf : Resolves f r)
    (hg : g (.ok r) = .ok (.one x)) : (regime env values k).Opens (streamPull env) ω
      (atDepth env fun _ => do return g (← World.operate f)) .ok [x] := by
  intro ω₁ h₁ hv
  have hsane := (standard env values k).sane hv.2
  obtain ⟨c', hc, h'⟩ := hf _ hsane.operators
  refine ⟨.one x, { ω₁ with world := { ω₁.world with operators := c' } }, ?_, ?_, ⟨hv.1, ?_⟩, ?_⟩
  · have hop : World.operate f ω₁.world = (.ok r, { ω₁.world with operators := c' }) := by
      simp only [World.operate, modifyGet, MonadStateOf.modifyGet, StateT.modifyGet, pure, hc]
    simp only [atDepth, bind, StateT.bind, hop, hg]
    rfl
  · exact ⟨Moves.ofWorld hsane rfl rfl h', rfl⟩
  · exact (standard env values k).stable hv.2 (Moves.ofWorld hsane rfl rfl h')
  · exact one_delivers _ x

/-- A missing operand makes the result empty. -/
theorem missing_opens {f : Engine → Action (Except Error Stream)}
    (hf : ∀ E w, f E w = (.ok .empty, w)) :
    (regime env values k).Opens (streamPull env) ω (atDepth env f) .ok [] :=
  .of_pure (fun w => by simp only [atDepth, hf]) (empty_delivers (F := regime env values k) ω)

/-- The operands of arithmetic, if both are there, are combined to the result. Otherwise there is none. -/
theorem arithmetic_opens {op : ArithmeticOp} {a b : Option Atomic}
    (hy : ofBoth (arithmetic? op) a b = some ys) :
    (regime env values k).Opens (streamPull env) ω (atDepth env fun E =>
      Combiner.apply env E (.arithmetic op) [a.map .atomic, b.map .atomic]) .ok ys := by
  match a, b with
  | some a, some b =>
    obtain ⟨v, rfl, hr⟩ := arithmetic_resolves hy
    exact operate_opens (g := Stream.oneAtomic) hr rfl
  | none, _ | some _, none =>
    cases hy
    exact missing_opens fun _ _ => rfl

/-- The same of comparisons. -/
theorem comparison_opens {op : ComparisonOp} {a b : Option Atomic}
    (hy : ofBoth (comparison? op) a b = some ys) :
    (regime env values k).Opens (streamPull env) ω (atDepth env fun E =>
      Combiner.apply env E (.comparison op) [a.map .atomic, b.map .atomic]) .ok ys := by
  match a, b with
  | some a, some b =>
    obtain ⟨v, rfl, hr⟩ := comparison_resolves hy
    exact operate_opens (g := fun r => Stream.oneAtomic (r.map .boolean)) hr rfl
  | none, _ | some _, none =>
    cases hy
    exact missing_opens fun _ _ => rfl

/-- The same of signs. -/
theorem sign_opens {op : UnaryOp} {a : Option Atomic} (hy : (a.elim (some []) (sign? op)) = some ys) :
    (regime env values k).Opens (streamPull env) ω (atDepth env fun E =>
      Combiner.apply env E (.sign op) [a.map .atomic]) .ok ys := by
  match a with
  | some a =>
    obtain ⟨v, rfl, hr⟩ := sign_resolves hy
    exact operate_opens (g := Stream.oneAtomic) hr rfl
  | none =>
    cases hy
    exact missing_opens fun _ _ => rfl

/-- Two integers open the range between them. -/
theorem range_opens {a b : Option Item} (hy : ofBoth integers? a b = some ys) :
    (regime env values k).Opens (streamPull env) ω (atDepth env fun E =>
      Combiner.apply env E .range [a, b]) .ok ys := by
  match a, b with
  | none, _ | some _, none =>
    cases hy
    exact missing_opens fun _ _ => rfl
  | some a, some b =>
    have hy : integers? a b = some ys := hy
    cases ha : a.integer?.filter Calendar.fitsLong with
    | none => simp [integers?, ha] at hy
    | some first =>
      cases hb : b.integer?.filter Calendar.fitsLong with
      | none => simp [integers?, ha, hb] at hy
      | some last =>
        obtain rfl : integersBetween first last = ys := by simpa [integers?, ha, hb] using hy
        have hr : rangeBetween [a, b] = .ok (if first ≤ last then .range first last else .empty) := by
          simp [rangeBetween, ha, hb]
        refine .of_pure (s := if first ≤ last then .range first last else .empty) (fun w => ?_) ?_
        · have happly (E : Engine) :
              Combiner.apply env E .range [some a, some b] = pure (rangeBetween [a, b]) := rfl
          simp only [atDepth, happly, hr]
          rfl
        · split
          · exact range_delivers (F := regime env values k) ω first last
          · have hnil : integersBetween first last = [] := by
              simp only [integersBetween, List.map_eq_nil_iff, List.range_eq_nil]
              omega
            rw [hnil]
            exact empty_delivers (F := regime env values k) ω

end

end LazyXPath
