import LazyXPath.Proofs.Conformance
import LazyXPath.Proofs.Delivery.Cursor
import LazyXPath.Proofs.Production

/-!
# Conversions of runs

A stream that is converted to a type produces the **converted run** (`Run.convert`): each item is replaced
by the items it becomes, up to the first one that cannot be converted, and then the number of items is
checked. For a type that allows at most one item, nothing is delivered before the whole input has been
read, so that an error comes without any items (`convert_produces`).

* A sequence that can be converted as a whole is converted to the same items when it is pulled
  (`Run.convert_complete`).
* What has been converted is not changed by another conversion to the same type (`Run.convert_convert`).
-/

namespace LazyXPath

variable {W σ : Type}

/-! ### Converted runs -/

namespace Run

/-- The run of converted items after the number of items has been checked. -/
def checkCount (type : SequenceType) (r : Run Item) : Run Item :=
  if type.occurrence.atMostOne && 1 < r.items.length then ⟨[], .failed (.typeMismatch type .moreThanOne)⟩
  else
    match r.tail with
    | .done =>
      if r.items.isEmpty && type.occurrence.atLeastOne then
        ⟨[], .failed (.typeMismatch type .emptySequence)⟩
      else r
    | t => if type.occurrence.atMostOne then ⟨[], t⟩ else r

/-- A run converted to a sequence type. -/
def convert (forest : Forest) (type : SequenceType) (r : Run Item) : Run Item :=
  if type.isAnything then r else (r.expand (Item.convert forest type)).checkCount type

section

variable {type : SequenceType} {r : Run Item} {items : List Item}

theorem checkCount_many (hm : type.occurrence.atMostOne = true) (h : 1 < r.items.length) :
    r.checkCount type = ⟨[], .failed (.typeMismatch type .moreThanOne)⟩ := by
  simp [checkCount, hm, h]

/-- An error after at most one item. -/
theorem checkCount_fails {P : Error → Prop} (h : items.length ≤ 1) (hm : type.occurrence.atMostOne = true) :
    checkCount type ⟨items, .fails P⟩ = ⟨[], .fails P⟩ := by
  have hle : ¬ 1 < items.length := by omega
  simp [checkCount, hm, hle]

private theorem checkCount_unknown (h : items.length ≤ 1) (hm : type.occurrence.atMostOne = true) :
    checkCount type ⟨items, .unknown⟩ = ⟨[], .unknown⟩ := by
  have hle : ¬ 1 < items.length := by omega
  simp [checkCount, hm, hle]

private theorem checkCount_done (hempty : ¬ (items.isEmpty && type.occurrence.atLeastOne) = true)
    (hmany : ¬ (decide (1 < items.length) && type.occurrence.atMostOne) = true) :
    checkCount type ⟨items, .done⟩ = ⟨items, .done⟩ := by
  rw [Bool.and_comm] at hmany
  unfold checkCount
  rw [if_neg hmany]
  exact if_neg hempty

/-- Nothing at all, for a type that asks for an item. -/
theorem checkCount_missing (hl : type.occurrence.atLeastOne = true) :
    checkCount type ⟨[], .done⟩ = ⟨[], .failed (.typeMismatch type .emptySequence)⟩ := by
  simp [checkCount, hl]

private theorem checkCount_of_ne_nil (hm : type.occurrence.atMostOne = false) (h : r.items ≠ []) :
    r.checkCount type = r := by
  obtain ⟨items, tail⟩ := r
  have hne : items.isEmpty = false := by simpa using h
  cases tail <;> simp [checkCount, hm, hne]

private theorem checkCount_of_ne_done (hm : type.occurrence.atMostOne = false) (h : r.tail ≠ .done) :
    r.checkCount type = r := by
  obtain ⟨items, tail⟩ := r
  cases tail with
  | done => exact absurd rfl h
  | fails | unknown => simp [checkCount, hm]

end

section

variable {α β : Type} {f : α → Except Error (List β)} {x : α} {xs : List α} {t : Tail}

theorem expand_cons_error {e : Error} (h : f x = .error e) : expand f ⟨x :: xs, t⟩ = ⟨[], .failed e⟩ := by
  simp [expand, expandItems, h]

theorem expand_cons_ok {ys : List β} (h : f x = .ok ys) :
    expand f ⟨x :: xs, t⟩ = (expand f ⟨xs, t⟩).prepend ys := by
  simp [expand, expandItems, h]

end

end Run

/-! ### Steps of a conversion -/

namespace Conversion

variable {f : Forest} {c : Conversion} {x : Item} {ys : List Item}

theorem takeUp_error {e : Error} (h : x.convert f c.type = .error e) : c.takeUp f x = (.failed e, c) := by
  simp only [takeUp, h]

theorem takeUp_many (h : x.convert f c.type = .ok ys) (hm : c.type.occurrence.atMostOne = true)
    (hl : 1 < (c.pending ++ ys).length) : c.takeUp f x = (.failed (.typeMismatch c.type .moreThanOne), c) := by
  simp only [takeUp, h, hm, hl, decide_true, Bool.and_self, if_true]

theorem takeUp_ok (h : x.convert f c.type = .ok ys)
    (hl : c.type.occurrence.atMostOne = true → (c.pending ++ ys).length ≤ 1) :
    c.takeUp f x = (.skip, { c with pending := c.pending ++ ys }) := by
  simp only [takeUp, h]
  refine if_neg fun hmany => ?_
  obtain ⟨hm, hlt⟩ := (Bool.and_eq_true ..).mp hmany
  exact Nat.not_lt_of_le (hl hm) (of_decide_eq_true hlt)

theorem finish_missing (hp : c.pending = []) (he : c.emitted = false)
    (hl : c.type.occurrence.atLeastOne = true) :
    c.finish = (.failed (.typeMismatch c.type .emptySequence), c) := by
  simp [finish, hp, he, hl]

end Conversion

/-! ### Conversions that are pulled -/

section

variable {F : Regime W} {pull : σ → StateM W (Outcome Item × σ)} {ω : F.Situation} {s : σ} {f : Forest}
  {type : SequenceType} {r : Run Item}

/-- The end of an input that has become at most one item, for a type that allows at most one. -/
theorem converting_finish_steps {pending : List Item} {s' : σ} {ω₀ ω' : F.Situation}
    (hm : type.occurrence.atMostOne = true) (hl : pending.length ≤ 1)
    (hp : pull s (F.world ω) = ((.done, s'), F.world ω')) (he : F.effect ω ω') (hv : F.Valid ω') :
    F.Steps (Step.converting f pull)
      (fun ω t => F.Valid ω ∧ Produces F (Step.converting f pull) ω t (Run.checkCount type ⟨pending, .done⟩))
      (Reported F (Produces F (Step.converting f pull)) ω₀ (Run.checkCount type ⟨pending, .done⟩)) ω
      ({ type, pending }, s) := by
  have hstep := Step.converting_done (f := f) (c := { type, pending }) (by simp [Conversion.isReady, hm]) hp
  rcases pending with _ | ⟨y, _ | ⟨z, rest⟩⟩
  · cases hleast : type.occurrence.atLeastOne with
    | true =>
      rw [Conversion.finish_missing rfl rfl hleast] at hstep
      rw [Run.checkCount_missing hleast]
      exact .reported hstep he (.failed hv rfl)
    | false =>
      have hfin : ({ type, pending := [] } : Conversion).finish.1 = .done := by
        simp [Conversion.finish, Conversion.deliver, hleast]
      have hrun : Run.checkCount type ⟨[], .done⟩ = ⟨[], .done⟩ := by simp [Run.checkCount, hleast]
      rw [hfin] at hstep
      rw [hrun]
      exact .reported hstep he (.done hv)
  · have hfin : ({ type, pending := [y] } : Conversion).finish =
        (.item y, { type, pending := [], emitted := true, checked := true }) := by
      simp [Conversion.finish, Conversion.deliver]
    have hrun : Run.checkCount type ⟨[y], .done⟩ = ⟨[y], .done⟩ := by simp [Run.checkCount]
    rw [hfin] at hstep
    rw [hrun]
    refine .reported hstep he (.item hv ?_)
    exact produces_complete_iff.2 (converting_checked_delivers f hm rfl rfl ω' s')
  · simp at hl

/-- A type that allows at most one item: the whole input is read first. -/
theorem converting_single_produces (hm : type.occurrence.atMostOne = true) (h : Produces F pull ω s r) :
    Produces F (Step.converting f pull) ω ({ type }, s)
      ((r.expand (Item.convert f type)).checkCount type) := by
  -- what is pending comes before what the rest of the input becomes
  refine Produces.simulate (e := fun pending s => (({ type, pending } : Conversion), s))
    (H := fun _ pending _ => pending.length ≤ 1)
    (R := fun pending r => ((r.expand (Item.convert f type)).prepend pending).checkCount type)
    (fun _ hl => hl) ?_ (fun hl => Run.checkCount_unknown ?_ hm) (fun hl => Run.checkCount_fails ?_ hm) ?_ ?_
    (g := []) (Nat.zero_le 1) h
  · intro pending s s' w w' o ho hd hp
    exact Step.converting_pass (by simp [Conversion.isReady, hm]) hp ho hd
  · simpa [Run.expand, Run.expandItems] using hl
  · simpa [Run.expand, Run.expandItems] using hl
  · intro ω₀ ω ω' pending s s' x xs t hl ih hp he hv h
    have hstep := Step.converting_item (f := f) (c := { type, pending }) (by simp [Conversion.isReady, hm]) hp
    cases hx : Item.convert f type x with
    | error e =>
      have hpending : Run.prepend pending ⟨[], .failed e⟩ = ⟨pending, .failed e⟩ := by simp [Run.prepend]
      rw [Conversion.takeUp_error hx] at hstep
      rw [Run.expand_cons_error hx, hpending, Tail.failed, Run.checkCount_fails hl hm]
      exact .reported hstep he (.failed hv rfl)
    | ok ys =>
      have hrun : (Run.expand (Item.convert f type) ⟨x :: xs, t⟩).prepend pending =
          (Run.expand (Item.convert f type) ⟨xs, t⟩).prepend (pending ++ ys) := by
        simp [Run.expand_cons_ok hx, Run.prepend]
      rw [hrun]
      by_cases hmany : 1 < (pending ++ ys).length
      · rw [Conversion.takeUp_many hx hm hmany] at hstep
        rw [Run.checkCount_many hm (by simp only [Run.prepend, List.length_append] at hmany ⊢; omega)]
        exact .reported hstep he (.failed hv rfl)
      · have hl : (pending ++ ys).length ≤ 1 := Nat.le_of_not_lt hmany
        rw [Conversion.takeUp_ok hx fun _ => hl] at hstep
        exact .skip hstep he ⟨hv, ih (g := pending ++ ys) hl h⟩
  · intro ω₀ ω ω' pending s s' hl hp he hv
    have hrun : (Run.expand (Item.convert f type) ⟨[], .done⟩).prepend pending = ⟨pending, .done⟩ := by
      simp [Run.expand, Run.expandItems, Run.prepend]
    rw [hrun]
    exact converting_finish_steps hm hl hp he hv

/-- Converted items that are pending are delivered first. -/
theorem converting_pending_produces (hm : type.occurrence.atMostOne = false) (pending : List Item)
    (h : Produces F (Step.converting f pull) ω ({ type, emitted := true }, s) r) :
    Produces F (Step.converting f pull) ω ({ type, pending, emitted := true }, s) (r.prepend pending) := by
  induction pending generalizing ω with
  | nil => exact h
  | cons y pending ih =>
    refine .of_step fun ω₁ h₁ hv => ?_
    have hstep : Step.converting f pull ({ type, pending := y :: pending, emitted := true }, s) (F.world ω₁) = _ :=
      Step.converting_ready (by simp [Conversion.isReady, hm])
    exact .reported hstep (F.effect_of_drift (F.drift_of_valid hv)) (.item hv (ih (h.later h₁)))

/-- A type that allows more than one item: the items are delivered as they are converted. -/
theorem converting_several_produces (hm : type.occurrence.atMostOne = false) (h : Produces F pull ω s r) :
    Produces F (Step.converting f pull) ω ({ type }, s)
      ((r.expand (Item.convert f type)).checkCount type) := by
  -- when something has been delivered, the number of items is right
  refine Produces.simulate (e := fun emitted s => (({ type, emitted } : Conversion), s))
    (H := fun _ _ _ => True)
    (R := fun emitted r => if emitted then r.expand (Item.convert f type)
      else (r.expand (Item.convert f type)).checkCount type)
    (fun _ _ => trivial) ?_ ?_ ?_ ?_ ?_ (g := false) trivial h
  · intro emitted s s' w w' o ho hd hp
    exact Step.converting_pass (by simp [Conversion.isReady, hm]) hp ho hd
  · intro ω emitted _
    cases emitted <;> simp [Run.expand, Run.expandItems, Run.checkCount, hm]
  · intro ω emitted P _
    cases emitted <;> simp [Run.expand, Run.expandItems, Run.checkCount, hm]
  · intro ω₀ ω ω' emitted s s' x xs t _ ih hp he hv h
    have hstep := Step.converting_item (f := f) (c := { type, emitted }) (by simp [Conversion.isReady, hm]) hp
    cases hx : Item.convert f type x with
    | error e =>
      rw [Conversion.takeUp_error hx] at hstep
      rw [Run.expand_cons_error hx, Run.checkCount_of_ne_done hm (by simp [Tail.failed]), ite_self]
      exact .reported hstep he (.failed hv rfl)
    | ok ys =>
      rw [Conversion.takeUp_ok hx fun hone => absurd hone (by simp [hm])] at hstep
      rw [Run.expand_cons_ok hx]
      refine .skip hstep he ⟨hv, ?_⟩
      cases ys with
      | nil => exact ih (g := emitted) trivial h
      | cons y ys =>
        rw [Run.checkCount_of_ne_nil hm (by simp [Run.prepend]), ite_self]
        have hrest := ih (g := true) trivial h
        refine .of_step fun ω₁ h₁ hv₁ => ?_
        have hready : Step.converting f pull ({ type, pending := y :: ys, emitted }, s') (F.world ω₁) = _ :=
          Step.converting_ready (by simp [Conversion.isReady, hm])
        refine .reported hready (F.effect_of_drift (F.drift_of_valid hv₁)) (.item hv₁ ?_)
        exact converting_pending_produces hm ys (hrest.later h₁)
  · intro ω₀ ω ω' emitted s s' _ hp he hv
    have hstep := Step.converting_done (f := f) (c := { type, emitted }) (by simp [Conversion.isReady, hm]) hp
    have hrun : Run.expand (Item.convert f type) ⟨[], .done⟩ = ⟨[], .done⟩ := rfl
    rw [hrun]
    by_cases hempty : emitted = false ∧ type.occurrence.atLeastOne = true
    · obtain ⟨rfl, hleast⟩ := hempty
      rw [Conversion.finish_missing rfl rfl hleast] at hstep
      simp only [Run.checkCount_missing hleast, Bool.false_eq_true, if_false]
      exact .reported hstep he (.failed hv rfl)
    · have hfin : ({ type, emitted } : Conversion).finish.1 = .done := by
        cases emitted <;> simp_all [Conversion.finish, Conversion.deliver]
      have hcount : (if emitted then (⟨[], .done⟩ : Run Item) else Run.checkCount type ⟨[], .done⟩) =
          ⟨[], .done⟩ := by
        cases emitted <;> simp_all [Run.checkCount]
      rw [hfin] at hstep
      rw [hcount]
      exact .reported hstep he (.done hv)

/-- **Conversion**: what a conversion produces. -/
theorem converting_produces (h : Produces F pull ω s r) : Produces F (Step.converting f pull) ω ({ type }, s)
    ((r.expand (Item.convert f type)).checkCount type) := by
  cases hm : type.occurrence.atMostOne with
  | true => exact converting_single_produces hm h
  | false => exact converting_several_produces hm h

end

/-- The cursor of a conversion takes the same steps. -/
theorem cursorStep_convert (env : Environment) (c : Conversion) (s : Stream) (p : World × Nat) :
    cursorStep env (.convert c s) p =
      (((Step.converting env.forest (streamPull env) (c, s) p).1.1,
        Cursor.convert (Step.converting env.forest (streamPull env) (c, s) p).1.2.1
          (Step.converting env.forest (streamPull env) (c, s) p).1.2.2),
        (Step.converting env.forest (streamPull env) (c, s) p).2) := by
  obtain ⟨w, depth⟩ := p
  obtain ⟨o, s', w', h, h'⟩ := exists_streamStep env s w depth
  cases hc : c.isReady <;> cases o <;>
    simp only [cursorStep, atDepth, Cursor.step, Step.converting, Conversion.step, bind, StateT.bind, h, h',
      hc, Bool.false_eq_true, if_false, if_true] <;> rfl

theorem convert_produces {env : Environment} {F : Regime (World × Nat)} {ω : F.Situation} {s : Stream}
    {r : Run Item} (type : SequenceType) (h : Produces F (streamPull env) ω s r) :
    Produces F (streamPull env) ω (s.convert type) (r.convert env.forest type) := by
  unfold Stream.convert Run.convert
  split
  · exact h
  · refine StreamOf.produces_run ((converting_produces h).embed (fun p => Cursor.convert p.1 p.2) ?_)
    rintro ⟨c, s⟩ p
    exact cursorStep_convert env c s p

/-! ### Laws of conversion -/

private theorem Item.convert_of_mayConform {f : Forest} {type : SequenceType} {y : Item}
    (h : y.MayConform f type.item) : y.convert f type = .ok [y] := by
  obtain ⟨target, occurrence⟩ := type
  obtain (hs | ⟨ht, t, z, rfl⟩) | ⟨ht, hy⟩ := h
  · simp [convert, hs]
  · obtain rfl : target = .dateTimeStamp := ht
    rfl
  · obtain ⟨v, rfl⟩ : ∃ v, y = .atomic v := by
      cases y with
      | atomic v => exact ⟨v, rfl⟩
      | node n =>
        have hkind : (f.kind n).itemType = .untypedAtomic := hy
        cases hk : f.kind n <;> simp [hk, NodeKind.itemType] at hkind
      | map | array | function => cases hy
    have hv : v.itemType = .untypedAtomic := hy
    have hcoerce : v.coerce target = .ok v := by
      obtain rfl | rfl : target = .duration ∨ target = .notationName := ht
      · simp only [Atomic.coerce, hv]
        rfl
      · simp only [Atomic.coerce, hv]
        rfl
    have hatomic : target.isAtomic = true := by
      obtain rfl | rfl : target = .duration ∨ target = .notationName := ht <;> rfl
    have hatomize : atomize f (.atomic v) = .ok [v] := rfl
    unfold convert
    split
    · rfl
    · simp [hatomic, hatomize, hcoerce, bind, Except.bind, pure, Except.pure]

/-- A converted item is not changed by another conversion. -/
theorem Item.convert_convert {f : Forest} {type : SequenceType} {x : Item} {ys : List Item}
    (h : x.convert f type = .ok ys) : ∀ y ∈ ys, y.convert f type = .ok [y] :=
  fun y hy => convert_of_mayConform (mayConform_of_convert h y hy)

namespace Run

variable {forest : Forest} {type : SequenceType} {r : Run Item}

/-- The items of an expanded run come from the items of the run. -/
theorem mem_expand {α β : Type} {f : α → Except Error (List β)} {r : Run α} {y : β}
    (h : y ∈ (r.expand f).items) : ∃ x ys, f x = .ok ys ∧ y ∈ ys := by
  obtain ⟨xs, t⟩ := r
  simp only [expand] at h
  induction xs with
  | nil => cases h
  | cons x xs ih =>
    cases hx : f x with
    | error e => simp [expandItems, hx] at h
    | ok ys =>
      simp only [expandItems, hx, prepend, List.mem_append] at h
      obtain h | h := h
      · exact ⟨x, ys, hx, h⟩
      · exact ih h

/-- Items that become themselves. -/
theorem expand_of_forall {α : Type} {f : α → Except Error (List α)} {r : Run α}
    (h : ∀ x ∈ r.items, f x = .ok [x]) : r.expand f = r := by
  obtain ⟨xs, t⟩ := r
  simp only [expand]
  induction xs with
  | nil => rfl
  | cons x xs ih =>
    obtain ⟨hx, hxs⟩ := List.forall_mem_cons.1 h
    simp only [expandItems, hx, ih hxs, prepend]
    rfl

private theorem expand_complete {α β : Type} {f : α → Except Error (List β)} {xs : List α} {yss : List (List β)}
    (h : List.Forall₂ (fun x ys => f x = .ok ys) xs yss) : (complete xs).expand f = complete yss.flatten := by
  simp only [expand, complete]
  induction h with
  | nil => rfl
  | cons hx _ ih => simp only [expandItems, hx, ih, prepend, List.flatten_cons]

/-- The items of a run whose number has been checked are items of the run. -/
theorem mem_checkCount {x : Item} (h : x ∈ (r.checkCount type).items) : x ∈ r.items := by
  unfold checkCount at h
  grind

private theorem checkCount_checkCount : (r.checkCount type).checkCount type = r.checkCount type := by
  unfold checkCount Tail.failed
  grind

/-- **Conversion is idempotent.** -/
theorem convert_convert : (r.convert forest type).convert forest type = r.convert forest type := by
  unfold convert
  split
  · rfl
  · have hitems : ∀ y ∈ ((r.expand (Item.convert forest type)).checkCount type).items,
        Item.convert forest type y = .ok [y] := by
      intro y hy
      obtain ⟨x, ys, hx, hmem⟩ := mem_expand (mem_checkCount hy)
      exact Item.convert_convert hx y hmem
    rw [expand_of_forall hitems, checkCount_checkCount]

/-- **A sequence that can be converted as a whole** is converted to the same items when it is pulled. -/
theorem convert_complete {xs ys : List Item} (h : Item.convertAll forest type xs = .ok ys) :
    (complete xs).convert forest type = complete ys := by
  cases hmap : xs.mapM (Item.convert forest type) with
  | error e => simp [Item.convertAll, hmap, bind, Except.bind] at h
  | ok yss =>
    have hexpand : (complete xs).expand (Item.convert forest type) = complete yss.flatten :=
      expand_complete (forall₂_of_mapM hmap)
    simp only [Item.convertAll, hmap, bind, Except.bind] at h
    split at h
    · cases h
    rename_i hempty
    split at h
    · cases h
    rename_i hmany
    obtain rfl : yss.flatten = ys := Except.ok.inj h
    unfold convert
    split
    · -- every item becomes itself
      rename_i hany
      have hitem : type.item = .item := by
        simp only [SequenceType.isAnything, Bool.and_eq_true, beq_iff_eq] at hany
        exact hany.1
      rw [← hexpand, expand_of_forall fun x _ => by simp [Item.convert, hitem]]
    · rw [hexpand]
      exact checkCount_done hempty hmany

end Run

end LazyXPath
