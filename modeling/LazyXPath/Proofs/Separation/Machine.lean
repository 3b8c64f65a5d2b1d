import LazyXPath.Proofs.Delivery.Conversion
import LazyXPath.Proofs.Separation.Evaluation

/-!
# Steps among buffers out of reach

A step of a cursor that spares a set of buffers leaves these buffers as they are, and leads to such a
cursor again (`Cursor.step_keeps`). The engine of some depth is made of the steps, calls and readings in
the engine below, so that all engines do the same (`Engine.ofDepth_spares`).
-/

namespace LazyXPath

section

variable {T : BufferId → Prop} {held : BufferId → Buffer}

/-! ### What is done with items -/

/-- The begin of a callback is an event. -/
private theorem Callback.begin_keeps {κ : Type} (role : CallbackRole) (f : Callback κ) :
    Keeps (World.Guards T held) (f.begin role) fun _ => True :=
  (World.record_keeps _).bind fun _ _ => .of_pure trivial

/-- The callbacks of a host on items give an atomic value or the item itself. -/
private theorem MapKind.apply_keeps (kind : MapKind) {x : Item} (hx : Item.Spares T x) :
    Keeps (World.Guards T held) (kind.apply x) (IfOk (Item.Spares T)) := by
  unfold MapKind.apply
  split
  · exact .of_pure (Item.spares_atomic _)
  · refine (World.operate_keeps _).bind fun r _ => .of_pure ?_
    exact (IfOk.of_true r).map fun v _ => Item.spares_atomic v
  · exact .of_pure hx

/-- Functions on items give the item itself or a value computed from it. -/
private theorem Mapper.apply_keeps (forest : Forest) (f : Mapper) {x : Item} (hx : Item.Spares T x) :
    Keeps (World.Guards T held) (f.apply forest x) fun r => IfOk (Item.Spares T) r.1 := by
  have hatomic (r : Except Error Atomic) : IfOk (Item.Spares T) (r.map .atomic) :=
    (IfOk.of_true r).map fun v _ => Item.spares_atomic v
  unfold Mapper.apply
  split
  · refine (Callback.begin_keeps .map _).bind ?_
    rintro ⟨_ | _, f⟩ -
    · exact .of_pure trivial
    · exact (MapKind.apply_keeps f.kind hx).bind fun r hr => .of_pure hr
  · exact .of_pure (Item.spares_atomic _)
  · exact .of_pure trivial
  · exact .of_pure (hatomic _)
  · exact .of_pure trivial
  · exact .of_pure (hatomic _)
  · exact .of_pure trivial

/-- Predicates give a verdict only. -/
private theorem Selector.apply_keeps (forest : Forest) (f : Selector) (x : Item) :
    Keeps (World.Guards T held) (f.apply forest x) fun _ => True := by
  cases f with
  | host f =>
    refine (Callback.begin_keeps .filter f).bind ?_
    rintro ⟨_ | _, f⟩ - <;> exact .of_pure trivial
  | afterFirst | only => exact .of_pure trivial

/-- Sorting gives back the nodes that have been sorted. -/
private theorem itemsSpare_inDocumentOrder (forest : Forest) {xs : List Item} (h : ItemsSpare T xs) :
    IfOk (ItemsSpare T) (Item.inDocumentOrder forest xs) := by
  unfold Item.inDocumentOrder
  split
  · exact h
  · split
    · trivial
    · refine (IfOk.of_true _).map fun ns _ x hx => ?_
      obtain ⟨n, -, rfl⟩ := List.mem_map.mp hx
      exact Item.spares_node n

/-- A member of an array is a part of it. -/
private theorem itemsSpare_memberAt {members : List (List Item)} (h : ∀ m ∈ members, ItemsSpare T m)
    (xs : List Item) : IfOk (ItemsSpare T) (memberAt members xs) := by
  unfold memberAt
  dsimp only
  split
  · rename_i ys hys
    refine h ys ?_
    unfold ItemOf.member? at hys
    split at hys
    · exact List.mem_of_getElem? hys
    · cases hys
  · trivial

/-- An entry of a map is a part of it. -/
private theorem itemsSpare_entryAt {entries : Dictionary (List Item)} (h : ∀ e ∈ entries.entries, ItemsSpare T e.2)
    (xs : List Item) : ItemsSpare T (entryAt entries xs) := by
  unfold entryAt
  split
  · rename_i k _
    cases hy : entries.get? k with
    | none => exact .nil
    | some ys =>
      obtain ⟨e, he, rfl⟩ := Option.map_eq_some_iff.mp hy
      exact h e (List.mem_of_find?_eq_some he)
  · exact .nil

/-- Functions of whole sequences give items of the sequence or of the collection they look into, or values.
-/
private theorem Collector.apply_keeps (forest : Forest) {f : Collector} (hf : f.Spares T) {xs : List Item}
    (hx : ItemsSpare T xs) :
    Keeps (World.Guards T held) (f.apply forest xs) (IfOk (ItemsSpare T)) := by
  have hone {x : Item} (h : Item.Spares T x) : ItemsSpare T [x] := itemsSpare_cons.mpr ⟨h, .nil⟩
  cases f with
  | host f =>
    refine (Callback.begin_keeps .mapAll f).bind ?_
    rintro ⟨_ | _, f⟩ -
    · exact .of_pure trivial
    · refine .of_pure ?_
      change ItemsSpare T (f.kind.apply xs)
      cases f.kind with
      | reverse => exact fun x h => hx x (List.mem_reverse.mp h)
      | count => exact hone (Item.spares_atomic _)
      | same => exact hx
  | describe => exact .of_pure (hone (Item.spares_atomic _))
  | documentOrder => exact .of_pure (itemsSpare_inDocumentOrder forest hx)
  | contextSize => exact .of_pure ((measured_spares .contextSize _).map fun _ h => hone h)
  | member members => exact .of_pure (itemsSpare_memberAt hf xs)
  | entry entries => exact .of_pure (itemsSpare_entryAt hf xs)
  | stringValue => exact .of_pure ((IfOk.of_true _).map fun _ _ => hone (Item.spares_atomic _))
  | stringLength => exact .of_pure ((measured_spares .stringLength _).map fun _ h => hone h)

/-! ### Conversions and truth values -/

/-- A conversion gives the item itself, or its atomized values. -/
private theorem itemsSpare_convert (forest : Forest) (type : SequenceType) {x : Item} (hx : Item.Spares T x) :
    IfOk (ItemsSpare T) (x.convert forest type) := by
  unfold Item.convert
  split
  · exact itemsSpare_cons.mpr ⟨hx, .nil⟩
  · split
    · trivial
    · refine (IfOk.of_true (x.atomize forest)).bind fun vs _ => ?_
      refine (IfOk.of_true (vs.mapM (·.coerce type.item))).bind fun ws _ => ?_
      exact itemsSpare_atomics ws

/-- The same of whole sequences, which are converted item by item. -/
private theorem itemsSpare_convertAll {forest : Forest} {type : SequenceType} {xs ys : List Item}
    (hx : ItemsSpare T xs) (h : Item.convertAll forest type xs = .ok ys) : ItemsSpare T ys := by
  cases hmap : xs.mapM (Item.convert forest type) with
  | error e => simp [Item.convertAll, hmap, bind, Except.bind] at h
  | ok yss =>
    have hys : ys = yss.flatten := by
      simp only [Item.convertAll, hmap, bind, Except.bind] at h
      split at h
      · cases h
      · split at h
        · cases h
        · cases h
          rfl
    rw [hys]
    intro y hy
    obtain ⟨zs, hzs, hy⟩ := List.mem_flatten.mp hy
    obtain ⟨x, hmem, hc⟩ := exists_of_mem_mapM hmap hzs
    have hconv := itemsSpare_convert forest type (hx x hmem)
    rw [hc] at hconv
    exact hconv y hy

/-- The converted arguments of a call spare what the supplied ones do. -/
private theorem Signature.convertAll_spares {forest : Forest} {signature : Signature}
    {arguments converted : List (List Item)} (ha : ∀ xs ∈ arguments, ItemsSpare T xs)
    (h : signature.convertAll forest arguments = .ok converted) :
    ∀ xs ∈ converted, ItemsSpare T xs := by
  intro ys hys
  obtain ⟨⟨type, xs⟩, hmem, hc⟩ := exists_of_mem_mapM h hys
  obtain ⟨i, hi⟩ := List.mem_iff_getElem?.mp hmem
  rw [List.getElem?_mapIdx, Option.map_eq_some_iff] at hi
  obtain ⟨xs', hxs', hp⟩ := hi
  cases hp
  exact itemsSpare_convertAll (ha xs (List.mem_of_getElem? hxs')) hc

/-- A conversion delivers what has been pending in it. -/
private theorem Conversion.deliver_spares {c : Conversion} (hc : ItemsSpare T c.pending) :
    c.deliver.1.IfItem (Item.Spares T) ∧ ItemsSpare T c.deliver.2.pending := by
  obtain ⟨type, pending, emitted, checked⟩ := c
  cases pending with
  | nil => exact ⟨trivial, hc⟩
  | cons x xs => exact itemsSpare_cons.mp hc

/-- A conversion takes up an item by converting it and putting the rest behind what is pending. -/
private theorem Conversion.takeUp_spares (forest : Forest) {c : Conversion} (hc : ItemsSpare T c.pending) {x : Item}
    (hx : Item.Spares T x) :
    (c.takeUp forest x).1.IfItem (Item.Spares T) ∧ ItemsSpare T (c.takeUp forest x).2.pending := by
  have hconv := itemsSpare_convert forest c.type hx
  unfold Conversion.takeUp
  split
  · exact ⟨trivial, hc⟩
  · rename_i ys h
    rw [h] at hconv
    dsimp only
    split
    · exact ⟨trivial, hc⟩
    · exact ⟨trivial, itemsSpare_append.mpr ⟨hc, hconv⟩⟩

/-- At the end a conversion still delivers what is pending. -/
private theorem Conversion.finish_spares {c : Conversion} (hc : ItemsSpare T c.pending) :
    c.finish.1.IfItem (Item.Spares T) ∧ ItemsSpare T c.finish.2.pending := by
  unfold Conversion.finish
  split
  · exact ⟨trivial, hc⟩
  · exact deliver_spares hc

/-- A step of a conversion keeps what is pending and what is left of its input. -/
private theorem Conversion.step_keeps (forest : Forest) {c : Conversion} (hc : ItemsSpare T c.pending) {s : Stream}
    (hs : StreamSpares T s) {pull : Action (Outcome Item × Stream)}
    (hp : Keeps (World.Guards T held) pull fun r => r.1.IfItem (Item.Spares T) ∧ StreamSpares T r.2) :
    Keeps (World.Guards T held) (c.step forest s pull) fun r =>
      r.1.IfItem (Item.Spares T) ∧ ItemsSpare T r.2.1.pending ∧ StreamSpares T r.2.2 := by
  unfold Conversion.step
  split
  · obtain ⟨ho, hc⟩ := deliver_spares hc
    exact .of_pure ⟨ho, hc, hs⟩
  · refine hp.bind ?_
    rintro ⟨o, s⟩ ⟨ho, hs⟩
    cases o with
    | item x =>
      obtain ⟨ho, hc⟩ := takeUp_spares forest hc ho
      exact .of_pure ⟨ho, hc, hs⟩
    | done =>
      obtain ⟨ho, hc⟩ := finish_spares hc
      exact .of_pure ⟨ho, hc, hs⟩
    | suspended | failed | skip => exact .of_pure ⟨trivial, hc, hs⟩

/-- The verdict is a value, and until there is one the stream it is about is kept. -/
private theorem Step.truth_keeps (forest : Forest) (position : Option Nat) (first : Option Bool)
    {pull : Action (Outcome Item × Stream)}
    (hp : Keeps (World.Guards T held) pull fun r => r.1.IfItem (Item.Spares T) ∧ StreamSpares T r.2) :
    Keeps (World.Guards T held) (Step.truth forest position first pull) fun r =>
      r.1.IfItem (Item.Spares T) ∧
        match r.2 with
        | .inl (_, s) => StreamSpares T s
        | .inr s => StreamSpares T s := by
  refine hp.bind ?_
  rintro ⟨o, s⟩ ⟨-, hs⟩
  cases o with
  | done => cases first <;> exact .of_pure ⟨Item.spares_atomic _, hs⟩
  | item x =>
    cases first with
    | some b => cases x <;> exact .of_pure ⟨trivial, hs⟩
    | none =>
      cases x with
      | node n => exact .of_pure ⟨Item.spares_atomic _, hs⟩
      | atomic v =>
        dsimp only
        split <;> exact .of_pure ⟨trivial, hs⟩
      | map | array | function => exact .of_pure ⟨trivial, hs⟩
  | suspended | failed | skip => exact .of_pure ⟨trivial, hs⟩

/-- If every place is filled, then the items found are those of the places. -/
private theorem eq_map_some_of_mapM {xs : List Item} {found : List (Option Item)} (h : found.mapM id = some xs) :
    found = xs.map some := by
  induction found generalizing xs with
  | nil =>
    cases h
    rfl
  | cons a found ih =>
    simp only [List.mapM_cons, id, Option.bind_eq_bind, Option.bind_eq_some_iff, Option.pure_def,
      Option.some.injEq] at h
    obtain ⟨x, rfl, ys, hys, rfl⟩ := h
    rw [List.map_cons, ← ih hys]

/-! ### Steps without inputs -/

/-- The rest of a script is a part of it. -/
private theorem runScript_keeps {steps : List (ScriptStep Item)} (h : ItemsSpare T (scriptItems steps)) :
    Keeps (World.Guards T held) (runScript steps) fun r =>
      r.1.IfItem (Item.Spares T) ∧ ItemsSpare T (scriptItems r.2) := by
  induction steps with
  | nil => exact .of_pure ⟨trivial, .nil⟩
  | cons step rest ih =>
    cases step with
    | item x => exact .of_pure (itemsSpare_cons.mp h)
    | await d =>
      refine (World.arrival?_keeps d).bind fun r _ => ?_
      cases r with
      | none => exact .of_pure ⟨trivial, h⟩
      | some v => exact ih h
    | fail e => exact .of_pure ⟨trivial, h⟩
    | done => exact .of_pure ⟨trivial, h⟩

/-- A deferred sequence delivers what has arrived, and the world vouches for it. -/
private theorem deferredStep_keeps (d : DeferredId) {arrived : Option (List Item)}
    (h : ∀ xs, arrived = some xs → ItemsSpare T xs) :
    Keeps (World.Guards T held) (deferredStep d arrived) fun r =>
      r.1.IfItem (Item.Spares T) ∧ r.2.Spares T := by
  have hnone : Cursor.Spares T (.deferred d none) := fun xs h => absurd h (Option.some_ne_none xs).symm
  cases arrived with
  | some xs =>
    obtain ⟨ho, hrest⟩ := Step.emit_ifItem (h xs rfl)
    exact .of_pure ⟨ho, fun ys hys => Option.some.inj hys ▸ hrest⟩
  | none =>
    refine (World.arrival?_keeps d).bind fun r hr => ?_
    obtain _ | e | xs := r
    · exact .of_pure ⟨trivial, hnone⟩
    · exact .of_pure ⟨trivial, hnone⟩
    · exact .of_pure ⟨trivial, fun ys hys => Option.some.inj hys ▸ hr xs rfl⟩

/-- An attempt that gives a stream continues with it. One that fails stays where it is. -/
private theorem forwarding_spares {c : Cursor} (hc : c.Spares T) {r : Except Error Stream}
    (hr : IfOk (StreamSpares T) r) :
    (forwarding c r).1.IfItem (Item.Spares T) ∧ (forwarding c r).2.Spares T := by
  cases r with
  | ok s => exact ⟨trivial, hr⟩
  | error e => exact ⟨trivial, hc⟩

/-- Whether there is anything is a value, and the stream that has been looked into is kept. -/
private theorem presenceOutcome_spares (wantsEmpty : Bool) {r : Outcome Cardinality × Stream}
    (hr : StreamSpares T r.2) : (presenceOutcome wantsEmpty r).1.IfItem (Item.Spares T) ∧
      (presenceOutcome wantsEmpty r).2.Spares T := by
  obtain ⟨o, s⟩ := r
  cases o with
  | item c => exact ⟨Item.spares_atomic _, hr⟩
  | done | suspended | failed | skip => exact ⟨trivial, hr⟩

/-- A stream that ends or fails forgets its cursor. -/
private theorem statusAfter_spares {o : Outcome Item} {c : Cursor} (hc : c.Spares T) :
    StatusSpares T (StreamOf.statusAfter o c) := by
  cases o with
  | done | failed => trivial
  | item | suspended | skip => exact hc

/-! ### What is done in an engine -/

section

variable {env : Environment} {E : Engine} (hE : E.Spares T held) (henv : env.registry.Spares T)
include hE henv

/-- The body of a step or of a predicate for one item, evaluated in the scope with the focus on it. -/
private theorem focusOn_keeps (role : FocusRole) {body : Expr} (hbody : ItemsSpare T (exprItems body))
    {scope : Scope} (hscope : scope.Spares T) {x : Item} (hx : Item.Spares T x) (position : Nat) :
    Keeps (World.Guards T held) (focusOn env E role body scope x position) (IfOk (StreamSpares T)) := by
  have hs := evaluate_keeps hE henv hscope body hbody
  cases role with
  | map => exact hs.bind fun s hs => .of_pure hs
  | path =>
    unfold focusOn
    dsimp only
    split
    · exact hs.bind fun s hs => .of_pure hs
    · exact .of_pure trivial
  | filter => exact hs.bind fun s hs => .of_pure (StreamSpares.flatMap hx (.run hs))

/-- An inner sequence is opened by evaluating a body, by a host, or from the item itself. -/
private theorem Expander.apply_keeps {f : Expander} (hf : f.Spares T) {x : Item} (hx : Item.Spares T x) :
    Keeps (World.Guards T held) (f.apply env E x) fun r => IfOk (StreamSpares T) r.1 ∧ r.2.Spares T := by
  cases f with
  | host f =>
    refine (Callback.begin_keeps .flatMap f).bind ?_
    rintro ⟨_ | _, f⟩ -
    · exact .of_pure ⟨trivial, trivial⟩
    · refine .of_pure ⟨?_, trivial⟩
      change StreamSpares T (f.kind.apply x)
      unfold FlatMapKind.apply
      split
      · exact .one hx
      · exact .empty
      · exact .ofList (itemsSpare_cons.mpr ⟨hx, itemsSpare_cons.mpr ⟨hx, .nil⟩⟩)
      · exact .range _ _
      · exact .one hx
  | branch yes no scope =>
    obtain ⟨hyes, hno, hscope⟩ := hf
    have hbody : ItemsSpare T (exprItems (if x.isTrue then yes else no)) := by
      split
      · exact hyes
      · exact hno
    exact (evaluate_keeps hE henv hscope _ hbody).bind fun s hs => .of_pure ⟨hs, hyes, hno, hscope⟩
  | decide deciding right scope =>
    unfold Expander.apply
    dsimp only
    split
    · exact .of_pure ⟨StreamSpares.one hx, hf⟩
    · exact (evaluate_keeps hE henv hf.2 right hf.1).bind fun s hs => .of_pure ⟨StreamSpares.run hs, hf⟩
  | bindEach name body scope =>
    refine (World.newBuffer_keeps (.one hx)).bind fun b hb => ?_
    have hinner : Scope.Spares T (.binding scope name (.buffered b)) := ⟨hf.2, hb⟩
    exact (evaluate_keeps hE henv hinner body hf.1).bind fun s hs => .of_pure ⟨hs, hf⟩
  | focusEach role body scope size sequence position =>
    obtain ⟨hbody, hscope, hseq⟩ := hf
    have hinner : Scope.Spares T (scope.withFocus ⟨x, position + 1, size, sequence⟩) := ⟨hscope, hx, hseq⟩
    refine (focusOn_keeps hE henv role hbody hinner hx (position + 1)).bind fun r hr => ?_
    exact .of_pure ⟨hr, hbody, hscope, hseq⟩
  | keep y =>
    refine .of_pure ⟨?_, hf⟩
    change StreamSpares T (if x.isTrue then .one y else .empty)
    split
    · exact .one hf
    · exact .empty

/-- A dynamic call whose function has been found evaluates its arguments in the scope of the call. -/
private theorem callWith_keeps {x : Item} (hx : Item.Spares T x) {arguments : List (Option Expr)}
    (ha : ItemsSpare T (argumentsItems arguments)) {scope : Scope} (hscope : scope.Spares T) :
    Keeps (World.Guards T held) (callWith env E x arguments scope) (IfOk (StreamSpares T)) := by
  have ha := evaluateArguments_keeps hE henv hscope arguments ha
  unfold callWith
  split
  · split
    · rename_i f
      have hf := Item.spares_function.mp hx
      refine ha.bind fun ss hss => (hf.partiallyApply hss).bind fun r hr => .of_pure (hr.map fun g hg => ?_)
      exact .one (Item.spares_function.mpr hg)
    · exact .of_pure trivial
  · exact ha.bind fun ss hss => hE.callItem hscope (forall_mem_filterMap_id hss) env.forest hx

/-- What is combined of several operands is a value, a range, or the result of a call. -/
private theorem Combiner.applyAll_keeps {f : Combiner} (hf : f.Spares T) {xs : List Item} (hx : ItemsSpare T xs) :
    Keeps (World.Guards T held) (f.applyAll env E xs) (IfOk (StreamSpares T)) := by
  have hatomic (r : Except Error Atomic) : IfOk (StreamSpares T) (Stream.oneAtomic r) :=
    (IfOk.of_true r).map fun v _ => .atomic v
  unfold Combiner.applyAll
  split
  · refine (Callback.begin_keeps .zip _).bind fun r _ => ?_
    split
    · exact .of_pure (StreamSpares.ofList hx)
    · exact .of_pure (StreamSpares.atomic _)
    · exact .of_pure trivial
  · refine .of_pure ?_
    unfold rangeBetween
    dsimp only
    split
    · split
      · exact StreamSpares.range _ _
      · exact StreamSpares.empty
    · trivial
  · exact (World.operate_keeps _).bind fun r _ => .of_pure (hatomic r)
  · exact (World.operate_keeps _).bind fun r _ => .of_pure (hatomic _)
  · exact (World.operate_keeps _).bind fun r _ => .of_pure (hatomic r)
  · exact .of_pure trivial
  · exact callWith_keeps hE henv (hx _ (.head _)) hf.1 hf.2
  · exact .of_pure trivial
  · exact .of_pure trivial

/-- An operand may be missing. Most functions then give nothing, and those that do not give values or the
operands that are there. -/
private theorem Combiner.apply_keeps {f : Combiner} (hf : f.Spares T) {found : List (Option Item)}
    (hx : ∀ x, some x ∈ found → Item.Spares T x) :
    Keeps (World.Guards T held) (f.apply env E found) (IfOk (StreamSpares T)) := by
  unfold Combiner.apply
  split
  · refine (Callback.begin_keeps .zipOptional _).bind fun r _ => ?_
    split
    · refine .of_pure (StreamSpares.ofList fun x h => ?_)
      obtain ⟨a, -, rfl⟩ := List.mem_map.mp h
      exact Item.spares_atomic _
    · refine .of_pure (StreamSpares.ofList fun x h => ?_)
      obtain ⟨a, ha, rfl⟩ := List.mem_filterMap.mp h
      exact hx x ha
    · exact .of_pure trivial
  · exact .of_pure (StreamSpares.atomic _)
  · split
    · rename_i xs h
      refine Combiner.applyAll_keeps hE henv hf fun x hmem => hx x ?_
      rw [eq_map_some_of_mapM h]
      exact List.mem_map_of_mem hmem
    · exact .of_pure StreamSpares.empty

/-! ### Readers and calls -/

omit henv in
/-- A reader outside of the set finds an item, or pulls the source of its buffer and records what comes. -/
private theorem readerStep_keeps {b : BufferId} (hb : ¬T b) (position : Nat) :
    Keeps (World.Guards T held) (readerStep E b position) fun r =>
      r.1.IfItem (Item.Spares T) ∧ r.2.Spares T := by
  refine (World.peekBuffer_keeps hb position).bind fun r hr => ?_
  cases r with
  | inl o => exact .of_pure ⟨hr, hb⟩
  | inr source =>
    -- what the source gives is recorded in a buffer outside the set
    refine (hE.step source hr).bind ?_
    rintro ⟨o, s⟩ ⟨ho, hs⟩
    exact (World.recordPull_keeps hb ho hs).bind fun _ _ => .of_pure ⟨ho, hb⟩

omit henv in
/-- A call by overloads selects a candidate by its arguments and invokes it with the converted ones. -/
private theorem dispatchStep_keeps (forest : Forest) {d : Dispatch} (hd : d.Spares T)
    {arguments : List (List Item)} (ha : ∀ xs ∈ arguments, ItemsSpare T xs) :
    Keeps (World.Guards T held) (dispatchStep forest E d arguments) fun r =>
      r.1.IfItem (Item.Spares T) ∧ r.2.Spares T := by
  have hstay : Cursor.Spares T (.dispatch d arguments) := ⟨hd, ha⟩
  unfold dispatchStep
  dsimp only
  split
  · exact .of_pure ⟨trivial, hstay⟩
  · rename_i f converted h
    obtain ⟨hf, hconv⟩ := Dispatch.of_select h
    refine (hE.call f d.scope _ (hd.1 f hf) hd.2 fun s hs => ?_).bind fun r hr =>
      .of_pure (forwarding_spares hstay hr)
    obtain ⟨xs, hxs, rfl⟩ := List.mem_map.mp hs
    exact .ofList (Signature.convertAll_spares ha hconv xs hxs)

end

/-! ### Steps -/

section

variable {env : Environment} {E : Engine}

mutual

/-- A step leaves the set as it is, and the cursor it leads to refers to nothing in it. The cases are those
of cursors. -/
theorem Cursor.step_keeps (hE : E.Spares T held) (henv : env.registry.Spares T) (c : Cursor) (hc : c.Spares T) :
    Keeps (World.Guards T held) (c.step env E) fun r => r.1.IfItem (Item.Spares T) ∧ r.2.Spares T := by
  match c with
  | .items xs => exact .of_pure (Step.emit_ifItem hc)
  | .emit xs => exact .of_pure (Step.emit_ifItem hc)
  | .candidates nodes principal test =>
    refine .of_pure ?_
    unfold candidatesStep
    split
    · exact ⟨trivial, trivial⟩
    · exact ⟨Item.spares_node _, trivial⟩
  | .descendants stack principal test =>
    refine .of_pure ?_
    unfold descendantsStep
    split
    · exact ⟨trivial, trivial⟩
    · dsimp only
      split
      · exact ⟨Item.spares_node _, trivial⟩
      · exact ⟨trivial, trivial⟩
  | .script label steps claimed =>
    refine (World.record_keeps (.pull label)).bind fun _ _ => ?_
    exact (runScript_keeps hc).bind fun r hr => .of_pure hr
  | .deferred d arrived => exact deferredStep_keeps d hc
  | .range next last =>
    refine .of_pure ?_
    unfold rangeStep
    split
    · exact ⟨Item.spares_atomic _, trivial⟩
    · exact ⟨trivial, trivial⟩
  | .reader b position => exact readerStep_keeps hE hc position
  | .map f input =>
    have hp := streamStep_keeps hE henv input hc
    exact (Step.map_keeps (fun x hx => f.apply_keeps env.forest hx) hp).bind fun r hr => .of_pure hr
  | .filter f input =>
    have hp := streamStep_keeps hE henv input hc
    exact (Step.filter_keeps (fun x => f.apply_keeps env.forest x) hp).bind fun r hr => .of_pure hr
  | .collect f seen input =>
    obtain ⟨hf, hseen, hs⟩ := hc
    have hp := streamStep_keeps hE henv input hs
    refine (Step.collect_keeps (fun xs hx => Collector.apply_keeps env.forest hf hx) hseen hp).bind ?_
    rintro ⟨o, ⟨seen, input⟩ | ys⟩ ⟨ho, hr⟩
    · exact .of_pure ⟨ho, hf, hr⟩
    · exact .of_pure ⟨ho, hr⟩
  | .outer f input =>
    have hp := streamStep_keeps hE henv input hc.2
    have happly {x : Item} (hx : Item.Spares T x) := Expander.apply_keeps hE henv hc.1 hx
    refine (Step.outer_keeps (Q := Item.Spares T) (fun _ => happly) hc.1 hp).bind ?_
    rintro ⟨o, f, input, _ | current⟩ ⟨ho, hf, hs, ht⟩
    · exact .of_pure ⟨ho, hf, hs⟩
    · exact .of_pure ⟨ho, hf, hs, ht current rfl⟩
  | .inner f input current =>
    obtain ⟨hf, hs, ht⟩ := hc
    refine (Step.inner_keeps (streamStep_keeps hE henv current ht)).bind ?_
    rintro ⟨o, _ | current⟩ ⟨ho, ht⟩
    · exact .of_pure ⟨ho, hf, hs⟩
    · exact .of_pure ⟨ho, hf, hs, ht current rfl⟩
  | .concat first rest =>
    refine (Step.concat_keeps (streamsSpare_iff.mp hc.2) (streamStep_keeps hE henv first hc.1)).bind ?_
    rintro ⟨o, first, rest⟩ ⟨ho, hs, hrest⟩
    exact .of_pure ⟨ho, hs, streamsSpare_iff.mpr hrest⟩
  | .take n input =>
    have hs : StreamSpares T input := hc
    exact (Step.take_keeps hs (streamStep_keeps hE henv input hs)).bind fun r hr => .of_pure hr
  | .atomize pending input =>
    have hs : StreamSpares T input := hc
    refine (Step.expand_keeps hs ((streamStep_keeps hE henv input hs).mono fun r hr => hr.2)).bind ?_
    rintro ⟨o, pending, input⟩ hs
    refine .of_pure ⟨?_, hs⟩
    cases o with
    | item v => exact Item.spares_atomic v
    | done | suspended | failed | skip => trivial
  | .zip f before current found after waiting =>
    obtain ⟨hf, hbefore, hs, hfound, hafter⟩ := hc
    have hr : Step.Round.Every (Item.Spares T) (StreamSpares T) ⟨before, ⟨current, found⟩, after, waiting⟩ :=
      ⟨slotsSpare_iff.mp hbefore, ⟨hs, hfound⟩, slotsSpare_iff.mp hafter⟩
    refine (Step.zip_keeps (Q := Item.Spares T) hr (streamStep_keeps hE henv current hs)).bind ?_
    rintro ⟨o, r | found⟩ ⟨ho, hr⟩
    · refine .of_pure ⟨ho, hf, slotsSpare_iff.mpr hr.before, hr.current.1, hr.current.2, ?_⟩
      exact slotsSpare_iff.mpr hr.after
    · exact .of_pure ⟨ho, hf, hr⟩
  | .combine f found =>
    exact (Combiner.apply_keeps hE henv hc.1 hc.2).bind fun r hr => .of_pure (forwarding_spares hc hr)
  | .forward input => exact (streamStep_keeps hE henv input hc).bind fun r hr => .of_pure hr
  | .truth position first input =>
    refine (Step.truth_keeps env.forest position first (streamStep_keeps hE henv input hc)).bind ?_
    rintro ⟨o, ⟨first, input⟩ | input⟩ ⟨ho, hs⟩ <;> exact .of_pure ⟨ho, hs⟩
  | .convert c input =>
    exact (c.step_keeps env.forest hc.1 hc.2 (streamStep_keeps hE henv input hc.2)).bind fun r hr => .of_pure hr
  | .gather d gathered seen current rest =>
    obtain ⟨hd, hgathered, hseen, hs, hrest⟩ := hc
    have hg : Step.Gathering.Every (Item.Spares T) (StreamSpares T) ⟨gathered, seen, current, rest⟩ :=
      ⟨hgathered, hseen, hs, streamsSpare_iff.mp hrest⟩
    refine (Step.gather_keeps (Q := Item.Spares T) hg (streamStep_keeps hE henv current hs)).bind ?_
    rintro ⟨o, g | arguments⟩ ⟨ho, hr⟩
    · exact .of_pure ⟨ho, hd, hr.gathered, hr.seen, hr.current, streamsSpare_iff.mpr hr.rest⟩
    · exact .of_pure ⟨ho, hd, hr⟩
  | .dispatch d arguments => exact dispatchStep_keeps hE env.forest hc.1 hc.2
  | .count seen input =>
    have hp := (streamStep_keeps hE henv input hc).mono fun r hr => hr.2
    refine (Step.count_keeps (Q := Item.Spares T) (measured_spares .count seen) hp).bind ?_
    rintro ⟨o, n, _ | input⟩ ⟨ho, hs⟩
    · exact .of_pure ⟨ho, .nil⟩
    · exact .of_pure ⟨ho, hs input rfl⟩
  | .presence wantsEmpty begun input =>
    -- the hint answers at once, or the input is looked into
    have hlook := streamLook_keeps hE henv input hc
    unfold Cursor.step
    split
    · exact .of_pure (presenceOutcome_spares wantsEmpty hc)
    · exact hlook.bind fun r hr => .of_pure (presenceOutcome_spares wantsEmpty hr)
  | .spent input => exact .of_pure ⟨trivial, hc⟩

/-- The same of a stream, which delivers what it has looked up before it takes a step. -/
theorem streamStep_keeps (hE : E.Spares T held) (henv : env.registry.Spares T) (s : StreamOf Item Cursor)
    (hs : StreamSpares T s) :
    Keeps (World.Guards T held) (streamStep env E s) fun r =>
      r.1.IfItem (Item.Spares T) ∧ StreamSpares T r.2 := by
  match s with
  | ⟨x :: xs, status⟩ =>
    obtain ⟨hx, hxs⟩ := itemsSpare_cons.mp hs.1
    exact .of_pure ⟨hx, hxs, hs.2⟩
  | ⟨[], status⟩ => exact statusStep_keeps hE henv status hs.2

/-- The same of the status of a stream, which runs on, has ended or has failed. -/
theorem statusStep_keeps (hE : E.Spares T held) (henv : env.registry.Spares T) (status : Status Cursor)
    (hs : StatusSpares T status) :
    Keeps (World.Guards T held) (statusStep env E status) fun r =>
      r.1.IfItem (Item.Spares T) ∧ StreamSpares T r.2 := by
  match status with
  | .done => exact .of_pure ⟨trivial, .empty⟩
  | .failed e => exact .of_pure ⟨trivial, .failed e⟩
  | .running c =>
    exact (Cursor.step_keeps hE henv c hs).bind fun r hr => .of_pure ⟨hr.1, .nil, statusAfter_spares hr.2⟩

/-- Looking ahead in a stream puts what it finds before its rest. -/
theorem streamLook_keeps (hE : E.Spares T held) (henv : env.registry.Spares T) (s : StreamOf Item Cursor)
    (hs : StreamSpares T s) :
    Keeps (World.Guards T held) (streamLook env E s) fun r => StreamSpares T r.2 := by
  match s with
  | ⟨ahead, status⟩ => exact statusLook_keeps hE henv ahead hs.1 status hs.2

/-- The same of the status of a stream and of the items it has looked up before. -/
theorem statusLook_keeps (hE : E.Spares T held) (henv : env.registry.Spares T) (ahead : List Item)
    (ha : ItemsSpare T ahead) (status : Status Cursor) (hs : StatusSpares T status) :
    Keeps (World.Guards T held) (statusLook env E ahead status) fun r => StreamSpares T r.2 := by
  match status with
  | .done =>
    unfold statusLook
    split <;> exact .of_pure ⟨ha, trivial⟩
  | .failed e =>
    unfold statusLook
    split <;> exact .of_pure ⟨ha, trivial⟩
  | .running c =>
    have hstep := Cursor.step_keeps hE henv c hs
    unfold statusLook
    split
    · exact .of_pure ⟨ha, hs⟩
    · refine hstep.bind ?_
      rintro ⟨o, c⟩ ⟨ho, hc⟩
      cases o with
      | item x => exact .of_pure ⟨itemsSpare_append.mpr ⟨ha, itemsSpare_cons.mpr ⟨ho, .nil⟩⟩, hc⟩
      | done | failed => exact .of_pure ⟨ha, trivial⟩
      | suspended | skip => exact .of_pure ⟨ha, hc⟩

end

end

/-- **Engines spare what is out of reach.** -/
theorem Engine.ofDepth_spares {env : Environment} (henv : env.registry.Spares T) (depth : Nat) :
    (Engine.ofDepth env depth).Spares T held := by
  -- the engine of a depth is made of the machine in the engine below it
  induction depth with
  | zero =>
    exact ⟨fun _ _ _ _ _ _ => .of_pure trivial, fun _ _ => .of_pure (.failed _),
      fun s hs => .of_pure ⟨trivial, hs⟩⟩
  | succ depth ih =>
    exact ⟨fun f scope arguments hf hscope ha => callFunction_keeps ih henv hf hscope ha,
      fun r hr => evaluateReplay_keeps ih henv hr, fun s hs => streamStep_keeps ih henv s hs⟩

end

/-! ### Buffers out of reach -/

/-- A buffer is out of reach of a stream: it is one of a set of buffers that the stream, the world and the
functions of the environment spare. -/
def OutOfReach (env : Environment) (b : BufferId) (s : Stream) (w : World) : Prop :=
  ∃ T held, T b ∧ env.registry.Spares T ∧ World.Guards T held w ∧ StreamSpares T s

namespace OutOfReach

variable {env : Environment} {b : BufferId} {s : Stream} {w : World}

/-- **A pull leaves alone what is out of reach**, and it stays out of reach. -/
theorem pulled (h : OutOfReach env b s w) (depth : Nat) {q}
    (hq : (Engine.ofDepth env depth).step s w = q) :
    OutOfReach env b q.1.2 q.2 ∧ q.2.buffers[b]? = w.buffers[b]? := by
  obtain ⟨T, held, hT, henv, hw, hs⟩ := h
  obtain ⟨hw', -, hs'⟩ := (Engine.ofDepth_spares henv depth).step s hs w hw
  rw [hq] at hw' hs'
  exact ⟨⟨T, held, hT, henv, hw', hs'⟩, (hw'.held b hT).trans (hw.held b hT).symm⟩

/-- A pull of its own source does not bring a buffer into reach. -/
theorem recorded (h : OutOfReach env b s w) (o : Outcome Item) (s' : Stream) :
    OutOfReach env b s (World.recordPull b o s' w).2 := by
  obtain ⟨T, held, hT, henv, hw, hs⟩ := h
  -- only the buffer itself changes, and it is one of the set
  refine ⟨T, Function.update held b ((held b).record o s'), hT, henv, ⟨?_, fun c hc => ?_⟩, hs⟩
  · exact hw.toSpares.recordPull fun hb => absurd hT hb
  · change (w.buffers.modify b _)[c]? = _
    rw [Array.getElem?_modify]
    by_cases hbc : b = c
    · subst hbc
      rw [if_pos rfl, hw.held b hT, Function.update_self]
      rfl
    · rw [if_neg hbc, Function.update_of_ne (Ne.symm hbc)]
      exact hw.held c hc

/-- A new buffer is out of reach of its source if nothing refers to it in advance. -/
theorem of_newBuffer {w' : World} (hb : World.newBuffer s w = (b, w')) (henv : env.registry.Spares (· = b))
    (hw : w.Spares (· = b)) (hs : StreamSpares (· = b) s) : OutOfReach env b s w' := by
  cases hb
  refine ⟨(· = w.buffers.size), fun _ => .start s, rfl, henv, ⟨hw.newBuffer fun h => absurd rfl h, ?_⟩, hs⟩
  rintro _ rfl
  exact Array.getElem?_push_size

end OutOfReach

end LazyXPath
