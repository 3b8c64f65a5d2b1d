import LazyXPath.Proofs.Arity
import LazyXPath.Proofs.Production.Call

/-!
# Partial application

A function that is applied to some of its arguments has the other parameters, in their order
(`Function.openParameters`). When it is called, the arguments that are left open are filled in (`fill`), and
the others are read again from buffers.

What a call of the function produces is found from what the function computes.

* The buffers are pledged the runs of the arguments (`partiallyApply_opens`). So the arguments of every call
  produce the same runs, from whatever situation on (`fillIn_produces`).
* The arguments that are filled in are converted twice, and so is the result. The second conversion changes
  nothing (`Run.convert_convert`).

A call of the function leads to a call of the function it was made from, by the engine below
(`Function.Answers.partially`). So each application costs one more depth, and a result for one application
applies to the result of another one.
-/

namespace LazyXPath

/-! ### Open places -/

section

variable {α β : Type}

/-- A list whose open places are filled in. -/
def fill : List (Option α) → List α → List α
  | [], _ => []
  | some a :: slots, xs => a :: fill slots xs
  | none :: slots, x :: xs => x :: fill slots xs
  | none :: _, [] => []

/-- A list some of whose open places are filled in. -/
def merge (slots again : List (Option α)) : List (Option α) := fill (slots.map (·.map some)) again

/-- The number of open places. -/
def openCount (slots : List (Option α)) : Nat := slots.countP (·.isNone)

@[simp] theorem openCount_nil : openCount ([] : List (Option α)) = 0 := rfl

@[simp] theorem openCount_some (a : α) (slots : List (Option α)) :
    openCount (some a :: slots) = openCount slots := by
  simp [openCount]

@[simp] theorem openCount_none (slots : List (Option α)) :
    openCount (none :: slots) = openCount slots + 1 := by
  simp [openCount]

@[simp] theorem openCount_map_some (slots : List (Option α)) :
    openCount (slots.map (·.map some)) = openCount slots := by
  simp [openCount, List.countP_map, Function.comp_def]

private theorem length_fill {slots : List (Option α)} {xs : List α} (h : xs.length = openCount slots) :
    (fill slots xs).length = slots.length := by
  fun_induction fill slots xs with
  | case1 => rfl
  | case2 a slots xs ih => simp [ih (by simpa using h)]
  | case3 slots x xs ih => simp [ih (by simpa using h)]
  | case4 => simp at h

private theorem length_merge {slots again : List (Option α)} (h : again.length = openCount slots) :
    (merge slots again).length = slots.length := by
  have hfill : (merge slots again).length = (slots.map (·.map some)).length := length_fill (by simpa using h)
  simpa using hfill

private theorem openCount_merge {slots again : List (Option α)} (h : again.length = openCount slots) :
    openCount (merge slots again) = openCount again := by
  unfold merge
  induction slots generalizing again with
  | nil => simp [fill, List.length_eq_zero_iff.1 h]
  | cons slot slots ih =>
    match slot, again with
    | some a, again => simpa [fill] using ih (by simpa using h)
    | none, [] => simp at h
    | none, none :: again => simpa [fill] using ih (by simpa using h)
    | none, some b :: again => simpa [fill] using ih (by simpa using h)

/-- Places that are filled in one after the other. -/
theorem fill_fill {slots again : List (Option α)} (h : again.length = openCount slots) (xs : List α) :
    fill slots (fill again xs) = fill (merge slots again) xs := by
  unfold merge
  induction slots generalizing again xs with
  | nil => simp [fill]
  | cons slot slots ih =>
    match slot, again, xs with
    | some a, again, xs => simpa [fill] using ih (by simpa using h) xs
    | none, [], xs => simp at h
    | none, some b :: again, xs => simpa [fill] using ih (by simpa using h) xs
    | none, none :: again, [] => simp [fill]
    | none, none :: again, x :: xs => simpa [fill] using ih (by simpa using h) xs

/-- The open places are the same in lists that are related. -/
theorem openCount_eq_of_rel {R : α → β → Prop} {slots : List (Option α)} {slots' : List (Option β)}
    (h : List.Forall₂ (Option.Rel R) slots slots') : openCount slots = openCount slots' := by
  induction h with
  | nil => rfl
  | cons hslot _ ih => cases hslot <;> simpa using ih

private theorem forall₂_rel_imp {R R' : α → β → Prop} {slots : List (Option α)} {slots' : List (Option β)}
    (hR : ∀ a b, R a b → R' a b) (h : List.Forall₂ (Option.Rel R) slots slots') :
    List.Forall₂ (Option.Rel R') slots slots' := by
  refine h.imp fun a b hab => ?_
  cases hab with
  | some hab => exact .some (hR _ _ hab)
  | none => exact .none

/-- What is filled in is related if the places are. -/
theorem forall₂_fill {R : α → β → Prop} {slots : List (Option α)} {slots' : List (Option β)} {xs : List α}
    {ys : List β} (h : List.Forall₂ (Option.Rel R) slots slots') (hxs : List.Forall₂ R xs ys) :
    List.Forall₂ R (fill slots xs) (fill slots' ys) := by
  induction h generalizing xs ys with
  | nil => exact .nil
  | cons hslot _ ih =>
    cases hslot with
    | some hab => exact .cons hab (ih hxs)
    | none =>
      cases hxs with
      | nil => exact .nil
      | cons hxy hxs => exact .cons hxy (ih hxs)

private theorem forall₂_merge {R : α → β → Prop} {slots again : List (Option α)} {slots' again' : List (Option β)}
    (h : List.Forall₂ (Option.Rel R) slots slots') (h' : List.Forall₂ (Option.Rel R) again again') :
    List.Forall₂ (Option.Rel R) (merge slots again) (merge slots' again') := by
  refine forall₂_fill ?_ h'
  rw [List.forall₂_map_left_iff, List.forall₂_map_right_iff]
  refine h.imp fun a b hab => ?_
  cases hab with
  | some hab => exact .some (.some hab)
  | none => exact .none

end

/-! ### Open parameters -/

namespace Function

variable {types : List SequenceType} {arguments again : List (Option Stream)}

private theorem length_openParameters (h : types.length = arguments.length) :
    (openParameters types arguments).length = openCount arguments := by
  induction arguments generalizing types with
  | nil => simp [openParameters]
  | cons a arguments ih =>
    match types, a with
    | [], _ => simp at h
    | type :: types, none => simp [openParameters, ih (by simpa using h)]
    | type :: types, some s => simp [openParameters, ih (by simpa using h)]

/-- Parameters are left open in their order. -/
theorem map_some_openParameters (h : types.length = arguments.length) :
    (openParameters types arguments).map some = (arguments.findIdxs (·.isNone)).map (types[·]?) := by
  induction arguments generalizing types with
  | nil => simp [openParameters]
  | cons a arguments ih =>
    match types, a with
    | [], _ => simp at h
    | type :: types, none =>
      simp [openParameters, ih (by simpa using h), List.findIdxs_start (s := 1), Function.comp_def]
    | type :: types, some s =>
      simp [openParameters, ih (by simpa using h), List.findIdxs_start (s := 1), Function.comp_def]

/-- Parameters that are left open again. -/
theorem openParameters_openParameters (h : types.length = arguments.length)
    (h' : again.length = openCount arguments) :
    openParameters (openParameters types arguments) again = openParameters types (merge arguments again) := by
  unfold merge
  induction arguments generalizing types again with
  | nil =>
    obtain rfl : types = [] := List.length_eq_zero_iff.1 h
    simp [openParameters]
  | cons a arguments ih =>
    match types, a, again with
    | [], _, _ => simp at h
    | type :: types, some s, again => simpa [openParameters, fill] using ih (by simpa using h) (by simpa using h')
    | type :: types, none, [] => simp at h'
    | type :: types, none, none :: again =>
      simpa [openParameters, fill] using ih (by simpa using h) (by simpa using h')
    | type :: types, none, some s :: again =>
      simpa [openParameters, fill] using ih (by simpa using h) (by simpa using h')

end Function

/-! ### Conversions -/

namespace Signature

variable {forest : Forest} {signature : Signature} {rs : List (Run Item)}

/-- The conversion of as many arguments as there are parameters. -/
theorem convertRuns_eq_zipWith (h : signature.rest = none) (hlength : rs.length = signature.params.length) :
    signature.convertRuns forest rs = List.zipWith (fun type r => r.convert forest type) signature.params rs := by
  refine List.ext_getElem (by simp [convertRuns, hlength]) ?_
  intro i hi hi'
  have hi : i < signature.params.length := by simpa [convertRuns, hlength] using hi
  simp [convertRuns, param?, h, hi]

/-- Signatures with the same types for arguments convert runs in the same way. -/
theorem convertRuns_congr {t : Signature} (h : ∀ i < rs.length, t.param? i = signature.param? i) :
    t.convertRuns forest rs = signature.convertRuns forest rs := by
  refine List.ext_getElem (by simp [convertRuns]) ?_
  intro i hi _
  have hi : i < rs.length := by simpa [convertRuns] using hi
  simp only [convertRuns, List.getElem_mapIdx, h i hi]

end Signature

/-- Arguments that have been converted before they are filled in are not changed by another conversion. -/
theorem zipWith_convert_fill {R : Stream → Run Item → Prop} (forest : Forest) {types : List SequenceType}
    {arguments : List (Option Stream)} {bound : List (Option (Run Item))}
    (h : List.Forall₂ (Option.Rel R) arguments bound) (hlength : types.length = arguments.length)
    (ss : List (Run Item)) :
    let convert := fun (type : SequenceType) (r : Run Item) => r.convert forest type
    List.zipWith convert types
        (fill bound (List.zipWith convert (Function.openParameters types arguments) ss)) =
      List.zipWith convert types (fill bound ss) := by
  intro convert
  induction h generalizing types ss with
  | nil => simp [fill]
  | cons hslot _ ih =>
    match types, hslot with
    | [], _ => simp at hlength
    | type :: types, .some _ => simp [Function.openParameters, fill, ih (by simpa using hlength)]
    | type :: types, .none =>
      cases ss with
      | nil => simp [Function.openParameters, fill]
      | cons r ss => simp [Function.openParameters, fill, convert, Run.convert_convert, ih (by simpa using hlength)]

/-- Arguments that are left open may be converted before they are filled in as well. -/
theorem Signature.convertRuns_fill (forest : Forest) (signature : Signature) {R : Stream → Run Item → Prop}
    {arguments : List (Option Stream)} {bound : List (Option (Run Item))} {ss : List (Run Item)}
    {returns : SequenceType} (hrest : signature.rest = none)
    (h : List.Forall₂ (Option.Rel R) arguments bound) (hparams : signature.params.length = arguments.length)
    (hlength : ss.length = openCount bound) :
    signature.convertRuns forest (fill bound
        (convertRuns forest ⟨Function.openParameters signature.params arguments, none, returns⟩ ss)) =
      signature.convertRuns forest (fill bound ss) := by
  let convert := fun (type : SequenceType) (r : Run Item) => r.convert forest type
  have hss : ss.length = (Function.openParameters signature.params arguments).length := by
    rw [hlength, Function.length_openParameters hparams, openCount_eq_of_rel h]
  have hfull {ss : List (Run Item)} (hss : ss.length = openCount bound) :
      signature.convertRuns forest (fill bound ss) = List.zipWith convert signature.params (fill bound ss) := by
    refine convertRuns_eq_zipWith hrest ?_
    rw [length_fill hss, ← h.length_eq, hparams]
  have hopen : convertRuns forest ⟨Function.openParameters signature.params arguments, none, returns⟩ ss =
      List.zipWith convert (Function.openParameters signature.params arguments) ss :=
    convertRuns_eq_zipWith rfl hss
  calc
    _ = List.zipWith convert signature.params
          (fill bound (List.zipWith convert (Function.openParameters signature.params arguments) ss)) := by
      rw [hopen]
      exact hfull (by simp [← hss, hlength])
    _ = List.zipWith convert signature.params (fill bound ss) := zipWith_convert_fill forest h hparams ss
    _ = signature.convertRuns forest (fill bound ss) := (hfull hlength).symm

/-! ### What a function answers -/

section

variable {env : Environment} {values : List (DeferredId × Except Error (List Item))} {j k l : Nat}
  {ω ω₁ : Situation} {scope : Scope}

/-- A call among more buffers. -/
theorem calls_of_le {call : StateM (World × Nat) (Except Error Stream)} {r : Run Item} (hkl : k ≤ l)
    (h : (regime env values k).Calls env ω call r) : (regime env values l).Calls env ω call r := by
  intro ω₁ h₁ hv
  obtain ⟨result, ω₂, hf, he, hv₂, hp⟩ := h ω₁ h₁ (valid_of_le hkl hv)
  refine ⟨result, ω₂, hf, effect_of_le hkl he, ?_, hp.lift hkl⟩
  exact valid_of_kept hv (he.1.mono fun _ _ hr => hr.1) he.2 hv₂

/-- What the engine below does, at one depth more. -/
theorem calls_below {call : Engine → Action (Except Error Stream)} {r : Run Item}
    (h : (regime env values l).Calls env ω (atDepth env call) r) :
    (regime env values (l + 1)).Calls env ω (belowDepth env call) r := by
  intro ω₁ h₁ hv
  obtain ⟨depth, hd⟩ := exists_depth_eq hv
  have hdown (S : BufferId → Nat → Prop) : Moves values S ω₁ { ω₁ with depth } :=
    .atDepth ((standard env values (l + 1)).sane hv.2) depth
  have hbelow : (regime env values l).Valid { ω₁ with depth } := by
    refine ⟨?_, (standard env values l).stable (valid_of_le (Nat.le_succ l) hv).2 (hdown _)⟩
    have hlt : l + 1 < depth + 1 := hd ▸ hv.1
    exact Nat.lt_of_succ_lt_succ hlt
  obtain ⟨result, ω₂, hcall, he, hv₂, hp⟩ := h _ (h₁.trans (hdown fun _ _ => True).evolves) hbelow
  -- back to the depth of the call
  have hup (S : BufferId → Nat → Prop) : Moves values S ω₂ { ω₂ with depth := ω₁.depth } :=
    .atDepth he.1.sane ω₁.depth
  have hm : Moves values (fun _ r => l ≤ r) ω₁ { ω₂ with depth := ω₁.depth } :=
    ((hdown _).trans he.1).trans (hup _)
  have hv₃ : (regime env values l).Valid { ω₂ with depth := ω₁.depth } :=
    ⟨Nat.lt_of_succ_lt hv.1, (standard env values l).stable hv₂.2 (hup _)⟩
  refine ⟨result, { ω₂ with depth := ω₁.depth }, ?_, ⟨hm.mono fun _ _ hr => Nat.le_of_succ_le hr, rfl⟩,
    valid_of_kept hv (hm.mono fun _ _ hr => hr.1) rfl hv₃, ?_⟩
  · have hcall : atDepth env call (ω₁.world, depth) = (result, ω₂.world, ω₂.depth) := hcall
    have hresult : (call (.ofDepth env depth) ω₁.world).1 = result := congrArg Prod.fst hcall
    have hworld : (call (.ofDepth env depth) ω₁.world).2 = ω₂.world := congrArg (fun p => p.2.1) hcall
    simp only [belowDepth, hd, hresult, hworld]
  · exact (Produces.later (F := regime env values l) hp (hup fun _ _ => True).evolves).lift (Nat.le_succ l)

variable (env values) in
/-- From a situation on, a function answers with a run to all arguments that are converted to the given runs.
The arguments read buffers of ranks below `k`, and the call takes place at a depth above `l`. -/
def Function.Answers (k l : Nat) (ω : Situation) (f : Function) (scope : Scope) (rs : List (Run Item))
    (r : Run Item) : Prop :=
  ∀ ω₁ arguments rs', Evolves ω ω₁ → f.signature.accepts arguments.length →
    List.Forall₂ (Produces (regime env values k) (streamPull env) ω₁) arguments rs' →
    f.signature.convertRuns env.forest rs' = rs →
    (regime env values l).Calls env ω₁ (atDepth env fun E => E.invoke f scope arguments) r

namespace Function

variable {f g target : Function} {rs : List (Run Item)} {r : Run Item}

/-- A function answers with what it computes. -/
theorem Computes.answers (h : f.Computes env (regime env values k) ω scope rs r) :
    f.Answers env values k k ω scope rs (r.convert env.forest f.signature.returns) := by
  rintro ω₁ arguments rs' h₁ hf ha rfl
  exact Computes.invoke hf ha (Computes.later (F := regime env values k) h h₁)

/-- The call to which a function answers. -/
theorem Answers.calls {l' : Nat} {arguments : List Stream} (hl : l ≤ l') (hf : f.signature.accepts arguments.length)
    (hs : List.Forall₂ (Produces (regime env values k) (streamPull env) ω) arguments rs)
    (h : f.Answers env values k l ω scope (f.signature.convertRuns env.forest rs) r) :
    (regime env values l').Calls env ω (atDepth env fun E => E.invoke f scope arguments) r :=
  calls_of_le hl (h ω arguments rs (.refl ω) hf hs rfl)

/-- A function for a fixed number of arguments answers as the function does. -/
theorem Answers.fixed {n : Nat} (hfixed : f.FixedTo n target) (hf : f.signature.accepts n)
    (h : f.Answers env values k l ω scope rs r) : target.Answers env values k l ω scope rs r := by
  rintro ω₁ arguments rs' h₁ ha hs rfl
  obtain rfl : arguments.length = n := (hfixed.accepts_iff _).1 ha
  have hrs : f.signature.convertRuns env.forest rs' = target.signature.convertRuns env.forest rs' := by
    refine Signature.convertRuns_congr fun i hi => ?_
    exact (hfixed.param? (hs.length_eq ▸ hi)).symm
  have hinvoke : (atDepth env fun E => E.invoke target scope arguments) =
      atDepth env fun E => E.invoke f scope arguments := by
    funext p
    simp only [atDepth, hfixed.invoke hf]
  rw [hinvoke]
  exact h ω₁ arguments rs' h₁ hf hs hrs

end Function

/-! ### Arguments that are read again -/

/-- The arguments of a call, of which some are read from buffers. -/
theorem fillIn_produces {ids : List (Option BufferId)} {bound : List (Option (Run Item))}
    {supplied : List Stream} {ss : List (Run Item)} (hjk : j < k) (hω : ω.Sane values)
    (h : List.Forall₂ (Option.Rel fun b r => ω.pledges b = some ⟨j, r⟩) ids bound)
    (hs : List.Forall₂ (Produces (regime env values k) (streamPull env) ω) supplied ss)
    (hlength : ss.length = openCount bound) :
    List.Forall₂ (Produces (regime env values k) (streamPull env) ω) (Function.fillIn ids supplied)
      (fill bound ss) := by
  induction h generalizing supplied ss with
  | nil => exact .nil
  | cons hslot _ ih =>
    cases hslot with
    | some hb => exact .cons (buffered_produces hjk hb hω) (ih hs (by simpa using hlength))
    | none =>
      cases hs with
      | nil => simp at hlength
      | cons hr hs => exact .cons hr (ih hs (by simpa using hlength))

/-- The call of a function applied to some of its arguments, which are read from buffers. -/
theorem Function.Answers.partially {g target : Function} {ids : List (Option BufferId)}
    {bound : List (Option (Run Item))} {ss : List (Run Item)} {r : Run Item} (hjk : j < k)
    (hg : g.callable = .partially target ids)
    (hids : List.Forall₂ (Option.Rel fun b r => ω.pledges b = some ⟨j, r⟩) ids bound)
    (hbound : target.signature.accepts bound.length) (hlength : ss.length = openCount bound)
    (h : target.Answers env values k l ω scope (target.signature.convertRuns env.forest (fill bound ss)) r) :
    g.Answers env values k (l + 1) ω scope ss (r.convert env.forest g.signature.returns) := by
  rintro ω₁ arguments rs h₁ ha hs rfl
  intro ω₂ h₂ hv
  have hevolves : Evolves ω ω₂ := h₁.trans h₂
  have hconverted := g.signature.convertArguments_produces (forall₂_produces_later hs h₂)
  have hfull := fillIn_produces hjk ((standard env values (l + 1)).sane hv.2)
    (forall₂_rel_imp (fun _ _ hb => hevolves.pledges _ _ hb) hids) hconverted hlength
  have haccepts : target.signature.accepts
      (Function.fillIn ids (g.signature.convertArguments arguments)).length := by
    rwa [hfull.length_eq, length_fill hlength]
  have hbelow : (regime env values (l + 1)).Calls env ω₂ (belowDepth env fun E =>
      applyFunction env E g scope (g.signature.convertArguments arguments)) r := by
    simp only [applyFunction, hg]
    exact calls_below (h ω₂ _ _ hevolves haccepts hfull rfl)
  simp only [Engine.invoke, if_pos ha]
  exact hbelow.call ω₂ (.refl ω₂) hv

/-! ### The function that is made -/

/-- The situation in which the identity of the next function is another one. -/
def Situation.withIdentity (ω : Situation) (identity : Nat) : Situation :=
  { ω with world := { ω.world with nextIdentity := identity } }

private theorem Moves.withIdentity {S : BufferId → Nat → Prop} (h : ω.Sane values) (identity : Nat) :
    Moves values S ω (ω.withIdentity identity) :=
  ⟨⟨fun _ _ h => h, fun _ _ h => h, fun _ β h => ⟨β, h, Nat.le_refl _⟩⟩,
    ⟨h.arrivals, h.operators, h.pledged⟩, fun _ _ hp _ => ⟨hp, rfl⟩⟩

/-- New buffers over streams that produce runs, which are pledged. -/
theorem newBuffers_opens {arguments : List (Option Stream)} {bound : List (Option (Run Item))} (hjl : j < l)
    (hv : (regime env values l).Valid ω)
    (h : List.Forall₂ (Option.Rel (Produces (regime env values j) (streamPull env) ω)) arguments bound) :
    ∃ ids ω₁, World.newBuffers arguments ω.world = (ids, ω₁.world) ∧ (regime env values l).effect ω ω₁ ∧
      (regime env values l).Valid ω₁ ∧
      List.Forall₂ (Option.Rel fun b r => ω₁.pledges b = some ⟨j, r⟩) ids bound := by
  induction arguments generalizing ω bound with
  | nil =>
    cases h
    exact ⟨[], ω, rfl, ⟨.refl ((standard env values l).sane hv.2), rfl⟩, hv, .nil⟩
  | cons a arguments ih =>
    cases h with
    | cons hslot hrest =>
      cases hslot with
      | none =>
        obtain ⟨ids, ω₁, hids, he, hv₁, hp⟩ := ih hv hrest
        refine ⟨none :: ids, ω₁, ?_, he, hv₁, .cons .none hp⟩
        simp only [World.newBuffers, bind, StateT.bind, hids]
        rfl
      | @some s r hs =>
        have he := newBuffer_effect hv hjl s r
        have hrest := forall₂_rel_imp (fun _ _ h => Produces.later (F := regime env values j) h he.1.evolves) hrest
        obtain ⟨ids, ω₁, hids, he', hv₁, hp⟩ := ih (newBuffer_valid hv hs) hrest
        have hb := he'.1.evolves.pledges _ _ (newBuffer_pledges_self ω s ⟨j, r⟩)
        refine ⟨some ω.world.buffers.size :: ids, ω₁, ?_, (regime env values l).effect_trans he he', hv₁,
          .cons (.some hb) hp⟩
        have hnew : World.newBuffer s ω.world = (ω.world.buffers.size, (ω.newBuffer s ⟨j, r⟩).world) := rfl
        simp only [World.newBuffers, bind, StateT.bind, hnew, hids]
        rfl

/-- A function `g` that has been made of a function `f` and some of its arguments. These are read from buffers
that are pledged the runs of the arguments. -/
structure Function.Binds (j : Nat) (ω : Situation) (f : Function) (arguments : List (Option Stream))
    (bound : List (Option (Run Item))) (g : Function) : Prop where
  accepts : f.signature.accepts arguments.length
  places : List.Forall₂ (Option.Rel fun _ _ => True) arguments bound
  made : ∃ target ids, f.FixedTo arguments.length target ∧
    g.signature = ⟨openParameters target.signature.params arguments, none, target.signature.returns⟩ ∧
    g.callable = .partially target ids ∧
    List.Forall₂ (Option.Rel fun b r => ω.pledges b = some ⟨j, r⟩) ids bound

private theorem partiallyApply_eq {f target : Function} {arguments : List (Option Stream)} {w w' : World}
    {ids : List (Option BufferId)} (h : f.forArguments w.nextIdentity arguments.length = .ok target)
    (hids : World.newBuffers arguments { w with nextIdentity := w.nextIdentity + 2 } = (ids, w')) :
    f.partiallyApply arguments w = (.ok {
      identity := w.nextIdentity + 1
      name := none
      signature := ⟨Function.openParameters target.signature.params arguments, none, target.signature.returns⟩
      callable := .partially target ids }, w') := by
  have hfirst : World.newIdentity w = (w.nextIdentity, { w with nextIdentity := w.nextIdentity + 1 }) := rfl
  have hsecond : World.newIdentity { w with nextIdentity := w.nextIdentity + 1 } =
      (w.nextIdentity + 1, { w with nextIdentity := w.nextIdentity + 2 }) := rfl
  simp only [Function.partiallyApply, bind, StateT.bind, hfirst, h, hsecond, hids]
  rfl

/-- **A function can be applied to some of its arguments** whenever it accepts their number. -/
theorem partiallyApply_opens {f : Function} {arguments : List (Option Stream)} {bound : List (Option (Run Item))}
    (hjl : j < l) (hv : (regime env values l).Valid ω) (hf : f.signature.accepts arguments.length)
    (h : List.Forall₂ (Option.Rel (Produces (regime env values j) (streamPull env) ω)) arguments bound) :
    ∃ g ω₁, f.partiallyApply arguments ω.world = (.ok g, ω₁.world) ∧
      (regime env values l).effect ω ω₁ ∧ (regime env values l).Valid ω₁ ∧
      f.Binds j ω₁ arguments bound g := by
  obtain ⟨target, htarget, hfixed⟩ := Function.forArguments_of_accepts hf ω.world.nextIdentity
  have hm (S : BufferId → Nat → Prop) :=
    Moves.withIdentity (S := S) ((standard env values l).sane hv.2) (ω.world.nextIdentity + 2)
  have hv' : (regime env values l).Valid (ω.withIdentity (ω.world.nextIdentity + 2)) :=
    ⟨hv.1, (standard env values l).stable hv.2 (hm _)⟩
  have h' := forall₂_rel_imp
    (fun _ _ h => Produces.later (F := regime env values j) h (hm fun _ _ => True).evolves) h
  obtain ⟨ids, ω₁, hids, he, hv₁, hp⟩ := newBuffers_opens hjl hv' h'
  have hplaces := forall₂_rel_imp (fun _ _ _ => trivial) h
  exact ⟨_, ω₁, partiallyApply_eq htarget hids, (regime env values l).effect_trans ⟨hm _, rfl⟩ he, hv₁,
    ⟨hf, hplaces, target, ids, hfixed, rfl, rfl, hp⟩⟩

namespace Function.Binds

variable {f g : Function} {arguments : List (Option Stream)} {bound : List (Option (Run Item))}
  {ss : List (Run Item)} {r : Run Item}

private theorem later (h : f.Binds j ω arguments bound g) (h₁ : Evolves ω ω₁) : f.Binds j ω₁ arguments bound g := by
  obtain ⟨haccepts, hplaces, target, ids, hfixed, hsignature, hcallable, hids⟩ := h
  have hids := forall₂_rel_imp (fun _ _ hb => h₁.pledges _ _ hb) hids
  exact ⟨haccepts, hplaces, target, ids, hfixed, hsignature, hcallable, hids⟩

/-- The parameters are the ones that were left open, in their order. -/
theorem signature_eq (h : f.Binds j ω arguments bound g) :
    g.signature.params.map some = (arguments.findIdxs (·.isNone)).map f.signature.param? ∧
      g.signature.rest = none ∧ g.signature.returns = f.signature.returns := by
  obtain ⟨-, -, target, ids, hfixed, hsignature, -, -⟩ := h
  rw [hsignature]
  refine ⟨?_, rfl, hfixed.returns⟩
  rw [Function.map_some_openParameters hfixed.length]
  exact List.map_congr_left fun i hi => hfixed.params i (List.lt_add_of_mem_findIdxs i hi)

private theorem accepts_iff (h : f.Binds j ω arguments bound g) (n : Nat) :
    g.signature.accepts n ↔ n = openCount arguments := by
  obtain ⟨-, -, target, ids, hfixed, hsignature, -, -⟩ := h
  rw [hsignature, ← Function.length_openParameters hfixed.length]
  simp [Signature.accepts, Signature.arity]

/-- **The answer of the function that is made** is that of the function it is made of. -/
theorem answers (h : f.Binds j ω arguments bound g) (hjk : j < k) (hlength : ss.length = openCount bound)
    (hr : r.convert env.forest f.signature.returns = r)
    (hf : f.Answers env values k l ω scope (f.signature.convertRuns env.forest (fill bound ss)) r) :
    g.Answers env values k (l + 1) ω scope (g.signature.convertRuns env.forest ss) r := by
  obtain ⟨haccepts, hplaces, target, ids, hfixed, hsignature, hcallable, hids⟩ := h
  have hn : bound.length = arguments.length := hplaces.length_eq.symm
  have htarget : target.signature.convertRuns env.forest (fill bound ss) =
      f.signature.convertRuns env.forest (fill bound ss) := by
    refine Signature.convertRuns_congr fun i hi => hfixed.param? ?_
    rwa [length_fill hlength, hn] at hi
  have hconverted : target.signature.convertRuns env.forest
      (fill bound (g.signature.convertRuns env.forest ss)) =
        f.signature.convertRuns env.forest (fill bound ss) := by
    rw [hsignature, ← htarget]
    exact target.signature.convertRuns_fill env.forest hfixed.rest hplaces hfixed.length hlength
  have hg : g.Answers env values k (l + 1) ω scope (g.signature.convertRuns env.forest ss)
      (r.convert env.forest g.signature.returns) := by
    refine Answers.partially hjk hcallable hids ?_ ?_ ?_
    · rw [hn]
      exact (hfixed.accepts_iff _).2 rfl
    · simpa [Signature.convertRuns] using hlength
    · rw [hconverted]
      exact hf.fixed hfixed haccepts
  have hreturns : g.signature.returns = f.signature.returns := by
    rw [hsignature]
    exact hfixed.returns
  rwa [hreturns, hr] at hg

/-- The answer after two applications. -/
theorem answers_again {g' : Function} {again : List (Option Stream)} {bound' : List (Option (Run Item))}
    (hg : f.Binds j ω arguments bound g) (hg' : g.Binds j ω again bound' g') (hjk : j < k)
    (hbound' : bound'.length = openCount bound) (hlength : ss.length = openCount bound')
    (hr : r.convert env.forest f.signature.returns = r)
    (hf : f.Answers env values k l ω scope
      (f.signature.convertRuns env.forest (fill (merge bound bound') ss)) r) :
    g'.Answers env values k (l + 2) ω scope (g'.signature.convertRuns env.forest ss) r := by
  rw [← fill_fill hbound'] at hf
  have hfull : (fill bound' ss).length = openCount bound := by rw [length_fill hlength, hbound']
  have hreturns : r.convert env.forest g.signature.returns = r := by rwa [hg.signature_eq.2.2]
  exact hg'.answers hjk hlength hreturns (hg.answers hjk hfull hr hf)

private theorem openCount_eq (h : f.Binds j ω arguments bound g) : openCount arguments = openCount bound :=
  openCount_eq_of_rel h.places

section

variable {supplied : List Stream}

/-- A call of the function that is made. -/
theorem calls {n : Nat} (h : f.Binds j ω arguments bound g) (hjk : j < k) (hkn : k + 1 ≤ n)
    (hsupplied : supplied.length = openCount arguments)
    (hs : List.Forall₂ (Produces (regime env values k) (streamPull env) ω) supplied ss)
    (hf : f.Computes env (regime env values k) ω scope
      (f.signature.convertRuns env.forest (fill bound ss)) r) :
    (regime env values n).Calls env ω (atDepth env fun E => E.invoke g scope supplied)
      (r.convert env.forest f.signature.returns) := by
  have hlength : ss.length = openCount bound := by rw [← hs.length_eq, hsupplied, h.openCount_eq]
  have hanswers := h.answers hjk hlength Run.convert_convert hf.answers
  exact hanswers.calls hkn ((h.accepts_iff _).2 hsupplied) hs

/-- A call after two applications. -/
theorem calls_again {n : Nat} {g' : Function} {again : List (Option Stream)} {bound' : List (Option (Run Item))}
    (hg : f.Binds j ω arguments bound g) (hg' : g.Binds j ω again bound' g') (hjk : j < k) (hkn : k + 2 ≤ n)
    (hagain : again.length = openCount arguments) (hsupplied : supplied.length = openCount again)
    (hs : List.Forall₂ (Produces (regime env values k) (streamPull env) ω) supplied ss)
    (hf : f.Computes env (regime env values k) ω scope
      (f.signature.convertRuns env.forest (fill (merge bound bound') ss)) r) :
    (regime env values n).Calls env ω (atDepth env fun E => E.invoke g' scope supplied)
      (r.convert env.forest f.signature.returns) := by
  have hbound' : bound'.length = openCount bound := by
    rw [← hg'.places.length_eq, hagain, hg.openCount_eq]
  have hlength : ss.length = openCount bound' := by rw [← hs.length_eq, hsupplied, hg'.openCount_eq]
  have hanswers := hg.answers_again hg' hjk hbound' hlength Run.convert_convert hf.answers
  exact hanswers.calls hkn ((hg'.accepts_iff _).2 hsupplied) hs

end

/-- Two applications have the signature of one. -/
theorem signature_merge {g' h : Function} {again : List (Option Stream)} {bound' bound'' : List (Option (Run Item))}
    {ω₂ : Situation} (hg : f.Binds j ω arguments bound g) (hg' : g.Binds j ω₁ again bound' g')
    (hh : f.Binds j ω₂ (merge arguments again) bound'' h) (hagain : again.length = openCount arguments) :
    g'.signature = h.signature := by
  obtain ⟨-, -, target, ids, hfixed, hsignature, -, -⟩ := hg
  obtain ⟨-, -, target', ids', hfixed', hsignature', -, -⟩ := hg'
  obtain ⟨-, -, target'', ids'', hfixed'', hsignature'', -, -⟩ := hh
  rw [length_merge hagain] at hfixed''
  have hlength : g.signature.params.length = again.length := by
    rw [hsignature, hagain, Function.length_openParameters hfixed.length]
  have hself : g.FixedTo again.length g := hlength ▸ .self (by rw [hsignature])
  rw [hsignature', hsignature'', hfixed'.params_eq hself, hfixed'.returns, hsignature, hfixed''.params_eq hfixed,
    Function.openParameters_openParameters hfixed.length hagain, hfixed.returns, hfixed''.returns]

end Function.Binds

/-- **Partial application is transparent.** Let a function accept the number of the arguments, some of which
are left open, and let the others produce runs. Then the function can be applied to them, and the result has
a parameter for each open argument, in their order. What it does is said for whatever the function computes
from the runs of all its arguments, whenever a call takes place.

* A call of the result with the open arguments produces what a call of the function with all arguments in
  their places produces.
* If several calls of the result are made, each of them at any time, and their streams are pulled in turns,
  then each call reports its own run.
* The result can be applied to some of its arguments again. This has the same signature as one application
  to all the arguments that are given then, and its calls produce the same.

The arguments read buffers of ranks below `k`, and those that are given are of a smaller rank. Calls take place
at a depth that exceeds this by one for each application. -/
theorem partiallyApply_transparent (f : Function) {arguments : List (Option Stream)}
    {bound : List (Option (Run Item))} (hjk : j < k) (hv : (regime env values (k + 2)).Valid ω)
    (hf : f.signature.accepts arguments.length)
    (hbound : List.Forall₂ (Option.Rel (Produces (regime env values j) (streamPull env) ω)) arguments bound) :
    let F := regime env values (k + 2)
    let call (g : Function) (scope : Scope) (supplied : List Stream) :=
      atDepth env fun E => E.invoke g scope supplied
    let computes (ω : Situation) (scope : Scope) (rs : List (Run Item)) (r : Run Item) :=
      f.Computes env (regime env values k) ω scope (f.signature.convertRuns env.forest rs) r
    let produces (ω : Situation) := List.Forall₂ (Produces (regime env values k) (streamPull env) ω)
    let result (r : Run Item) := r.convert env.forest f.signature.returns
    ∃ g ω₁, f.partiallyApply arguments ω.world = (.ok g, ω₁.world) ∧ F.effect ω ω₁ ∧ F.Valid ω₁ ∧
      (g.signature.params.map some = (arguments.findIdxs (·.isNone)).map f.signature.param? ∧
        g.signature.rest = none ∧ g.signature.returns = f.signature.returns) ∧
      (∀ ω₂ scope supplied ss r, Evolves ω₁ ω₂ → supplied.length = openCount arguments →
        produces ω₂ supplied ss → computes ω₂ scope (fill bound ss) r →
          F.Calls env ω₂ (call g scope supplied) (result r) ∧
          F.Calls env ω₂ (call f scope (fill arguments supplied)) (result r)) ∧
      (∀ (ι : Type) ω₂ (scope : ι → Scope) (supplied : ι → List Stream) (ss : ι → List (Run Item))
        (r : ι → Run Item), Evolves ω₁ ω₂ → F.Valid ω₂ → (∀ i, (supplied i).length = openCount arguments) →
        (∀ i, produces ω₂ (supplied i) (ss i)) → (∀ i, computes ω₂ (scope i) (fill bound (ss i)) (r i)) →
        (∀ i, (result (r i)).tail ≠ .unknown) →
          ∀ opened p, Relation.ReflTransGen (CallTurn env F fun i => call g (scope i) (supplied i))
            ([], F.world ω₂) (opened, p) → ∀ x ∈ opened, (result (r x.call)).Allows x.reports) ∧
      ∀ ω₂ again bound', Evolves ω₁ ω₂ → F.Valid ω₂ → again.length = openCount arguments →
        List.Forall₂ (Option.Rel (Produces (regime env values j) (streamPull env) ω₂)) again bound' →
          ∃ g' ω₃ h ω₄, g.partiallyApply again ω₂.world = (.ok g', ω₃.world) ∧ F.effect ω₂ ω₃ ∧ F.Valid ω₃ ∧
            f.partiallyApply (merge arguments again) ω₂.world = (.ok h, ω₄.world) ∧ F.effect ω₂ ω₄ ∧
            F.Valid ω₄ ∧ g'.signature = h.signature ∧
            ∀ ω₅ scope supplied ss r, supplied.length = openCount again → produces ω₅ supplied ss →
              computes ω₅ scope (fill (merge bound bound') ss) r →
                (Evolves ω₃ ω₅ → F.Calls env ω₅ (call g' scope supplied) (result r)) ∧
                (Evolves ω₄ ω₅ → F.Calls env ω₅ (call h scope supplied) (result r)) := by
  intro F call computes produces result
  obtain ⟨g, ω₁, hg, he, hv₁, hbinds⟩ := partiallyApply_opens (by omega) hv hf hbound
  have hgiven {ω₂ : Situation} (h₂ : Evolves ω₁ ω₂) :
      List.Forall₂ (Option.Rel (Produces (regime env values j) (streamPull env) ω₂)) arguments bound :=
    forall₂_rel_imp (fun _ _ h => Produces.later (F := regime env values j) h (he.1.evolves.trans h₂)) hbound
  refine ⟨g, ω₁, hg, he, hv₁, hbinds.signature_eq, ?_, ?_, ?_⟩
  · intro ω₂ scope supplied ss r h₂ hsupplied hs hc
    refine ⟨(hbinds.later h₂).calls hjk (by omega) hsupplied hs hc, ?_⟩
    have hall := forall₂_fill (forall₂_rel_imp (fun _ _ h => h.lift (Nat.le_of_lt hjk)) (hgiven h₂)) hs
    exact hc.answers.calls (by omega) (by rwa [length_fill hsupplied]) hall
  · intro ι ω₂ scope supplied ss r h₂ hv₂ hsupplied hs hc ht opened p hturns
    refine turns_allow (fun i => ?_) ht hv₂ hturns
    exact (hbinds.later h₂).calls hjk (by omega) (hsupplied i) (hs i) (hc i)
  · intro ω₂ again bound' h₂ hv₂ hagain hbound'
    obtain ⟨g', ω₃, hg', he', hv₃, hbinds'⟩ :=
      partiallyApply_opens (by omega) hv₂ ((hbinds.accepts_iff _).2 hagain) hbound'
    obtain ⟨h, ω₄, hh, he'', hv₄, hbinds''⟩ := partiallyApply_opens (by omega) hv₂
      (by rwa [length_merge hagain]) (forall₂_merge (hgiven h₂) hbound')
    refine ⟨g', ω₃, h, ω₄, hg', he', hv₃, hh, he'', hv₄, hbinds.signature_merge hbinds' hbinds'' hagain, ?_⟩
    intro ω₅ scope supplied ss r hsupplied hs hc
    constructor
    · intro h₅
      have hω : Evolves ω₁ ω₅ := (h₂.trans he'.1.evolves).trans h₅
      exact (hbinds.later hω).calls_again (hbinds'.later h₅) hjk (by omega) hagain hsupplied hs hc
    · intro h₅
      have hmerge : supplied.length = openCount (merge arguments again) := by
        rw [openCount_merge hagain, hsupplied]
      exact (hbinds''.later h₅).calls hjk (by omega) hmerge hs hc

end

/-- A function of two arguments that gives the first one. It is applied to a string that arrives later, and
then called with an integer, or applied to the integer as well. -/
theorem partiallyApply_transparent_deferred :
    let env : Environment := ⟨{}, {}⟩
    let F := regime env [("d", .ok [.ofString "a"])] 3
    let ω : Situation := ⟨fun _ => none, {}, 4⟩
    let f : Function := ⟨0, none, ⟨[⟨.string, .one⟩, ⟨.integer, .one⟩], none, ⟨.string, .one⟩⟩, .hosted (.argument 0)⟩
    let s : Stream := .run (.deferred "d" none)
    let call (g : Function) (supplied : List Stream) := atDepth env fun E => E.invoke g (.root default) supplied
    F.Valid ω ∧ ∃ g ω₁, f.partiallyApply [some s, none] ω.world = (.ok g, ω₁.world) ∧
      g.signature.params.map some = [some ⟨.integer, .one⟩] ∧
      (F.Calls env ω₁ (call g [.one (.ofInt 7)]) (.complete [.ofString "a"]) ∧
        F.Calls env ω₁ (call f [s, .one (.ofInt 7)]) (.complete [.ofString "a"])) ∧
      ∃ g' ω₃ h ω₄, g.partiallyApply [some (.one (.ofInt 7))] ω₁.world = (.ok g', ω₃.world) ∧
        f.partiallyApply [some s, some (.one (.ofInt 7))] ω₁.world = (.ok h, ω₄.world) ∧
        g'.signature = h.signature ∧ F.Calls env ω₃ (call g' []) (.complete [.ofString "a"]) ∧
        F.Calls env ω₄ (call h []) (.complete [.ofString "a"]) := by
  intro env F ω f s call
  have hsane : ω.Sane [("d", .ok [.ofString "a"])] :=
    ⟨fun _ v h => absurd h (Option.some_ne_none v).symm, fun _ h => absurd h List.not_mem_nil,
      fun _ p h => absurd h (Option.some_ne_none p).symm⟩
  have hv : F.Valid ω := ⟨by decide, standard_holds_iff.2 ⟨hsane, fun _ p h => absurd h (Option.some_ne_none p).symm⟩⟩
  have hs : Produces (regime env [("d", .ok [.ofString "a"])] 0) (streamPull env) ω s (.complete [.ofString "a"]) :=
    produces_complete_iff.2 (deferred_delivers rfl)
  have hseven (k : Nat) (ω : Situation) : Produces (regime env [("d", .ok [.ofString "a"])] k) (streamPull env) ω
      (.one (.ofInt 7)) (.complete [.ofInt 7]) :=
    produces_complete_iff.2 (one_delivers (F := regime env _ k) ω (.ofInt 7))
  have hcomputes (ω : Situation) : f.Computes env (regime env [("d", .ok [.ofString "a"])] 1) ω (.root default)
      (f.signature.convertRuns env.forest [.complete [.ofString "a"], .complete [.ofInt 7]])
      (.complete [.ofString "a"]) :=
    Function.argument_computes rfl rfl
  obtain ⟨g, ω₁, hg, -, hv₁, hsignature, hcalls, -, hagain⟩ :=
    partiallyApply_transparent f Nat.zero_lt_one hv rfl (.cons (.some hs) (.cons .none .nil))
  obtain ⟨g', ω₃, h, ω₄, hg', -, -, hh, -, -, hsame, hcalls'⟩ :=
    hagain ω₁ [some (.one (.ofInt 7))] _ (.refl ω₁) hv₁ rfl (.cons (.some (hseven 0 ω₁)) .nil)
  refine ⟨hv, g, ω₁, hg, hsignature.1, ?_, g', ω₃, h, ω₄, hg', hh, hsame, ?_, ?_⟩
  · exact hcalls ω₁ (.root default) [.one (.ofInt 7)] _ _ (.refl ω₁) rfl (.cons (hseven 1 ω₁) .nil) (hcomputes ω₁)
  · exact (hcalls' ω₃ (.root default) [] [] _ rfl .nil (hcomputes ω₃)).1 (.refl ω₃)
  · exact (hcalls' ω₄ (.root default) [] [] _ rfl .nil (hcomputes ω₄)).2 (.refl ω₄)

end LazyXPath
