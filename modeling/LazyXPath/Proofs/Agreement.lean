import LazyXPath.Proofs.Coupling
import LazyXPath.Proofs.Registration

/-!
# Streams that agree

What is evaluated later is kept together with the scope it is evaluated in: in the streams of branches,
loops, predicates and calls, and in the sequence of a focus. Streams **agree** if they are the same up to
these scopes, and these scopes agree on what is read of them: the settings, the variables that may be read,
and the focus. An expression reads the variables that occur free in it. If it contains anything that is not
known in advance, such as a function that is called, then it may read all of them (`MayRead`).

Whether cursors are in step is said for two worlds whose buffers agree (`World.Alike`).
-/

namespace LazyXPath

/-! ### Names -/

mutual

/-- The names that occur free in an expression. A name occurs free in the sequence it is bound to, and not
in the body. -/
def Expr.freeNames : Expr → List Name
  | .varRef x => [x]
  | .sequence parts => exprsFreeNames parts
  | .range a b | .arithmetic _ a b | .comparison _ a b | .conjunction a b | .disjunction a b
  | .simpleMap a b | .filter a b | .path a b => Expr.freeNames a ++ Expr.freeNames b
  | .letIn x a b | .forIn x a b => Expr.freeNames a ++ (Expr.freeNames b).filter (· ≠ x)
  | .sign _ a => Expr.freeNames a
  | .conditional a b c => Expr.freeNames a ++ (Expr.freeNames b ++ Expr.freeNames c)
  | .call _ arguments => argumentsFreeNames arguments
  | .dynamicCall target arguments => Expr.freeNames target ++ argumentsFreeNames arguments
  | _ => []

/-- The names that occur free in several expressions. -/
def exprsFreeNames : List Expr → List Name
  | [] => []
  | e :: es => Expr.freeNames e ++ exprsFreeNames es

/-- The names that occur free in arguments. -/
def argumentsFreeNames : List (Option Expr) → List Name
  | [] => []
  | a :: rest => argumentFreeNames a ++ argumentsFreeNames rest

/-- The names that occur free in an argument. -/
def argumentFreeNames : Option Expr → List Name
  | none => []
  | some e => Expr.freeNames e

end

mutual

/-- Whether an expression has no references to functions, no calls of items, no arguments that are left
open, and nothing that a host supplies. -/
def Expr.isPlain : Expr → Bool
  | .literal _ | .contextItem | .varRef _ | .axisStep .. => true
  | .sequence parts => exprsArePlain parts
  | .range a b | .arithmetic _ a b | .comparison _ a b | .conjunction a b | .disjunction a b
  | .letIn _ a b | .forIn _ a b | .simpleMap a b | .filter a b | .path a b =>
    Expr.isPlain a && Expr.isPlain b
  | .sign _ a => Expr.isPlain a
  | .conditional a b c => Expr.isPlain a && (Expr.isPlain b && Expr.isPlain c)
  | .call _ arguments => argumentsArePlain arguments
  | .functionRef .. | .dynamicCall .. | .deferred _ | .items _ | .host .. | .failing _ => false

/-- Whether several expressions are plain. -/
def exprsArePlain : List Expr → Bool
  | [] => true
  | e :: es => Expr.isPlain e && exprsArePlain es

/-- Whether arguments are there and plain. -/
def argumentsArePlain : List (Option Expr) → Bool
  | [] => true
  | a :: rest => argumentIsPlain a && argumentsArePlain rest

/-- Whether an argument is there and plain. -/
def argumentIsPlain : Option Expr → Bool
  | none => false
  | some e => Expr.isPlain e

end

/-- Whether a function is one of those of the catalog. They read no variables. -/
def Function.isBuiltin (f : Function) : Bool :=
  match f.callable with
  | .builtin _ => true
  | _ => false

/-- All functions of a registry are of this kind. -/
def Registry.IsCatalog (r : Registry) : Prop := ∀ name, ∀ f ∈ r.overloads name, f.isBuiltin = true

/-- What a name stands for in such a registry is a function of the catalog. -/
theorem Registry.IsCatalog.resolve {r : Registry} (hr : r.IsCatalog) {name : Name} {n : Nat}
    {space : Option String} {fs : List Function} (h : r.resolve name n space = .ok fs) :
    ∀ f ∈ fs, f.isBuiltin = true := by
  obtain ⟨-, hok⟩ | ⟨-, e, herror, -⟩ := r.resolve_cases name n space
  · cases h.symm.trans hok
    intro f hf
    unfold Registry.candidates at hf
    split at hf
    · exact hr _ f (List.mem_filter.mp hf).1
    · exact hr _ f (List.mem_filter.mp hf).1
  · cases h.symm.trans herror

/-- A variable that something may read in which the given names occur free: one of these if it is plain and
calls nothing but the catalog, and otherwise any variable. -/
def MayRead (r : Registry) (plain : Bool) (names : List Name) (x : Name) : Prop :=
  plain = true → r.IsCatalog → x ∈ names

/-- A variable that an expression may read. -/
abbrev Expr.MayRead (r : Registry) (e : Expr) : Name → Prop :=
  LazyXPath.MayRead r (Expr.isPlain e) (Expr.freeNames e)

/-! ### Scopes -/

/-- Focuses that agree: they are the same up to the scope in which the sequence is evaluated, and these
scopes agree on what the expression of the sequence may read. -/
inductive Focus.Agree (r : Registry) : Option Focus → Option Focus → Prop
  | same (f : Option Focus) : Agree r f f
  | evaluated {e : Expr} {s t : Scope} (item : Item) (position : Nat) (size : Option Nat)
      (settings : s.settings = t.settings) (values : ∀ x, Expr.MayRead r e x → s.value? x = t.value? x)
      (focus : Agree r s.focus? t.focus?) :
      Agree r (some ⟨item, position, size, some (.evaluated e s)⟩)
        (some ⟨item, position, size, some (.evaluated e t)⟩)

/-- Scopes that agree on some variables, on the focus and on the settings. -/
structure Scope.AgreeOn (r : Registry) (N : Name → Prop) (s t : Scope) : Prop where
  settings : s.settings = t.settings
  values : ∀ x, N x → s.value? x = t.value? x
  focus : Focus.Agree r s.focus? t.focus?

/-- Sequences that can be read again and that agree. -/
inductive Replay.Agree (r : Registry) : Replay → Replay → Prop
  | same (q : Replay) : Agree r q q
  | evaluated {e : Expr} {s t : Scope} (h : s.AgreeOn r (Expr.MayRead r e) t) :
      Agree r (.evaluated e s) (.evaluated e t)

instance {r : Registry} : Std.Refl (Replay.Agree r) := ⟨.same⟩

namespace Scope.AgreeOn

variable {r : Registry} {N M : Name → Prop} {s t : Scope} {p q : Bool} {xs ys : List Name}

protected theorem refl (s : Scope) : s.AgreeOn r N s := ⟨rfl, fun _ _ => rfl, .same _⟩

instance : Std.Refl (Scope.AgreeOn r N) := ⟨Scope.AgreeOn.refl⟩

/-- Scopes that agree on some variables agree on fewer of them. -/
theorem mono (h : s.AgreeOn r N t) (hN : ∀ x, M x → N x) : s.AgreeOn r M t :=
  ⟨h.settings, fun x hx => h.values x (hN x hx), h.focus⟩

/-- Scopes that agree on what a whole may read agree on what its first part may read. -/
theorem left (h : s.AgreeOn r (MayRead r (p && q) (xs ++ ys)) t) : s.AgreeOn r (MayRead r p xs) t :=
  h.mono fun _ hx hp hr => List.mem_append_left ys (hx (Bool.and_eq_true_iff.mp hp).1 hr)

/-- The same of what stands behind the first part. -/
theorem right (h : s.AgreeOn r (MayRead r (p && q) (xs ++ ys)) t) : s.AgreeOn r (MayRead r q ys) t :=
  h.mono fun _ hx hp hr => List.mem_append_right xs (hx (Bool.and_eq_true_iff.mp hp).2 hr)

/-- What is not plain may read everything. -/
theorem everywhere (h : s.AgreeOn r (MayRead r false xs) t) : s.AgreeOn r N t :=
  h.mono fun _ _ hp => absurd hp Bool.false_ne_true

/-- Variables matter to the functions of a registry only if one of them is not of the catalog. -/
theorem calls (h : s.AgreeOn r (MayRead r p xs) t) : s.AgreeOn r (fun _ => ¬r.IsCatalog) t :=
  h.mono fun _ hn _ hr => absurd hr hn

/-- A binding hides what is below it. -/
theorem bind (h : s.AgreeOn r (MayRead r p (xs.filter (· ≠ x))) t) (v : Replay) :
    Scope.AgreeOn r (MayRead r p xs) (.binding s x v) (.binding t x v) := by
  refine ⟨h.settings, fun y hy => ?_, h.focus⟩
  unfold Scope.value?
  split
  · rfl
  · rename_i hne
    refine h.values y fun hp hr => List.mem_filter.mpr ⟨hy hp hr, ?_⟩
    exact decide_eq_true (Ne.symm hne)

/-- A binding on top of scopes that agree. -/
theorem binding (h : s.AgreeOn r N t) (x : Name) (v : Replay) :
    Scope.AgreeOn r N (.binding s x v) (.binding t x v) := by
  refine ⟨h.settings, fun y hy => ?_, h.focus⟩
  unfold Scope.value?
  split
  · rfl
  · exact h.values y hy

/-- A focus that is laid over scopes that agree: they agree on the same variables again. -/
theorem withFocus (h : s.AgreeOn r N t) (item : Item) (position : Nat) (size : Option Nat)
    {q q' : Option Replay} (hq : Option.Rel (Replay.Agree r) q q') :
    Scope.AgreeOn r N (s.withFocus ⟨item, position, size, q⟩) (t.withFocus ⟨item, position, size, q'⟩) := by
  refine ⟨h.settings, h.values, ?_⟩
  change Focus.Agree r (some ⟨item, position, size, q⟩) (some ⟨item, position, size, q'⟩)
  cases hq with
  | none => exact .same _
  | some hq =>
    cases hq with
    | same => exact .same _
    | evaluated hq => exact .evaluated item position size hq.settings hq.values hq.focus

/-- The context item is read from the focus, of which only the sequence may differ. -/
theorem contextItem_eq (h : s.AgreeOn r N t) : s.contextItem = t.contextItem := by
  obtain ⟨-, -, hf⟩ := h
  unfold Scope.contextItem
  revert hf
  generalize s.focus? = f
  generalize t.focus? = f'
  intro hf
  cases hf <;> rfl

/-- So is the context position. -/
theorem contextPosition_eq (h : s.AgreeOn r N t) : s.contextPosition = t.contextPosition := by
  obtain ⟨-, -, hf⟩ := h
  unfold Scope.contextPosition
  revert hf
  generalize s.focus? = f
  generalize t.focus? = f'
  intro hf
  cases hf <;> rfl

end Scope.AgreeOn

/-! ### Cursors and streams -/

/-- Streams with the same items ahead and related cursors. -/
inductive StreamOf.Rel {α κ : Type} (R : κ → κ → Prop) : StreamOf α κ → StreamOf α κ → Prop
  | running (ahead : List α) {c c' : κ} (h : R c c') : Rel R ⟨ahead, .running c⟩ ⟨ahead, .running c'⟩
  | done (ahead : List α) : Rel R ⟨ahead, .done⟩ ⟨ahead, .done⟩
  | failed (ahead : List α) (e : Error) : Rel R ⟨ahead, .failed e⟩ ⟨ahead, .failed e⟩

/-- Descriptions of inner sequences that agree. -/
inductive Expander.Agree (r : Registry) : Expander → Expander → Prop
  | host (f : Callback FlatMapKind) : Agree r (.host f) (.host f)
  | branch {yes no : Expr} {s t : Scope}
      (h : s.AgreeOn r (MayRead r (Expr.isPlain yes && Expr.isPlain no)
        (Expr.freeNames yes ++ Expr.freeNames no)) t) : Agree r (.branch yes no s) (.branch yes no t)
  | decide (deciding : Bool) {right : Expr} {s t : Scope} (h : s.AgreeOn r (Expr.MayRead r right) t) :
      Agree r (.decide deciding right s) (.decide deciding right t)
  | bindEach {x : Name} {body : Expr} {s t : Scope}
      (h : s.AgreeOn r (MayRead r (Expr.isPlain body) ((Expr.freeNames body).filter (· ≠ x))) t) :
      Agree r (.bindEach x body s) (.bindEach x body t)
  | focusEach (role : FocusRole) {body : Expr} {s t : Scope} (size : Option Nat) {q q' : Option Replay}
      (position : Nat) (h : s.AgreeOn r (Expr.MayRead r body) t) (hq : Option.Rel (Replay.Agree r) q q') :
      Agree r (.focusEach role body s size q position) (.focusEach role body t size q' position)
  | keep (x : Item) : Agree r (.keep x) (.keep x)

/-- Descriptions of combinations that agree. A call of an item may read everything. -/
inductive Combiner.Agree (r : Registry) : Combiner → Combiner → Prop
  | same (f : Combiner) : Agree r f f
  | call (arguments : List (Option Expr)) {s t : Scope} (h : s.AgreeOn r (fun _ => True) t) :
      Agree r (.call arguments s) (.call arguments t)

/-- Calls that agree and whose function is still to be chosen. -/
inductive Dispatch.Agree (r : Registry) : Dispatch → Dispatch → Prop
  | mk (name : Name) {fs : List Function} {s t : Scope}
      (h : s.AgreeOn r (fun _ => ∃ f ∈ fs, f.isBuiltin = false) t) : Agree r ⟨name, fs, s⟩ ⟨name, fs, t⟩

/-- Cursors that agree. -/
inductive Cursor.Agree (r : Registry) : Cursor → Cursor → Prop
  | items (xs : List Item) : Agree r (.items xs) (.items xs)
  | candidates (nodes : List NodeId) (principal : NodeKind) (test : NodeTest) :
      Agree r (.candidates nodes principal test) (.candidates nodes principal test)
  | descendants (stack : List NodeId) (principal : NodeKind) (test : NodeTest) :
      Agree r (.descendants stack principal test) (.descendants stack principal test)
  | script (label : String) (steps : List (ScriptStep Item)) (claimed : Option Nat) :
      Agree r (.script label steps claimed) (.script label steps claimed)
  | deferred (d : DeferredId) (arrived : Option (List Item)) : Agree r (.deferred d arrived) (.deferred d arrived)
  | range (next last : Int) : Agree r (.range next last) (.range next last)
  | reader (b : BufferId) (position : Nat) : Agree r (.reader b position) (.reader b position)
  | map (f : Mapper) {s s' : Stream} (h : StreamOf.Rel (Agree r) s s') : Agree r (.map f s) (.map f s')
  | filter (f : Selector) {s s' : Stream} (h : StreamOf.Rel (Agree r) s s') :
      Agree r (.filter f s) (.filter f s')
  | collect (f : Collector) (seen : List Item) {s s' : Stream} (h : StreamOf.Rel (Agree r) s s') :
      Agree r (.collect f seen s) (.collect f seen s')
  | emit (xs : List Item) : Agree r (.emit xs) (.emit xs)
  | outer {f f' : Expander} {s s' : Stream} (hf : f.Agree r f') (h : StreamOf.Rel (Agree r) s s') :
      Agree r (.outer f s) (.outer f' s')
  | inner {f f' : Expander} {s s' u u' : Stream} (hf : f.Agree r f') (h : StreamOf.Rel (Agree r) s s')
      (hu : StreamOf.Rel (Agree r) u u') : Agree r (.inner f s u) (.inner f' s' u')
  | concat {s s' : Stream} {rest rest' : List Stream} (h : StreamOf.Rel (Agree r) s s')
      (hr : List.Forall₂ (StreamOf.Rel (Agree r)) rest rest') : Agree r (.concat s rest) (.concat s' rest')
  | take (n : Nat) {s s' : Stream} (h : StreamOf.Rel (Agree r) s s') : Agree r (.take n s) (.take n s')
  | atomize (pending : List Atomic) {s s' : Stream} (h : StreamOf.Rel (Agree r) s s') :
      Agree r (.atomize pending s) (.atomize pending s')
  | zip {f f' : Combiner} {before before' after after' : List (Step.Slot Item Stream)} {s s' : Stream}
      (found : Option Item) (waiting : Option DeferredId) (hf : f.Agree r f')
      (hb : List.Forall₂ (Step.Slot.Rel (StreamOf.Rel (Agree r))) before before')
      (h : StreamOf.Rel (Agree r) s s')
      (ha : List.Forall₂ (Step.Slot.Rel (StreamOf.Rel (Agree r))) after after') :
      Agree r (.zip f before s found after waiting) (.zip f' before' s' found after' waiting)
  | combine {f f' : Combiner} (hf : f.Agree r f') (found : List (Option Item)) :
      Agree r (.combine f found) (.combine f' found)
  | forward {s s' : Stream} (h : StreamOf.Rel (Agree r) s s') : Agree r (.forward s) (.forward s')
  | truth (position : Option Nat) (first : Option Bool) {s s' : Stream} (h : StreamOf.Rel (Agree r) s s') :
      Agree r (.truth position first s) (.truth position first s')
  | convert (c : Conversion) {s s' : Stream} (h : StreamOf.Rel (Agree r) s s') :
      Agree r (.convert c s) (.convert c s')
  | gather {d d' : Dispatch} (gathered : List (List Item)) (seen : List Item) {s s' : Stream}
      {rest rest' : List Stream} (hd : d.Agree r d') (h : StreamOf.Rel (Agree r) s s')
      (hr : List.Forall₂ (StreamOf.Rel (Agree r)) rest rest') :
      Agree r (.gather d gathered seen s rest) (.gather d' gathered seen s' rest')
  | dispatch {d d' : Dispatch} (hd : d.Agree r d') (arguments : List (List Item)) :
      Agree r (.dispatch d arguments) (.dispatch d' arguments)
  | count (seen : Nat) {s s' : Stream} (h : StreamOf.Rel (Agree r) s s') : Agree r (.count seen s) (.count seen s')
  | presence (wantsEmpty begun : Bool) {s s' : Stream} (h : StreamOf.Rel (Agree r) s s') :
      Agree r (.presence wantsEmpty begun s) (.presence wantsEmpty begun s')
  | spent {s s' : Stream} (h : StreamOf.Rel (Agree r) s s') : Agree r (.spent s) (.spent s')

/-- Streams that agree. -/
abbrev Stream.Agree (r : Registry) : Stream → Stream → Prop := StreamOf.Rel (Cursor.Agree r)

section

variable {r : Registry}

instance : Std.Refl (Expander.Agree r) where
  refl f := by
    cases f with
    | host f => exact .host f
    | branch => exact .branch (.refl _)
    | decide deciding => exact .decide deciding (.refl _)
    | bindEach => exact .bindEach (.refl _)
    | focusEach role _ _ size q position =>
      exact .focusEach role size position (.refl _) (Std.Refl.refl q)
    | keep x => exact .keep x

instance : Std.Refl (Dispatch.Agree r) := ⟨fun d => .mk d.name (.refl d.scope)⟩

mutual

/-- A cursor agrees with itself. The proof goes over the streams it reads. -/
theorem Cursor.Agree.refl (c : Cursor) : c.Agree r c := by
  match c with
  | .items xs => exact .items xs
  | .candidates nodes principal test => exact .candidates nodes principal test
  | .descendants stack principal test => exact .descendants stack principal test
  | .script label steps claimed => exact .script label steps claimed
  | .deferred d arrived => exact .deferred d arrived
  | .range next last => exact .range next last
  | .reader b position => exact .reader b position
  | .map f s => exact .map f (Stream.Agree.refl s)
  | .filter f s => exact .filter f (Stream.Agree.refl s)
  | .collect f seen s => exact .collect f seen (Stream.Agree.refl s)
  | .emit xs => exact .emit xs
  | .outer f s => exact .outer (Std.Refl.refl f) (Stream.Agree.refl s)
  | .inner f s t => exact .inner (Std.Refl.refl f) (Stream.Agree.refl s) (Stream.Agree.refl t)
  | .concat s rest => exact .concat (Stream.Agree.refl s) (streamsAgree_refl rest)
  | .take n s => exact .take n (Stream.Agree.refl s)
  | .atomize pending s => exact .atomize pending (Stream.Agree.refl s)
  | .zip f before s found after waiting =>
    exact .zip found waiting (.same f) (slotsAgree_refl before) (Stream.Agree.refl s) (slotsAgree_refl after)
  | .combine f found => exact .combine (.same f) found
  | .forward s => exact .forward (Stream.Agree.refl s)
  | .truth position first s => exact .truth position first (Stream.Agree.refl s)
  | .convert c s => exact .convert c (Stream.Agree.refl s)
  | .gather d gathered seen s rest =>
    exact .gather gathered seen (Std.Refl.refl d) (Stream.Agree.refl s) (streamsAgree_refl rest)
  | .dispatch d arguments => exact .dispatch (Std.Refl.refl d) arguments
  | .count seen s => exact .count seen (Stream.Agree.refl s)
  | .presence wantsEmpty begun s => exact .presence wantsEmpty begun (Stream.Agree.refl s)
  | .spent s => exact .spent (Stream.Agree.refl s)

/-- A stream agrees with itself. -/
theorem Stream.Agree.refl (s : StreamOf Item Cursor) : Stream.Agree r s s := by
  match s with
  | ⟨ahead, .running c⟩ => exact .running ahead (Cursor.Agree.refl c)
  | ⟨ahead, .done⟩ => exact .done ahead
  | ⟨ahead, .failed e⟩ => exact .failed ahead e

/-- Streams in a row agree with themselves. -/
theorem streamsAgree_refl (ss : List (StreamOf Item Cursor)) : List.Forall₂ (Stream.Agree r) ss ss := by
  match ss with
  | [] => exact .nil
  | s :: ss => exact .cons (Stream.Agree.refl s) (streamsAgree_refl ss)

/-- Slots of a round agree with themselves. -/
theorem slotsAgree_refl (ts : List (Step.Slot Item (StreamOf Item Cursor))) :
    List.Forall₂ (Step.Slot.Rel (Stream.Agree r)) ts ts := by
  match ts with
  | [] => exact .nil
  | ⟨s, item⟩ :: ts => exact .cons (.mk (Stream.Agree.refl s) item) (slotsAgree_refl ts)

end

instance : Std.Refl (Cursor.Agree r) := ⟨Cursor.Agree.refl⟩

instance : Std.Refl (Stream.Agree r) := ⟨Stream.Agree.refl⟩

/-! ### Hints -/

mutual

/-- Hints do not depend on scopes, so that cursors that agree give the same ones. -/
theorem Cursor.Agree.hint_eq (c : Cursor) {c' : Cursor} (h : c.Agree r c') : c.hint = c'.hint := by
  match c with
  | .map f s =>
    cases h with
    | map _ h => exact Stream.Agree.hint_eq s h
  | .filter f s =>
    cases h with
    | filter _ h => exact congrArg (Except.map (SizeHint.upTo ·.upper)) (Stream.Agree.hint_eq s h)
  | .concat s rest =>
    cases h with
    | concat h hr =>
      have hs := Stream.Agree.hint_eq s h
      have hrest := streamsAgree_hint_eq rest hr
      unfold Cursor.hint
      rw [hs, hrest]
  | .take n s =>
    cases h with
    | take _ h => exact congrArg (Except.map (SizeHint.take n)) (Stream.Agree.hint_eq s h)
  | .convert c s =>
    cases h with
    | convert _ h =>
      have hs := Stream.Agree.hint_eq s h
      unfold Cursor.hint
      rw [hs]
  | .items _ | .candidates .. | .descendants .. | .script .. | .deferred .. | .range .. | .reader .. | .collect ..
  | .emit _ | .outer .. | .inner .. | .atomize .. | .zip .. | .combine .. | .forward _ | .truth .. | .gather ..
  | .dispatch .. | .count .. | .presence .. | .spent _ =>
    cases h
    rfl

/-- Streams that agree give the same hints. -/
theorem Stream.Agree.hint_eq (s : StreamOf Item Cursor) {s' : Stream} (h : Stream.Agree r s s') :
    streamHint s = streamHint s' := by
  match s with
  | ⟨ahead, .running c⟩ =>
    cases h with
    | running _ h => exact congrArg (Except.map (·.append (.exactly ahead.length))) (Cursor.Agree.hint_eq c h)
  | ⟨ahead, .done⟩ | ⟨ahead, .failed e⟩ =>
    cases h
    rfl

/-- So do several of them in a row. -/
theorem streamsAgree_hint_eq (ss : List (StreamOf Item Cursor)) {ss' : List Stream}
    (h : List.Forall₂ (Stream.Agree r) ss ss') : streamsHint ss = streamsHint ss' := by
  match ss with
  | [] =>
    cases h
    rfl
  | s :: ss =>
    cases h with
    | cons h hr =>
      have hs := Stream.Agree.hint_eq s h
      have hrest := streamsAgree_hint_eq ss hr
      unfold streamsHint
      rw [hs, hrest]

end

/-! ### Streams that are made -/

namespace Stream.Agree

variable {s s' : Stream} {ss ss' : List Stream}

theorem run {c c' : Cursor} (h : c.Agree r c') : Stream.Agree r (.run c) (.run c') := .running [] h

/-- Concatenations of streams that agree. -/
theorem concat (h : List.Forall₂ (Stream.Agree r) ss ss') : Stream.Agree r (Stream.concat ss)
    (Stream.concat ss') := by
  cases h with
  | nil => exact refl _
  | cons hs hss => exact run (.concat hs hss)

/-- Combinations of streams that agree, by descriptions that agree. -/
theorem zip {f f' : Combiner} (hf : f.Agree r f') (h : List.Forall₂ (Stream.Agree r) ss ss') :
    Stream.Agree r (Stream.zip f ss) (Stream.zip f' ss') := by
  cases h with
  | nil => exact run (.combine hf [])
  | cons hs hss =>
    refine run (.zip none none hf .nil hs (List.forall₂_map_left_iff.mpr (List.forall₂_map_right_iff.mpr ?_)))
    exact hss.imp fun _ _ h => .mk h none

theorem zipPair {f f' : Combiner} {t t' : Stream} (hf : f.Agree r f') (hs : Stream.Agree r s s')
    (ht : Stream.Agree r t t') : Stream.Agree r (Stream.zip f [s, t]) (Stream.zip f' [s', t']) :=
  zip hf (.cons hs (.cons ht .nil))

/-- A conversion is left out for types that take everything, and this is a matter of the type only. -/
theorem convert (type : SequenceType) (h : Stream.Agree r s s') :
    Stream.Agree r (s.convert type) (s'.convert type) := by
  unfold Stream.convert
  split
  · exact h
  · exact run (.convert { type } h)

theorem collect (f : Collector) (h : Stream.Agree r s s') : Stream.Agree r (s.collect f) (s'.collect f) :=
  run (.collect f [] h)

theorem atomize (h : Stream.Agree r s s') : Stream.Agree r s.atomize s'.atomize := run (.atomize [] h)

/-- Truth values of streams that agree. -/
theorem booleanValue (h : Stream.Agree r s s') : Stream.Agree r s.booleanValue s'.booleanValue :=
  run (.truth none none h)

theorem flatMap {f f' : Expander} (hf : f.Agree r f') (h : Stream.Agree r s s') :
    Stream.Agree r (s.flatMap f) (s'.flatMap f') := run (.outer hf h)

/-- Attempts that agree, taken as streams: failures become streams that fail alike. -/
theorem orFailed {q q' : Except Error Stream} (h : Attempts (Stream.Agree r) q q') :
    Stream.Agree r (Stream.orFailed q) (Stream.orFailed q') := by
  cases h with
  | ok h => exact h
  | error e => exact refl _

/-- Exact sizes come from hints, so they are the same. -/
theorem exactSize?_eq (h : Stream.Agree r s s') : s.exactSize? = s'.exactSize? :=
  congrArg (Except.map SizeHint.size?) (hint_eq s h)

/-- The sequence of the focus is evaluated again in the scopes of the whole. -/
theorem forEachFocus (role : FocusRole) {base body : Expr} {scope scope' : Scope}
    (hbase : scope.AgreeOn r (Expr.MayRead r base) scope') (hbody : scope.AgreeOn r (Expr.MayRead r body) scope')
    (h : Stream.Agree r s s') :
    Stream.Agree r (forEachFocus role base body scope s) (forEachFocus role base body scope' s') := by
  unfold LazyXPath.forEachFocus
  rw [h.exactSize?_eq]
  cases s'.exactSize? with
  | error e => exact refl _
  | ok size =>
    refine flatMap (.focusEach role _ 0 hbody ?_) h
    split
    · exact .some (.evaluated hbase)
    · exact .none

/-- A constant position cuts both streams at the same place. -/
theorem constantFilter (k : Nat) (h : Stream.Agree r s s') :
    Stream.Agree r (constantFilter k s) (constantFilter k s') :=
  run (.filter (.only k 0) (run (.take k h)))

end Stream.Agree

/-- Streams that agree one by one agree place by place. -/
theorem forall₂_getElem? {ss ss' : List Stream} (h : List.Forall₂ (Stream.Agree r) ss ss') (i : Nat) :
    Option.Rel (Stream.Agree r) ss[i]? ss'[i]? := by
  induction h generalizing i with
  | nil => exact .none
  | cons h _ ih =>
    cases i with
    | zero => exact .some h
    | succ i => exact ih i

/-- The arguments that are there. -/
theorem forall₂_filterMap_id {ss ss' : List (Option Stream)}
    (h : List.Forall₂ (Option.Rel (Stream.Agree r)) ss ss') :
    List.Forall₂ (Stream.Agree r) (ss.filterMap id) (ss'.filterMap id) := by
  induction h with
  | nil => exact .nil
  | cons h _ ih =>
    cases h with
    | none => exact ih
    | some h => exact .cons h ih

end

end LazyXPath
