import LazyXPath.Proofs.Delivery.Conversion
import LazyXPath.Proofs.Delivery.Zip
import LazyXPath.Proofs.Sharing
import LazyXPath.Proofs.ZipCalls

/-!
# Deliveries of cursors

What the streams of items deliver that expressions are made of. Most of them are combinators over other
streams, and their cursors take the same steps as the combinators do (`Delivers.embed`). The others look
only at themselves (`Delivers.of_unfold`), or wait for a value (`deferred_delivers`).
-/

namespace LazyXPath

section

variable {W α σ ι : Type} {F : Regime W} {pull : σ → StateM W (Outcome α × σ)}

/-- States that look only at themselves: each gives an item, ends, or comes closer to either. Here `L i` is
what the state `e i` delivers. -/
theorem Delivers.of_unfold (e : ι → σ) (L : ι → List α) (m : ι → Nat)
    (step : ∀ i, ∃ o i', (∀ w, pull (e i) w = ((o, e i'), w)) ∧
      ((∃ x, o = .item x ∧ L i = x :: L i') ∨ (o = .done ∧ L i = []) ∨
        (o = .skip ∧ L i = L i' ∧ m i' < m i))) (ω : F.Situation) (i : ι) :
    Delivers F pull ω (e i) (L i) := by
  refine .coinduction (fun _ s xs => ∃ i, s = e i ∧ xs = L i) ?_ ⟨i, rfl, rfl⟩
  rintro _ _ _ ⟨i, rfl, rfl⟩ ω₁ - hv
  -- along the measure, because of steps without a report
  suffices h : ∀ n i ω, m i < n → F.Valid ω → Reports F pull
      (Continues F (fun ω s xs => Delivers F pull ω s xs ∨ ∃ i, s = e i ∧ xs = L i) ω₁ (L i)) ω (e i) from
    h (m i + 1) i ω₁ (Nat.lt_succ_self _) hv
  intro n
  induction n with
  | zero => exact fun i ω h => absurd h (Nat.not_lt_zero _)
  | succ n ih =>
    intro i ω hn hv
    refine .of_steps fun ω₂ h₂ => ?_
    have hv₂ : F.Valid ω₂ := F.valid_of_drift hv h₂
    have he : F.effect ω₂ ω₂ := F.effect_of_drift h₂
    obtain ⟨o, i', hp, ⟨x, rfl, hx⟩ | ⟨rfl, hx⟩ | ⟨rfl, hx, hm⟩⟩ := step i
    · rw [hx]
      exact .continues (hp _) he (.item hv₂ (.inr ⟨i', rfl, rfl⟩))
    · rw [hx]
      exact .continues (hp _) he (.done hv₂)
    · rw [hx]
      exact .skip (hp _) he (ih i' ω₂ (Nat.lt_of_lt_of_le hm (Nat.le_of_lt_succ hn)) hv₂)

end

variable {env : Environment} {F : Regime (World × Nat)} {ω : F.Situation} {s : Stream}
  {xs ys : List Item}

/-- A pull of a stream, by the engine and beside the depth. -/
theorem exists_streamStep (env : Environment) (s : Stream) (w : World) (depth : Nat) : ∃ o s' w',
    streamStep env (.ofDepth env depth) s w = ((o, s'), w') ∧
      streamPull env s (w, depth) = ((o, s'), w', depth) := by
  rcases h : streamStep env (.ofDepth env depth) s w with ⟨⟨o, s'⟩, w'⟩
  exact ⟨o, s', w', rfl, by simp only [streamPull_eq, atDepth, h]⟩

/-! ### Items at hand -/

/-- The stream without items. -/
theorem empty_delivers (ω : F.Situation) : Delivers F (streamPull env) ω .empty [] :=
  StreamOf.delivers_done [] ω

theorem one_delivers (ω : F.Situation) (x : Item) : Delivers F (streamPull env) ω (.one x) [x] :=
  StreamOf.delivers_done [x] ω

theorem ofList_delivers (ω : F.Situation) (xs : List Item) :
    Delivers F (streamPull env) ω (.ofList xs) xs := by
  refine StreamOf.delivers_run (.of_unfold (ι := List Item) Cursor.items id (fun _ => 0) ?_ ω xs)
  intro xs
  cases xs with
  | nil => exact ⟨.done, [], fun _ => rfl, .inr (.inl ⟨rfl, rfl⟩)⟩
  | cons x xs => exact ⟨.item x, xs, fun _ => rfl, .inl ⟨x, rfl, rfl⟩⟩

/-- A range delivers the integers from the first to the last one. -/
theorem range_delivers (ω : F.Situation) (first last : Int) :
    Delivers F (streamPull env) ω (.range first last) (integersBetween first last) := by
  refine StreamOf.delivers_run (.of_unfold (ι := Int) (fun first => Cursor.range first last)
    (fun first => integersBetween first last) (fun _ => 0) ?_ ω first)
  intro first
  by_cases h : first ≤ last
  · refine ⟨.item (.ofInt first), first + 1, fun w => ?_, .inl ⟨_, rfl, ?_⟩⟩
    · simp only [cursorStep, atDepth, Cursor.step, rangeStep, if_pos h]
      rfl
    · have hn : (last + 1 - first).toNat = (last + 1 - (first + 1)).toNat + 1 := by omega
      simp only [integersBetween, hn, List.range_succ_eq_map, List.map_cons, List.map_map]
      simp [Function.comp_def, Int.add_assoc, Int.add_comm 1]
  · refine ⟨.done, first, fun w => ?_, .inr (.inl ⟨rfl, ?_⟩)⟩
    · simp only [cursorStep, atDepth, Cursor.step, rangeStep, if_neg h]
      rfl
    · have hn : (last + 1 - first).toNat = 0 := by omega
      simp only [integersBetween, hn, List.range_zero, List.map_nil]

/-! ### Nodes -/

/-- Skipping the nodes that do not pass loses none that do. -/
private theorem filter_dropWhile_not {α : Type} (p : α → Bool) (xs : List α) :
    (xs.dropWhile fun x => !p x).filter p = xs.filter p := by
  induction xs with
  | nil => rfl
  | cons x xs ih => cases hx : p x <;> simp [hx, ih]

/-- Candidates are delivered as far as they pass the test. -/
theorem candidates_delivers (ω : F.Situation) (nodes : List NodeId) (principal : NodeKind)
    (test : NodeTest) : Delivers F (streamPull env) ω (.run (.candidates nodes principal test))
      ((nodes.filter (test.accepts env.forest principal)).map .node) := by
  refine StreamOf.delivers_run (.of_unfold (ι := List NodeId)
    (fun nodes => Cursor.candidates nodes principal test)
    (fun nodes => (nodes.filter (test.accepts env.forest principal)).map ItemOf.node) (fun _ => 0) ?_ ω
    nodes)
  intro nodes
  have hf := filter_dropWhile_not (test.accepts env.forest principal) nodes
  cases h : nodes.dropWhile fun n => !test.accepts env.forest principal n with
  | nil =>
    rw [h] at hf
    refine ⟨.done, [], fun w => ?_, .inr (.inl ⟨rfl, by simp [← hf]⟩)⟩
    simp only [cursorStep, atDepth, Cursor.step, candidatesStep, h]
    rfl
  | cons n rest =>
    rw [h] at hf
    have hn : test.accepts env.forest principal n = true := by
      have hhead := List.head_dropWhile_not (fun n => !test.accepts env.forest principal n)
        (h ▸ List.cons_ne_nil n rest)
      simpa [h] using hhead
    refine ⟨.item (.node n), rest, fun w => ?_, .inl ⟨.node n, rfl, by simp [← hf, hn]⟩⟩
    simp only [cursorStep, atDepth, Cursor.step, candidatesStep, h]
    rfl

/-- The children of a node were there before it. -/
def Forest.Grounded (f : Forest) : Prop := ∀ n, ∀ c ∈ (f.node n).children, c < n

/-- The nodes on a stack and below them. -/
def Forest.visited (f : Forest) (stack : List NodeId) : List NodeId :=
  stack.flatMap fun n => n :: f.descendants n

/-- The descendants of a node are what a walk from its children visits. -/
theorem Forest.Grounded.descendants_eq {f : Forest} (h : f.Grounded) (n : NodeId) :
    f.descendants n = f.visited (f.node n).children := by
  rw [Forest.descendants, Forest.visited]
  refine List.flatMap_congr fun c hc => ?_
  rw [dif_pos (h n c hc)]

/-- A walk visits a node, and then its children before everything else. -/
private theorem Forest.Grounded.visited_cons {f : Forest} (h : f.Grounded) (n : NodeId) (rest : List NodeId) :
    f.visited (n :: rest) = n :: f.visited ((f.node n).children ++ rest) := by
  simp only [visited, List.flatMap_cons, List.cons_append, List.flatMap_append]
  rw [h.descendants_eq, visited]

/-- A walk over a stack of nodes delivers those that pass the test, in the order of the walk. -/
theorem descendants_delivers (hg : env.forest.Grounded) (ω : F.Situation) (stack : List NodeId)
    (principal : NodeKind) (test : NodeTest) :
    Delivers F (streamPull env) ω (.run (.descendants stack principal test))
      (((env.forest.visited stack).filter (test.accepts env.forest principal)).map .node) := by
  refine StreamOf.delivers_run (.of_unfold (ι := List NodeId)
    (fun stack => Cursor.descendants stack principal test)
    (fun stack => ((env.forest.visited stack).filter (test.accepts env.forest principal)).map ItemOf.node)
    (fun stack => (env.forest.visited stack).length) ?_ ω stack)
  intro stack
  cases stack with
  | nil => exact ⟨.done, [], fun _ => rfl, .inr (.inl ⟨rfl, rfl⟩)⟩
  | cons n rest =>
    rw [hg.visited_cons]
    cases hn : test.accepts env.forest principal n with
    | true =>
      refine ⟨.item (.node n), (env.forest.node n).children ++ rest, fun w => ?_, .inl ⟨.node n, rfl, ?_⟩⟩
      · simp only [cursorStep, atDepth, Cursor.step, descendantsStep, hn, if_true]
        rfl
      · simp [hn]
    | false =>
      refine ⟨.skip, (env.forest.node n).children ++ rest, fun w => ?_, .inr (.inr ⟨rfl, ?_, ?_⟩)⟩
      · simp only [cursorStep, atDepth, Cursor.step, descendantsStep, hn, Bool.false_eq_true, if_false]
        rfl
      · simp [hn]
      · exact Nat.lt_succ_self _

/-! ### Item by item -/

/-- Whether a position is that of the next item, and the number of items with it. -/
def isNext (position seen : Nat) (_ : Item) : Bool × Nat := (seen + 1 = position, seen + 1)

/-- The cursor of the item at a position takes the steps of a filter. -/
theorem cursorStep_only (env : Environment) (k : Nat) (c : Nat × Stream) (p : World × Nat) :
    let r := Step.filtering (fun n x => pure (.ok (isNext k n x).1, (isNext k n x).2)) (streamPull env) c p
    cursorStep env (.filter (.only k c.1) c.2) p = ((r.1.1, .filter (.only k r.1.2.1) r.1.2.2), r.2) := by
  obtain ⟨n, s⟩ := c
  obtain ⟨w, depth⟩ := p
  obtain ⟨o, s', w', h, h'⟩ := exists_streamStep env s w depth
  cases o with
  | item x =>
    simp only [cursorStep, atDepth, Cursor.step, Step.filtering, Step.filter, bind, StateT.bind, h, h']
    cases hk : decide (n + 1 = k) <;> simp only [Selector.apply, isNext, hk] <;> rfl
  | done | suspended | failed | skip =>
    simp only [cursorStep, atDepth, Cursor.step, Step.filtering, Step.filter, bind, StateT.bind, h, h']
    rfl

/-- The item at a position. -/
theorem only_delivers (k : Nat) (h : Delivers F (streamPull env) ω s xs) :
    Delivers F (streamPull env) ω (s.filter (.only k 0)) (passing (isNext k) 0 xs) := by
  have hf := filtering_delivers
    (f := fun n x => pure (.ok (isNext k n x).1, (isNext k n x).2)) (fun _ _ _ => rfl) h 0
  exact StreamOf.delivers_run (hf.embed (fun p => Cursor.filter (.only k p.1) p.2) (cursorStep_only env k))

/-- The cursor of the first items takes their steps. -/
theorem cursorStep_take (env : Environment) (c : Nat × Stream) (p : World × Nat) :
    let r := Step.taking (streamPull env) c p
    cursorStep env (.take c.1 c.2) p = ((r.1.1, .take r.1.2.1 r.1.2.2), r.2) := by
  obtain ⟨n, s⟩ := c
  obtain ⟨w, depth⟩ := p
  obtain ⟨o, s', w', h, h'⟩ := exists_streamStep env s w depth
  cases n with
  | zero => rfl
  | succ n =>
    cases o <;>
      simp only [cursorStep, atDepth, Cursor.step, Step.taking, Step.take, bind, StateT.bind, h, h'] <;>
      rfl

/-- The first items of a stream. -/
theorem take_delivers (n : Nat) (h : Delivers F (streamPull env) ω s xs) :
    Delivers F (streamPull env) ω (s.take n) (xs.take n) :=
  StreamOf.delivers_run ((taking_delivers h n).embed (fun p => Cursor.take p.1 p.2) (cursorStep_take env))

/-- A sequence that can be atomized is atomized item by item. -/
private theorem atomizeAll_cases {f : Forest} {vs : List Atomic} (h : Item.atomizeAll f xs = .ok vs) :
    ∃ vss, List.Forall₂ (fun x vs => Item.atomize f x = .ok vs) xs vss ∧ vss.flatten = vs := by
  induction xs generalizing vs with
  | nil =>
    cases h
    exact ⟨[], .nil, rfl⟩
  | cons x xs ih =>
    cases hx : Item.atomize f x with
    | error e => simp [Item.atomizeAll, hx, bind, Except.bind] at h
    | ok as =>
      cases hxs : Item.atomizeAll f xs with
      | error e => simp [Item.atomizeAll, hx, hxs, bind, Except.bind] at h
      | ok bs =>
        obtain ⟨vss, hvss, rfl⟩ := ih hxs
        obtain rfl : as ++ vss.flatten = vs := by
          simpa [Item.atomizeAll, hx, hxs, bind, Except.bind, pure, Except.pure] using h
        exact ⟨as :: vss, .cons hx hvss, rfl⟩

/-- The typed values of items. -/
theorem atomize_delivers {vs : List Atomic} (hv : Item.atomizeAll env.forest xs = .ok vs)
    (h : Delivers F (streamPull env) ω s xs) :
    Delivers F (streamPull env) ω s.atomize (vs.map .atomic) := by
  obtain ⟨vss, hvss, rfl⟩ := atomizeAll_cases hv
  refine StreamOf.delivers_run ((expanding_delivers hvss h).relabel ItemOf.atomic
    (fun p => Cursor.atomize p.1 p.2) ?_)
  rintro ⟨pending, s⟩ ⟨w, depth⟩
  cases pending with
  | cons v vs => rfl
  | nil =>
    obtain ⟨o, s', w', h, h'⟩ := exists_streamStep env s w depth
    cases o with
    | item x =>
      rcases hx : Item.atomize env.forest x with e | _ | ⟨v, vs⟩ <;>
        simp only [cursorStep, atDepth, Cursor.step, Step.expanding, Step.expand, bind, StateT.bind, h,
          h', hx] <;> rfl
    | done | suspended | failed | skip =>
      simp only [cursorStep, atDepth, Cursor.step, Step.expanding, Step.expand, bind, StateT.bind, h, h']
      rfl

/-- The cursor of a search for a truth value, before and after it has been found. -/
def Cursor.judging (position : Option Nat) : Option Bool × Stream ⊕ Stream → Cursor
  | .inl (first, s) => .truth position first s
  | .inr s => .spent s

/-- The cursor of a search takes the steps of the search. -/
theorem cursorStep_judging (env : Environment) (position : Option Nat) (c : Option Bool × Stream ⊕ Stream)
    (p : World × Nat) :
    let r := Step.judging env.forest position (streamPull env) c p
    cursorStep env (.judging position c) p = ((r.1.1, .judging position r.1.2), r.2) := by
  obtain ⟨w, depth⟩ := p
  obtain ⟨first, s⟩ | s := c
  · obtain ⟨o, s', w', h, h'⟩ := exists_streamStep env s w depth
    cases o with
    | item x =>
      cases first with
      | some b =>
        simp only [cursorStep, atDepth, Cursor.judging, Cursor.step, Step.judging, Step.truth, bind,
          StateT.bind, h, h']
        rfl
      | none =>
        cases x with
        | atomic v =>
          cases hv : v.predicateTruth position <;>
            simp only [cursorStep, atDepth, Cursor.judging, Cursor.step, Step.judging, Step.truth, bind,
              StateT.bind, h, h', hv] <;> rfl
        | node | map | array | function =>
          simp only [cursorStep, atDepth, Cursor.judging, Cursor.step, Step.judging, Step.truth, bind,
            StateT.bind, h, h']
          rfl
    | done | suspended | failed | skip =>
      cases first <;>
        simp only [cursorStep, atDepth, Cursor.judging, Cursor.step, Step.judging, Step.truth, bind,
          StateT.bind, h, h'] <;>
        rfl
  · rfl

/-- The truth value of a sequence, of a predicate at a position or of its own. -/
theorem truth_delivers {position : Option Nat} {b : Bool} (hb : Item.truth? position xs = some b)
    (h : Delivers F (streamPull env) ω s xs) :
    Delivers F (streamPull env) ω (.run (.truth position none s)) [.ofBool b] :=
  StreamOf.delivers_run ((judging_delivers (f := env.forest) hb h).embed (Cursor.judging position)
    (cursorStep_judging env position))

/-- A sequence of at most one item is this item. -/
theorem single?_eq_some {α : Type} {xs : List α} {x : Option α} (h : single? xs = some x) :
    xs = x.toList := by
  match xs with
  | [] => cases h; rfl
  | [y] => cases h; rfl
  | _ :: _ :: _ => cases h

/-- The bound of a range. -/
theorem rangeBound_delivers {x : Option Item} (hx : bound? env.forest xs = some x)
    (h : Delivers F (streamPull env) ω s xs) :
    Delivers F (streamPull env) ω (rangeBound s) x.toList := by
  obtain ⟨ys, hys, hy⟩ : ∃ ys, Item.convertAll env.forest ⟨.integer, .optional⟩ xs = .ok ys ∧
      single? ys = some x := by
    cases hys : Item.convertAll env.forest ⟨.integer, .optional⟩ xs with
    | error e => simp [bound?, hys, Except.toOption] at hx
    | ok ys => exact ⟨ys, rfl, by simpa [bound?, hys, Except.toOption] using hx⟩
  obtain rfl : ys = x.toList := single?_eq_some hy
  refine StreamOf.delivers_run ((converting_delivers rfl hys h).embed (fun p => Cursor.convert p.1 p.2) ?_)
  rintro ⟨c, s⟩ ⟨w, depth⟩
  obtain ⟨o, s', w', h, h'⟩ := exists_streamStep env s w depth
  cases hc : c.isReady <;> cases o <;>
    simp only [cursorStep, atDepth, Cursor.step, Step.converting, Conversion.step, bind, StateT.bind, h, h',
      hc, Bool.false_eq_true, if_false, if_true] <;> rfl

/-! ### All items at once -/

/-- A function of the whole sequence that leaves the world alone. -/
theorem collect_delivers {f : Collector} (hf : ∀ w, f.apply env.forest xs w = (.ok ys, w))
    (h : Delivers F (streamPull env) ω s xs) : Delivers F (streamPull env) ω (s.collect f) ys := by
  have hc : Delivers F (Step.collecting (fun xs => atDepth env fun _ => f.apply env.forest xs) (streamPull env)) ω
      (.inl ([], s)) ys := collecting_delivers (fun p => by simp only [atDepth, hf]) h
  refine StreamOf.delivers_run (hc.embed (Sum.elim (fun p => Cursor.collect f p.1 p.2) Cursor.emit) ?_)
  rintro (⟨seen, s⟩ | ys) ⟨w, depth⟩
  · obtain ⟨o, s', w', h, h'⟩ := exists_streamStep env s w depth
    cases o with
    | done =>
      rcases hs : f.apply env.forest seen.reverse w' with ⟨_ | ys, w''⟩ <;>
        simp only [Sum.elim_inl, cursorStep, atDepth, Cursor.step, Step.collecting, Step.collect, bind, StateT.bind, h, h',
          hs] <;> rfl
    | item | suspended | failed | skip =>
      simp only [Sum.elim_inl, cursorStep, atDepth, Cursor.step, Step.collecting, Step.collect, bind, StateT.bind, h, h']
      rfl
  · rfl

/-- The nodes of a path. -/
theorem documentOrder_delivers (ho : Item.inDocumentOrder env.forest xs = .ok ys)
    (h : Delivers F (streamPull env) ω s xs) :
    Delivers F (streamPull env) ω (s.collect .documentOrder) ys :=
  collect_delivers (fun _ => by rw [Collector.apply, ho]; rfl) h

/-! ### Several streams -/

/-- The cursor of streams one after the other. -/
def Cursor.joined : List Stream → Cursor
  | [] => .items []
  | s :: rest => .concat s rest

/-- Several streams deliver their lists one after the other. -/
theorem concat_delivers {ss : List Stream} {xss : List (List Item)}
    (h : List.Forall₂ (Delivers F (streamPull env) ω) ss xss) :
    Delivers F (streamPull env) ω (.concat ss) xss.flatten := by
  cases h with
  | nil => exact ofList_delivers ω []
  | @cons s xs ss xss h hs =>
    refine StreamOf.delivers_run ((joining_delivers (.cons h hs)).embed Cursor.joined ?_)
    rintro (_ | ⟨s, rest⟩) ⟨w, depth⟩
    · rfl
    · obtain ⟨o, s', w', h, h'⟩ := exists_streamStep env s w depth
      cases o <;> cases rest <;>
        simp only [cursorStep, atDepth, Cursor.joined, Cursor.step, Step.joining, Step.concat, bind, StateT.bind,
          h, h'] <;>
        rfl

/-- The cursor of sequences that are made from items, between two of them and inside one. -/
def Cursor.flattening : Expander × Stream × Option Stream → Cursor
  | (f, s, none) => .outer f s
  | (f, s, some t) => .inner f s t

/-- The cursor of a nested sequence takes the steps of the combinator. -/
theorem cursorStep_flattening (env : Environment) (c : Expander × Stream × Option Stream) (p : World × Nat) :
    let r := Step.flattening (fun f x => atDepth env fun E => Expander.apply env E f x) (streamPull env)
      (streamPull env) c p
    cursorStep env (.flattening c) p = ((r.1.1, .flattening r.1.2), r.2) := by
  obtain ⟨f, s, _ | t⟩ := c <;> obtain ⟨w, depth⟩ := p
  · obtain ⟨o, s', w', h, h'⟩ := exists_streamStep env s w depth
    cases o with
    | item x =>
      rcases hx : Expander.apply env (.ofDepth env depth) f x w' with ⟨⟨_ | t, f'⟩, w''⟩ <;>
        simp only [cursorStep, atDepth, Cursor.flattening, Cursor.step, Step.flattening, Step.outer, bind, StateT.bind,
          h, h', hx] <;> rfl
    | done | suspended | failed | skip =>
      simp only [cursorStep, atDepth, Cursor.flattening, Cursor.step, Step.flattening, Step.outer, bind, StateT.bind,
        h, h']
      rfl
  · obtain ⟨o, t', w', h, h'⟩ := exists_streamStep env t w depth
    cases o <;>
      simp only [cursorStep, atDepth, Cursor.flattening, Cursor.step, Step.flattening, Step.inner, bind, StateT.bind,
        h, h'] <;>
      rfl

/-- A nested sequence delivers the lists of the inner streams one after the other. -/
theorem flatMap_delivers {f : Expander} {yss : List (List Item)}
    (hf : F.OpensEach (streamPull env) ω (fun f x => atDepth env fun E => Expander.apply env E f x) f xs
      yss) (h : Delivers F (streamPull env) ω s xs) :
    Delivers F (streamPull env) ω (s.flatMap f) yss.flatten :=
  StreamOf.delivers_run ((flattening_delivers hf h).embed Cursor.flattening (cursorStep_flattening env))

/-- The cursor of a state of combining items. -/
def Zipping.cursor (f : Combiner) : Zipping Item Stream Stream → Cursor
  | .reading r => .zip f r.before r.current.input r.current.item r.after r.waiting
  | .ready found => .combine f found
  | .forward t => .forward t

/-- A step in a round, by the engine and beside the depth. -/
theorem exists_zip (env : Environment) (r : Step.Round Item Stream) (w : World) (depth : Nat) :
    ∃ (o : Outcome Item) (z : Step.Round Item Stream ⊕ List (Option Item)) (w' : World),
      Step.zip r (streamStep env (.ofDepth env depth) r.current.input) w = ((o, z), w') ∧
        Step.zip r (streamPull env r.current.input) (w, depth) = ((o, z), w', depth) := by
  obtain ⟨o, s', w', h, h'⟩ := exists_streamStep env r.current.input w depth
  cases o with
  | item x =>
    cases hi : r.current.item with
    | none | some =>
      simp only [Step.zip, bind, StateT.bind, h, h', hi]
      exact ⟨_, _, _, rfl, rfl⟩
  | done | suspended | failed | skip =>
    simp only [Step.zip, bind, StateT.bind, h, h']
    exact ⟨_, _, _, rfl, rfl⟩

/-- The step of a cursor that reads a round leads to what follows. -/
theorem cursorStep_zip {f : Combiner} {r : Step.Round Item Stream} {w w' : World} {depth : Nat}
    {o : Outcome Item} {z : Step.Round Item Stream ⊕ List (Option Item)}
    (h : Step.zip r (streamStep env (.ofDepth env depth) r.current.input) w = ((o, z), w')) :
    cursorStep env (Zipping.cursor f (.reading r)) (w, depth) =
      ((o, Zipping.cursor f (.ofRound z)), w', depth) := by
  have hr : (⟨r.before, ⟨r.current.input, r.current.item⟩, r.after, r.waiting⟩ :
    Step.Round Item Stream) = r := rfl
  cases z <;>
    simp only [cursorStep, atDepth, Cursor.step, Zipping.cursor, hr, bind, StateT.bind, h] <;> rfl

/-- A function of at most one item from each of several streams. -/
theorem zip_delivers {f : Combiner} {ss : List Stream} {xs : List (Option Item)}
    (h : List.Forall₂ (fun s x => Delivers F (streamPull env) ω s x.toList) ss xs)
    (hf : F.Opens (streamPull env) ω (atDepth env fun E => f.apply env E xs) .ok ys) :
    Delivers F (streamPull env) ω (.zip f ss) ys := by
  have hz : Delivers F (Step.zipping (fun found => atDepth env fun E => f.apply env E found)
      (streamPull env) (streamPull env)) ω (.start ss) ys :=
    zipping_delivers (StreamOf.sticky (cursorStep env)) h hf
  have hz : Delivers F (cursorStep env) ω (Zipping.cursor f (.start ss)) ys := by
    refine hz.embed (Zipping.cursor f) ?_
    rintro (r | found | t) ⟨w, depth⟩
    · obtain ⟨o', z, w', h, h'⟩ := exists_zip env r w depth
      rw [cursorStep_zip h]
      simp only [Step.zipping, bind, StateT.bind, h']
      rfl
    · rcases hc : f.apply env (.ofDepth env depth) found w with ⟨_ | t, w'⟩ <;>
        simp only [cursorStep, atDepth, Cursor.step, Zipping.cursor, Step.zipping, bind, StateT.bind, hc] <;>
        rfl
    · obtain ⟨o, t', w', h, h'⟩ := exists_streamStep env t w depth
      simp only [cursorStep, atDepth, Cursor.step, Zipping.cursor, Step.zipping, bind, StateT.bind, h, h']
      rfl
  cases ss <;> exact StreamOf.delivers_run hz

/-! ### Values that arrive later -/

section

variable {values : List (DeferredId × Except Error (List Item))} {k : Nat} {d : DeferredId}

/-- A value that has arrived is taken over silently. -/
private theorem cursorStep_deferred {w : World} (h : w.arrivals.lookup d = some (.ok xs)) (depth : Nat) :
    cursorStep env (.deferred d none) (w, depth) = ((.skip, .deferred d (some xs)), w, depth) := by
  have hfound : World.arrival? d w = (w.arrivals.lookup d, w) := rfl
  simp only [cursorStep, atDepth, Cursor.step, deferredStep, bind, StateT.bind, hfound, h]
  rfl

/-- A value that has not is waited for. -/
private theorem cursorStep_deferred_awaited {w : World} (h : w.arrivals.lookup d = none) (depth : Nat) :
    cursorStep env (.deferred d none) (w, depth) = ((.suspended d, .deferred d none), w, depth) := by
  have hfound : World.arrival? d w = (w.arrivals.lookup d, w) := rfl
  simp only [cursorStep, atDepth, Cursor.step, deferredStep, bind, StateT.bind, hfound, h]
  rfl

/-- A value that has arrived. -/
theorem arrived_delivers (ω : F.Situation) (d : DeferredId) (xs : List Item) :
    Delivers F (cursorStep env) ω (.deferred d (some xs)) xs := by
  refine .of_unfold (ι := List Item) (fun xs => Cursor.deferred d (some xs)) id (fun _ => 0) ?_ ω xs
  intro xs
  cases xs with
  | nil => exact ⟨.done, [], fun _ => rfl, .inr (.inl ⟨rfl, rfl⟩)⟩
  | cons x xs => exact ⟨.item x, xs, fun _ => rfl, .inl ⟨x, rfl, rfl⟩⟩

/-- A value that arrives later. It is waited for only as long as something is outstanding. -/
theorem deferred_delivers {ω : Situation} (hd : values.lookup d = some (.ok xs)) :
    Delivers (regime env values k) (streamPull env) ω (.run (.deferred d none)) xs := by
  refine StreamOf.delivers_run (.coinduction (fun _ c ys => c = .deferred d none ∧ ys = xs) ?_ ⟨rfl, rfl⟩)
  rintro ω _ zs ⟨rfl, rfl⟩ ω₁ - hv
  refine .of_steps fun ω₂ h₂ => ?_
  have hv₂ : (regime env values k).Valid ω₂ := (regime env values k).valid_of_drift hv h₂
  have he : (regime env values k).effect ω₂ ω₂ := (regime env values k).effect_of_drift h₂
  cases ha : ω₂.world.arrivals.lookup d with
  | none =>
    refine .continues (cursorStep_deferred_awaited ha ω₂.depth) he (.suspended hv₂ ?_ (.inr ⟨rfl, rfl⟩))
    intro hs
    have ha' := h₂.1.evolves.arrivals d _ (hs d _ hd)
    rw [ha] at ha'
    cases ha'
  | some v =>
    obtain rfl : v = .ok zs := Option.some.inj ((h₂.1.sane.arrivals d v ha).symm.trans hd)
    refine .skip (cursorStep_deferred ha ω₂.depth) he ?_
    refine ((arrived_delivers ω₂ d zs).reports (.refl ω₂) hv₂).mono fun o ω' s' _ hc => ?_
    have h₁₂ : (regime env values k).evolves ω₁ ω₂ := h₂.1.evolves
    exact (hc.since h₁₂).mono fun _ _ _ h => .inl h

end

end LazyXPath
