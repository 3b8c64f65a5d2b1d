import LazyXPath.Sequence.Step

/-!
# What steps keep

An action **keeps** a property of the world if the property holds again after it, and then its result has
another property (`Keeps`). The rules of this module say this of the steps of combinators: if the pull of
a sequence keeps a property and gives items and states with certain properties, and if the callbacks do
the same, then so does the step.
-/

namespace LazyXPath

variable {W α β γ σ τ : Type}

/-! ### What an action keeps -/

/-- In every world with a property, an action keeps this property, and its result has another one. -/
def Keeps (I : W → Prop) (x : StateM W β) (Q : β → Prop) : Prop := ∀ w, I w → I (x w).2 ∧ Q (x w).1

namespace Keeps

variable {I : W → Prop} {x : StateM W β} {k : β → StateM W γ} {Q : β → Prop} {R : γ → Prop}

theorem of_pure {b : β} (h : Q b) : Keeps I (pure b) Q := fun _ hw => ⟨hw, h⟩

/-- If a first action keeps a property, and so does what is done with each of its results, then so does their
composition. -/
theorem bind (hx : Keeps I x Q) (hk : ∀ b, Q b → Keeps I (k b) R) : Keeps I (x >>= k) R :=
  fun w hw => hk (x w).1 (hx w hw).2 (x w).2 (hx w hw).1

theorem mono {Q' : β → Prop} (hx : Keeps I x Q) (h : ∀ b, Q b → Q' b) : Keeps I x Q' :=
  fun w hw => ⟨(hx w hw).1, h _ (hx w hw).2⟩

end Keeps

/-- A property of the item of an outcome. -/
def Outcome.IfItem (p : α → Prop) : Outcome α → Prop
  | .item x => p x
  | _ => True

/-- A property of the result of an attempt. -/
def IfOk (p : α → Prop) : Except Error α → Prop
  | .ok y => p y
  | .error _ => True

/-- A function applied to the result of an attempt carries its property over. -/
theorem IfOk.map {p : α → Prop} {q : β → Prop} {r : Except Error α} {f : α → β} (h : IfOk p r)
    (hf : ∀ x, p x → q (f x)) : IfOk q (r.map f) := by
  cases r with
  | ok x => exact hf x h
  | error e => trivial

/-- An attempt made with the result of another one: failures of either pass, results have the second
property. -/
theorem IfOk.bind {p : α → Prop} {q : β → Prop} {r : Except Error α} {f : α → Except Error β} (h : IfOk p r)
    (hf : ∀ x, p x → IfOk q (f x)) : IfOk q (r >>= f) := by
  cases r with
  | ok x => exact hf x h
  | error e => trivial

theorem IfOk.of_true (r : Except Error α) : IfOk (fun _ => True) r := by
  cases r <;> trivial

/-! ### Steps of combinators -/

section

variable {I : W → Prop} {P : α → Prop} {Q : β → Prop} {S : σ → Prop} {pull : Step.Pull W α σ}

/-- A mapping keeps what its pull and its callback keep, and gives what the callback gives for the items of
the pull. A failure of the callback gives no item. -/
theorem Step.map_keeps {f : γ → α → StateM W (Except Error β × γ)} {g : γ}
    (hf : ∀ x, P x → Keeps I (f g x) fun r => IfOk Q r.1) (hp : Keeps I pull fun r => r.1.IfItem P ∧ S r.2) :
    Keeps I (Step.map f g pull) fun r => r.1.IfItem Q ∧ S r.2.2 := by
  refine hp.bind ?_
  rintro ⟨o, s⟩ ⟨ho, hs⟩
  cases o with
  | item x =>
    refine (hf x ho).bind ?_
    rintro ⟨_ | y, g'⟩ hy
    · exact .of_pure ⟨trivial, hs⟩
    · exact .of_pure ⟨hy, hs⟩
  | done | suspended | failed | skip => exact .of_pure ⟨trivial, hs⟩

/-- A filter gives only items of its pull: nothing is asked of the verdict of its predicate. -/
theorem Step.filter_keeps {f : γ → α → StateM W (Except Error Bool × γ)} {g : γ}
    (hf : ∀ x, Keeps I (f g x) fun _ => True) (hp : Keeps I pull fun r => r.1.IfItem P ∧ S r.2) :
    Keeps I (Step.filter f g pull) fun r => r.1.IfItem P ∧ S r.2.2 := by
  refine hp.bind ?_
  rintro ⟨o, s⟩ ⟨ho, hs⟩
  cases o with
  | item x =>
    refine (hf x).bind ?_
    rintro ⟨_ | _ | _, g'⟩ -
    · exact .of_pure ⟨trivial, hs⟩
    · exact .of_pure ⟨trivial, hs⟩
    · exact .of_pure ⟨ho, hs⟩
  | done | suspended | failed | skip => exact .of_pure ⟨trivial, hs⟩

/-- A bounded prefix gives items of its pull, and does not pull at all once nothing is left to take. -/
theorem Step.take_keeps {n : Nat} {s : σ} (hs : S s) (hp : Keeps I pull fun r => r.1.IfItem P ∧ S r.2) :
    Keeps I (Step.take n s pull) fun r => r.1.IfItem P ∧ S r.2.2 := by
  cases n with
  | zero => exact .of_pure ⟨trivial, hs⟩
  | succ n =>
    refine hp.bind ?_
    rintro ⟨o, s⟩ ⟨ho, hs⟩
    cases o with
    | item x => exact .of_pure ⟨ho, hs⟩
    | done | suspended | failed | skip => exact .of_pure ⟨trivial, hs⟩

/-- An expansion pulls only when nothing is pending. Nothing is said of its items, as they come from a plain
function. -/
theorem Step.expand_keeps {f : α → Except Error (List β)} {pending : List β} {s : σ} (hs : S s)
    (hp : Keeps I pull fun r => S r.2) :
    Keeps I (Step.expand f pending s pull) fun r => S r.2.2 := by
  cases pending with
  | cons y ys => exact .of_pure hs
  | nil =>
    refine hp.bind ?_
    rintro ⟨o, s⟩ hs
    cases o with
    | item x =>
      dsimp only
      split <;> exact .of_pure hs
    | done | suspended | failed | skip => exact .of_pure hs

/-- A counter gives what its last function makes of the count, whatever the items were. -/
theorem Step.count_keeps {finish : Nat → Except Error β} {n : Nat} (hf : IfOk Q (finish n))
    (hp : Keeps I pull fun r => S r.2) :
    Keeps I (Step.count finish n pull) fun r => r.1.IfItem Q ∧ ∀ s, r.2.2 = some s → S s := by
  refine hp.bind ?_
  rintro ⟨o, s⟩ hs
  have hsome : ∀ s', some s = some s' → S s' := fun s' h => Option.some.inj h ▸ hs
  cases o with
  | done =>
    dsimp only
    cases hn : finish n with
    | ok y => exact .of_pure ⟨(congrArg (IfOk Q) hn).mp hf, fun _ h => nomatch h⟩
    | error e => exact .of_pure ⟨trivial, fun _ h => nomatch h⟩
  | item | suspended | failed | skip => exact .of_pure ⟨trivial, hsome⟩

/-- A collection keeps the property of what it has seen, and turns it into that of its items when its
callback gets all of them. -/
theorem Step.collect_keeps {f : List α → StateM W (Except Error (List β))} {seen : List α}
    (hf : ∀ xs, (∀ x ∈ xs, P x) → Keeps I (f xs) (IfOk fun ys => ∀ y ∈ ys, Q y))
    (hseen : ∀ x ∈ seen, P x) (hp : Keeps I pull fun r => r.1.IfItem P ∧ S r.2) :
    Keeps I (Step.collect f seen pull) fun r => r.1.IfItem Q ∧
      match r.2 with
      | .inl (seen, s) => (∀ x ∈ seen, P x) ∧ S s
      | .inr ys => ∀ y ∈ ys, Q y := by
  refine hp.bind ?_
  rintro ⟨o, s⟩ ⟨ho, hs⟩
  cases o with
  | item x => exact .of_pure ⟨trivial, List.forall_mem_cons.mpr ⟨ho, hseen⟩, hs⟩
  | done =>
    refine (hf seen.reverse fun x hx => hseen x (List.mem_reverse.mp hx)).bind ?_
    rintro (_ | ys) hy
    · exact .of_pure ⟨trivial, hseen, hs⟩
    · exact .of_pure ⟨trivial, hy⟩
  | suspended | failed | skip => exact .of_pure ⟨trivial, hseen, hs⟩

/-- What is left of a list after a step is a part of the list, and the item comes from it. -/
theorem Step.emit_ifItem {xs : List α} (h : ∀ x ∈ xs, P x) :
    (Step.emit xs).1.IfItem P ∧ ∀ x ∈ (Step.emit xs).2, P x := by
  cases xs with
  | nil => exact ⟨trivial, h⟩
  | cons x xs => exact List.forall_mem_cons.mp h

/-- The outer step of a nested sequence gives no item. The inner sequence it opens has the property that the
callback gives. -/
theorem Step.outer_keeps {f : γ → α → StateM W (Except Error τ × γ)} {g : γ} {G : γ → Prop} {U : τ → Prop}
    (hf : ∀ x, P x → Keeps I (f g x) fun r => IfOk U r.1 ∧ G r.2) (hg : G g)
    (hp : Keeps I pull fun r => r.1.IfItem P ∧ S r.2) :
    Keeps I (Step.outer (β := β) f g pull) fun r =>
      r.1.IfItem Q ∧ G r.2.1 ∧ S r.2.2.1 ∧ ∀ t, r.2.2.2 = some t → U t := by
  refine hp.bind ?_
  rintro ⟨o, s⟩ ⟨ho, hs⟩
  cases o with
  | item x =>
    refine (hf x ho).bind ?_
    rintro ⟨_ | t, g'⟩ ⟨ht, hg'⟩
    · exact .of_pure ⟨trivial, hg', hs, fun _ h => nomatch h⟩
    · exact .of_pure ⟨trivial, hg', hs, fun t' h => Option.some.inj h ▸ ht⟩
  | done | suspended | failed | skip => exact .of_pure ⟨trivial, hg, hs, fun _ h => nomatch h⟩

/-- The inner step of a nested sequence passes items on and forgets the sequence at its end. -/
theorem Step.inner_keeps (hp : Keeps I pull fun r => r.1.IfItem P ∧ S r.2) :
    Keeps I (Step.inner pull) fun r => r.1.IfItem P ∧ ∀ s, r.2 = some s → S s := by
  refine hp.bind ?_
  rintro ⟨o, s⟩ ⟨ho, hs⟩
  cases o with
  | done => exact .of_pure ⟨trivial, fun _ h => nomatch h⟩
  | item | suspended | failed | skip => exact .of_pure ⟨ho, fun s' h => Option.some.inj h ▸ hs⟩

/-- A concatenation goes over to its next sequence at the end of the current one, so a property of all of
them is that of the current one again. -/
theorem Step.concat_keeps {rest : List σ} (hr : ∀ s ∈ rest, S s)
    (hp : Keeps I pull fun r => r.1.IfItem P ∧ S r.2) :
    Keeps I (Step.concat rest pull) fun r => r.1.IfItem P ∧ S r.2.1 ∧ ∀ s ∈ r.2.2, S s := by
  refine hp.bind ?_
  rintro ⟨o, s⟩ ⟨ho, hs⟩
  cases o with
  | done =>
    cases rest with
    | nil => exact .of_pure ⟨trivial, hs, hr⟩
    | cons t rest => exact .of_pure ⟨trivial, List.forall_mem_cons.mp hr⟩
  | item | suspended | failed | skip => exact .of_pure ⟨ho, hs, hr⟩

/-- A property of the sequence and of the item of a slot. -/
def Step.Slot.Every (P : α → Prop) (S : σ → Prop) (t : Step.Slot α σ) : Prop :=
  S t.input ∧ ∀ x, t.item = some x → P x

/-- The same of all slots of a round. -/
structure Step.Round.Every (P : α → Prop) (S : σ → Prop) (r : Step.Round α σ) : Prop where
  before : ∀ t ∈ r.before, t.Every P S
  current : r.current.Every P S
  after : ∀ t ∈ r.after, t.Every P S

/-- What comes of a round: another one, or the items. -/
def Step.RoundOrItems (P : α → Prop) (S : σ → Prop) : Step.Round α σ ⊕ List (Option α) → Prop
  | .inl r => r.Every P S
  | .inr found => ∀ x, some x ∈ found → P x

/-- The next slot of a round, or the items of a complete one, come from slots that have been there. -/
private theorem Step.Round.Every.next {r : Step.Round α σ} (h : r.Every P S) :
    (Step.Round.next (β := β) r).1.IfItem Q ∧ Step.RoundOrItems P S (Step.Round.next (β := β) r).2 := by
  obtain ⟨before, current, after, waiting⟩ := r
  have hall : ∀ t ∈ (current :: before).reverse, t.Every P S := by
    intro t ht
    exact List.forall_mem_cons.mpr ⟨h.current, h.before⟩ t (List.mem_reverse.mp ht)
  have hitems {slots : List (Step.Slot α σ)} (hs : ∀ t ∈ slots, t.Every P S) :
      ∀ x, some x ∈ slots.map (·.item) → P x := by
    intro x hx
    obtain ⟨t, ht, hx⟩ := List.mem_map.mp hx
    exact (hs t ht).2 x hx
  cases after with
  | cons t ts =>
    obtain ⟨ht, hts⟩ := List.forall_mem_cons.mp h.after
    exact ⟨trivial, List.forall_mem_cons.mpr ⟨h.current, h.before⟩, ht, hts⟩
  | nil =>
    -- all have been visited: another round begins if one of them waits, and the items are there otherwise
    unfold Step.Round.next
    dsimp only
    split
    · rename_i hrev
      rw [hrev] at hall
      obtain ⟨ht, hts⟩ := List.forall_mem_cons.mp hall
      exact ⟨trivial, fun _ h => absurd h List.not_mem_nil, ht, hts⟩
    · exact ⟨trivial, hitems hall⟩

/-- A step of a round keeps a property of all its slots, and the items it gives at the end are those that the
slots have found. -/
theorem Step.zip_keeps {r : Step.Round α σ} (hr : r.Every P S)
    (hp : Keeps I pull fun r => r.1.IfItem P ∧ S r.2) :
    Keeps I (Step.zip (β := β) r pull) fun q => q.1.IfItem Q ∧ Step.RoundOrItems P S q.2 := by
  refine hp.bind ?_
  rintro ⟨o, s⟩ ⟨ho, hs⟩
  have hcur : ∀ waiting, Step.Round.Every P S ⟨r.before, ⟨s, r.current.item⟩, r.after, waiting⟩ :=
    fun _ => ⟨hr.before, ⟨hs, hr.current.2⟩, hr.after⟩
  cases o with
  | item x =>
    dsimp only
    split
    · exact .of_pure ⟨trivial, hr.before, ⟨hs, fun y hy => Option.some.inj hy ▸ ho⟩, hr.after⟩
    · exact .of_pure ⟨trivial, hr⟩
  | done => exact .of_pure (hcur _).next
  | suspended d => exact .of_pure (hcur _).next
  | failed | skip => exact .of_pure ⟨trivial, hcur _⟩

/-- A property of the items and the sequences of a gathering. -/
structure Step.Gathering.Every (P : α → Prop) (S : σ → Prop) (g : Step.Gathering α σ) : Prop where
  gathered : ∀ xs ∈ g.gathered, ∀ x ∈ xs, P x
  seen : ∀ x ∈ g.seen, P x
  current : S g.current
  rest : ∀ s ∈ g.rest, S s

/-- A step of a gathering keeps a property of the items it has seen and of the sequences it has not read. -/
theorem Step.gather_keeps {g : Step.Gathering α σ} (hg : g.Every P S)
    (hp : Keeps I pull fun r => r.1.IfItem P ∧ S r.2) :
    Keeps I (Step.gather (β := β) g pull) fun r => r.1.IfItem Q ∧
      match r.2 with
      | .inl g => g.Every P S
      | .inr arguments => ∀ xs ∈ arguments, ∀ x ∈ xs, P x := by
  refine hp.bind ?_
  rintro ⟨o, s⟩ ⟨ho, hs⟩
  cases o with
  | item x => exact .of_pure ⟨trivial, hg.gathered, List.forall_mem_cons.mpr ⟨ho, hg.seen⟩, hs, hg.rest⟩
  | done =>
    -- the items of the current sequence join those gathered before
    have hall : ∀ xs ∈ g.seen.reverse :: g.gathered, ∀ x ∈ xs, P x := by
      refine List.forall_mem_cons.mpr ⟨fun x hx => ?_, hg.gathered⟩
      exact hg.seen x (List.mem_reverse.mp hx)
    obtain ⟨gathered, seen, current, rest⟩ := g
    cases rest with
    | nil => exact .of_pure ⟨trivial, fun xs hxs => hall xs (List.mem_reverse.mp hxs)⟩
    | cons t ts =>
      obtain ⟨ht, hts⟩ := List.forall_mem_cons.mp hg.rest
      exact .of_pure ⟨trivial, hall, fun _ h => absurd h List.not_mem_nil, ht, hts⟩
  | suspended | failed | skip => exact .of_pure ⟨trivial, hg.gathered, hg.seen, hs, hg.rest⟩

end

end LazyXPath
