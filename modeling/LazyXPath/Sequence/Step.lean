import LazyXPath.Sequence.Outcome

/-!
# Steps of sequences made from other sequences

Each combinator is a state beside the state of the sequence it reads. A step of a combinator pulls
the sequence it reads at most once, so that a suspension leaves a state from which the step can be
repeated. The functions of this module take the **pull** of the sequence that is read, an action that
gives an outcome and the state after it, and give a step of the combinator.

Callbacks may fail, may change the surroundings `W`, and have a state of their own.
-/

namespace LazyXPath.Step

variable {W α β γ σ τ : Type}

/-- A pull of a sequence with states of type `σ`. -/
abbrev Pull (W α σ : Type) := StateM W (Outcome α × σ)

/-! ### Item by item -/

/-- Applies a function to each item. -/
def map (f : γ → α → StateM W (Except Error β × γ)) (g : γ) (pull : Pull W α σ) :
    StateM W (Outcome β × γ × σ) := do
  match ← pull with
  | (.item x, s) =>
    match ← f g x with
    | (.ok y, g) => return (.item y, g, s)
    | (.error e, g) => return (.failed e, g, s)
  | (o, s) => return (o.pass, g, s)

/-- Keeps the items that pass a test. -/
def filter (f : γ → α → StateM W (Except Error Bool × γ)) (g : γ) (pull : Pull W α σ) :
    StateM W (Outcome α × γ × σ) := do
  match ← pull with
  | (.item x, s) =>
    match ← f g x with
    | (.ok true, g) => return (.item x, g, s)
    | (.ok false, g) => return (.skip, g, s)
    | (.error e, g) => return (.failed e, g, s)
  | (o, s) => return (o, g, s)

/-- Ends after `n` items, whatever follows in `s`. -/
def take (n : Nat) (s : σ) (pull : Pull W α σ) : StateM W (Outcome α × Nat × σ) :=
  match n with
  | 0 => pure (.done, 0, s)
  | n + 1 => do
    match ← pull with
    | (.item x, s) => return (.item x, n, s)
    | (o, s) => return (o, n + 1, s)

/-- Replaces each item by a list of items, which are delivered one by one. -/
def expand (f : α → Except Error (List β)) (pending : List β) (s : σ) (pull : Pull W α σ) :
    StateM W (Outcome β × List β × σ) :=
  match pending with
  | y :: ys => pure (.item y, ys, s)
  | [] => do
    match ← pull with
    | (.item x, s) =>
      match f x with
      | .ok [] => return (.skip, [], s)
      | .ok (y :: ys) => return (.item y, ys, s)
      | .error e => return (.failed e, [], s)
    | (o, s) => return (o.pass, [], s)

/-- Counts the items, and delivers their number at the end. -/
def count (finish : Nat → Except Error β) (n : Nat) (pull : Pull W α σ) :
    StateM W (Outcome β × Nat × Option σ) := do
  match ← pull with
  | (.item _, s) => return (.skip, n + 1, some s)
  | (.done, _) =>
    match finish n with
    | .ok y => return (.item y, n, none)
    | .error e => return (.failed e, n, none)
  | (o, s) => return (o.pass, n, some s)

/-! ### All items at once -/

/-- Collects all items, here in reverse, and applies a function to the whole sequence. The result is
the state of the collection, or the items that the function gives. -/
def collect (f : List α → StateM W (Except Error (List β))) (seen : List α) (pull : Pull W α σ) :
    StateM W (Outcome β × (List α × σ ⊕ List β)) := do
  match ← pull with
  | (.item x, s) => return (.skip, .inl (x :: seen, s))
  | (.done, s) =>
    match ← f seen.reverse with
    | .ok ys => return (.skip, .inr ys)
    | .error e => return (.failed e, .inl (seen, s))
  | (o, s) => return (o.pass, .inl (seen, s))

/-- Delivers items one by one. -/
def emit (xs : List α) : Outcome α × List α :=
  match xs with
  | [] => (.done, [])
  | x :: xs => (.item x, xs)

/-! ### Sequences of sequences -/

/-- Takes the next item of the outer sequence and makes an inner sequence of it. -/
def outer (f : γ → α → StateM W (Except Error τ × γ)) (g : γ) (pull : Pull W α σ) :
    StateM W (Outcome β × γ × σ × Option τ) := do
  match ← pull with
  | (.item x, s) =>
    match ← f g x with
    | (.ok t, g) => return (.skip, g, s, some t)
    | (.error e, g) => return (.failed e, g, s, none)
  | (o, s) => return (o.pass, g, s, none)

/-- Reads an inner sequence, which is absent after its end. -/
def inner (pull : Pull W α τ) : StateM W (Outcome α × Option τ) := do
  match ← pull with
  | (.done, _) => return (.skip, none)
  | (o, t) => return (o, some t)

/-- Reads the first of several sequences, and the others after its end. -/
def concat (rest : List σ) (pull : Pull W α σ) : StateM W (Outcome α × σ × List σ) := do
  match ← pull, rest with
  | (.done, _), next :: rest => return (.skip, next, rest)
  | (o, s), rest => return (o, s, rest)

/-! ### One item from each of several sequences -/

/-- A sequence of which at most one item is wanted, and the item found in it. -/
structure Slot (α σ : Type) where
  input : σ
  item : Option α

/-- The state of reading several sequences: those already visited in this round in reverse, the current
one, those still to be visited, and the first suspension of this round. -/
structure Round (α σ : Type) where
  before : List (Slot α σ)
  current : Slot α σ
  after : List (Slot α σ)
  waiting : Option DeferredId

namespace Round

/-- A first round. -/
def start (s : σ) (rest : List σ) : Round α σ := ⟨[], ⟨s, none⟩, rest.map (⟨·, none⟩), none⟩

/-- The number of the current sequence, counted from one. -/
def number (r : Round α σ) : Nat := r.before.length + 1

/-- What follows when the current sequence has been visited: the next one, another round if there has
been a suspension, or else all the items. -/
def next (r : Round α σ) : Outcome β × (Round α σ ⊕ List (Option α)) :=
  let visited := r.current :: r.before
  match r.after with
  | t :: ts => (.skip, .inl ⟨visited, t, ts, r.waiting⟩)
  | [] =>
    match r.waiting, visited.reverse with
    | some d, t :: ts => (.suspended d, .inl ⟨[], t, ts, none⟩)
    | _, slots => (.skip, .inr (slots.map (·.item)))

end Round

/-- Reads at most one item from each of several sequences. Every sequence is visited in every round, up
to its end or a suspension; a suspension is reported at the end of the round, the first one if there are
several. -/
def zip (r : Round α σ) (pull : Pull W α σ) :
    StateM W (Outcome β × (Round α σ ⊕ List (Option α))) := do
  match ← pull with
  | (.item x, s) =>
    match r.current.item with
    | none => return (.skip, .inl { r with current := ⟨s, some x⟩ })
    | some _ => return (.failed (.notSingle r.number), .inl r)
  | (.done, s) => return { r with current := ⟨s, r.current.item⟩ }.next
  | (.suspended d, s) =>
    return { r with current := ⟨s, r.current.item⟩, waiting := r.waiting.or (some d) }.next
  | (o, s) => return (o.pass, .inl { r with current := ⟨s, r.current.item⟩ })

/-- The state of reading several sequences one after the other to their ends: the items of those that
have ended in reverse, the items of the current one in reverse, and the sequences still to be read. -/
structure Gathering (α σ : Type) where
  gathered : List (List α)
  seen : List α
  current : σ
  rest : List σ

/-- Reads several sequences one after the other to their ends. -/
def gather (g : Gathering α σ) (pull : Pull W α σ) :
    StateM W (Outcome β × (Gathering α σ ⊕ List (List α))) := do
  match ← pull with
  | (.item x, s) => return (.skip, .inl { g with seen := x :: g.seen, current := s })
  | (.done, _) =>
    let gathered := g.seen.reverse :: g.gathered
    match g.rest with
    | t :: ts => return (.skip, .inl ⟨gathered, [], t, ts⟩)
    | [] => return (.skip, .inr gathered.reverse)
  | (o, s) => return (o.pass, .inl { g with current := s })

end LazyXPath.Step
