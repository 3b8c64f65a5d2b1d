import LazyXPath.Proofs.Protocol
import LazyXPath.Proofs.Separation.Machine

/-!
# Shared replay

A sequence that can be pulled only once is read any number of times through a shared buffer. Readers enter
at any time and are pulled in any order, while the world changes (`Turn`). `shared_replay` says what they
see.

* The source is pulled in **one pass**, by whichever reader has caught up with the buffer. What happens
  between two of its pulls are the changes of the world and the recording of its items (`Between`).
* The buffer **follows** the pass: it holds the items of the source in order, and the end or the error when
  it has come (`BufferOf.Follows`).
* A reader **follows** the buffer: it has delivered the items up to its position, and it reports the end
  or the error of the source after all the items and from then on (`Reader.Follows`).

A buffer is made after its source, so that nothing refers to it in advance and it stays out of reach of the
source. The changes of the world must leave it alone (`LeavesAlone`).
-/

namespace LazyXPath

variable {α σ : Type}

/-! ### Buffers -/

/-- An ending delivers no item. -/
private theorem Outcome.IsEnding.item?_eq {o : Outcome α} (h : o.IsEnding) : o.item? = none := by
  cases o with
  | done | failed => rfl
  | item | suspended | skip => exact h.elim

namespace BufferOf

/-- The last report of the source, if it has come. -/
def ending? (b : BufferOf α σ) : Option (Outcome α) :=
  match b.source, b.error with
  | some _, _ => none
  | none, none => some .done
  | none, some e => some (.failed e)

/-- A buffer follows its source, which is in the state `s` and whose outcomes are in the log. -/
structure Follows (b : BufferOf α σ) (s : σ) (log : List (Outcome α)) : Prop where
  items : log.filterMap Outcome.item? = b.items.toList
  ending : match b.source, b.error with
    | some s', none => s' = s ∧ ∀ o ∈ log, ¬o.IsEnding
    | some _, some _ => False
    | none, none => ∃ before, log = before ++ [.done] ∧ ∀ o ∈ before, ¬o.IsEnding
    | none, some e => ∃ before, log = before ++ [.failed e] ∧ ∀ o ∈ before, ¬o.IsEnding

/-- A new buffer follows a pass in which nothing has been pulled. -/
private theorem Follows.start (s : σ) : (start s : BufferOf α σ).Follows s [] :=
  ⟨rfl, rfl, fun _ h => absurd h List.not_mem_nil⟩

/-- The source of a buffer that has not seen its end. -/
theorem Follows.source_eq {b : BufferOf α σ} {s : σ} {log : List (Outcome α)} (h : b.Follows s log)
    (he : b.ending? = none) : b = ⟨b.items, some s, none⟩ ∧ ∀ o ∈ log, ¬o.IsEnding := by
  obtain ⟨items, source, error⟩ := b
  have hend := h.ending
  cases source with
  | none => cases error <;> cases he
  | some s' =>
    cases error with
    | none =>
      obtain ⟨rfl, hlog⟩ := hend
      exact ⟨rfl, hlog⟩
    | some e => exact hend.elim

/-- What a buffer has recorded as its end is an end. -/
private theorem isEnding_of_ending? {b : BufferOf α σ} {o : Outcome α} (h : b.ending? = some o) : o.IsEnding := by
  unfold ending? at h
  split at h <;> cases h <;> trivial

/-- Either the source has not ended and is still there, or its last report is the last entry. -/
theorem Follows.ending_cases {b : BufferOf α σ} {s : σ} {log : List (Outcome α)} (h : b.Follows s log) :
    (b.ending? = none ∧ b.source = some s ∧ ∀ o ∈ log, ¬o.IsEnding) ∨
      ∃ before o, b.ending? = some o ∧ b.source = none ∧ log = before ++ [o] ∧
        ∀ o' ∈ before, ¬o'.IsEnding := by
  obtain ⟨items, source, error⟩ := b
  have hend := h.ending
  cases source with
  | some s' =>
    cases error with
    | none =>
      obtain ⟨rfl, hlog⟩ := hend
      exact .inl ⟨rfl, rfl, hlog⟩
    | some e => exact hend.elim
  | none =>
    cases error with
    | none =>
      obtain ⟨before, hlog, hbefore⟩ := hend
      exact .inr ⟨before, .done, rfl, rfl, hlog, hbefore⟩
    | some e =>
      obtain ⟨before, hlog, hbefore⟩ := hend
      exact .inr ⟨before, .failed e, rfl, rfl, hlog, hbefore⟩

/-- The items of the pass are those in the buffer. -/
private theorem Follows.producedItems_eq {b : BufferOf α σ} {s : σ} {log : List (Outcome α)}
    (h : b.Follows s log) : producedItems log = b.items.toList := by
  rw [← h.items]
  obtain ⟨-, -, hlog⟩ | ⟨before, o, he, -, rfl, hbefore⟩ := h.ending_cases
  · have hp : producedItems (log ++ []) = _ := producedItems_append hlog
    simpa [producedItems] using hp
  · have ho := isEnding_of_ending? he
    rw [producedItems_append hbefore, List.filterMap_append]
    cases o with
    | done | failed => rfl
    | item | suspended | skip => exact ho.elim

/-- The source has not been pulled after its end or an error. -/
theorem Follows.ending_is_last {b : BufferOf α σ} {s : σ} {log : List (Outcome α)}
    (h : b.Follows s log) : ∀ o ∈ log.dropLast, ¬o.IsEnding := by
  obtain ⟨-, -, hlog⟩ | ⟨before, o, -, -, rfl, hbefore⟩ := h.ending_cases
  · exact fun o ho => hlog o (List.mem_of_mem_dropLast ho)
  · rwa [List.dropLast_concat]

/-- A pull of the source. -/
theorem Follows.record {items : Array α} {s s' : σ} {log : List (Outcome α)}
    (h : Follows ⟨items, some s, none⟩ s log) (o : Outcome α) :
    (BufferOf.record ⟨items, some s, none⟩ o s').Follows s' (log ++ [o]) := by
  have hi : log.filterMap Outcome.item? = items.toList := h.items
  have hlog : ∀ o ∈ log, ¬o.IsEnding := h.ending.2
  have hsnoc (ho : ¬o.IsEnding) : ∀ o' ∈ log ++ [o], ¬o'.IsEnding := by
    intro o' hmem
    obtain hmem | hmem := List.mem_append.mp hmem
    · exact hlog o' hmem
    · exact List.mem_singleton.mp hmem ▸ ho
  cases o with
  | item x => exact ⟨by simp [BufferOf.record, List.filterMap_append, hi, Outcome.item?], rfl, hsnoc id⟩
  | suspended | skip =>
    exact ⟨by simp [BufferOf.record, List.filterMap_append, hi, Outcome.item?], rfl, hsnoc id⟩
  | done => exact ⟨by simp [BufferOf.record, List.filterMap_append, hi, Outcome.item?], log, rfl, hlog⟩
  | failed e => exact ⟨by simp [BufferOf.record, List.filterMap_append, hi, Outcome.item?], log, rfl, hlog⟩

/-- What a reader finds that has not caught up with the buffer. -/
theorem peek_of_lt {b : BufferOf α σ} {position : Nat} {x : α} (h : b.items[position]? = some x) :
    b.peek position = .inl (.item x) := by
  simp only [peek, h]

/-- What a reader finds that has read all items, when the last report of the source has come. -/
theorem peek_of_ending {b : BufferOf α σ} {o : Outcome α} (h : b.ending? = some o) :
    b.peek b.items.size = .inl o := by
  obtain ⟨items, source, error⟩ := b
  have hn : items[items.size]? = none := Array.getElem?_size
  unfold ending? at h
  cases source with
  | some s => cases h
  | none => cases error <;> cases h <;> simp only [peek, hn]

/-- What a reader finds that has read all items, when there may be more. -/
theorem peek_of_source (items : Array α) (s : σ) :
    peek ⟨items, some s, none⟩ items.size = .inr s := by
  have hn : items[items.size]? = none := Array.getElem?_size
  simp only [peek, hn]

end BufferOf

/-! ### Readers -/

/-- A reader of a shared buffer: its stream, and what it has reported. -/
structure Reader where
  stream : Stream
  reports : List (Outcome Item)

namespace Reader

/-- The items that a reader has delivered. -/
def delivered (r : Reader) : List Item := r.reports.filterMap Outcome.item?

/-- The number of items that a reader has delivered. -/
def position (r : Reader) : Nat := r.delivered.length

/-- A reader after a report. -/
def after (r : Reader) (q : Outcome Item × Stream) : Reader := ⟨q.2, r.reports ++ [q.1]⟩

/-- A reader has delivered all items, and then it has reported the end or the error of the source and
nothing else. -/
structure Ended (buffer : Buffer) (r : Reader) (o : Outcome Item) : Prop where
  reports : ∃ before after, r.reports = before ++ o :: after ∧ (∀ o' ∈ before, ¬o'.IsEnding) ∧
    ∀ o' ∈ after, o' = o
  ending : buffer.ending? = some o
  all : r.position = buffer.items.size
  stream : ∀ c, r.stream = ⟨[], StreamOf.statusAfter o c⟩

/-- A reader follows a buffer: it has delivered the items up to its position, and either it has reported
no end and goes on, or it has ended. -/
structure Follows (b : BufferId) (buffer : Buffer) (r : Reader) : Prop where
  seen : r.delivered <+: buffer.items.toList
  state : ((∀ o ∈ r.reports, ¬o.IsEnding) ∧ r.stream = .run (.reader b r.position)) ∨
    ∃ o, r.Ended buffer o

/-- A reader enters at the front, with nothing delivered. -/
private theorem Follows.entered (b : BufferId) (buffer : Buffer) : Follows b buffer ⟨.run (.reader b 0), []⟩ :=
  ⟨List.nil_prefix, .inl ⟨fun _ h => absurd h List.not_mem_nil, rfl⟩⟩

end Reader

/-! ### Turns -/

/-- What happens around a shared buffer: a reader enters, a reader is pulled, or the world changes. -/
inductive Turn where
  | enter
  | pull (reader : Nat)
  | change (m : World → World)

section

variable (env : Environment) (E : Engine) (b : BufferId)

/-- The readers and the world after a turn. -/
def Turn.run (p : List Reader × World) : Turn → List Reader × World
  | .enter =>
    let q := evaluateReplay env E (.buffered b) p.2
    (p.1 ++ [⟨q.1, []⟩], q.2)
  | .pull i =>
    match p.1[i]? with
    | none => p
    | some r =>
      let q := streamStep env E r.stream p.2
      (p.1.set i (r.after q.1), q.2)
  | .change m => (p.1, m p.2)

/-- The readers and the world after some turns. -/
def Turn.runAll (ts : List Turn) (p : List Reader × World) : List Reader × World :=
  ts.foldl (Turn.run env E b) p

end

/-- What happens between two pulls of the source of a buffer: changes of the world, and the recording of
what the source has given. -/
inductive Between (b : BufferId) (ts : List Turn) : (World → World) → Prop where
  | nothing : Between b ts id
  | change {f m : World → World} (h : .change m ∈ ts) (rest : Between b ts f) : Between b ts (m ∘ f)
  | recording {f : World → World} (o : Outcome Item) (s : Stream) (rest : Between b ts f) :
    Between b ts fun w => (World.recordPull b o s (f w)).2

/-- A change of the world leaves a buffer as it is, and does not bring it into reach of a stream. -/
def LeavesAlone (env : Environment) (b : BufferId) (m : World → World) : Prop :=
  ∀ s w, OutOfReach env b s w → OutOfReach env b s (m w) ∧ (m w).buffers[b]? = w.buffers[b]?

/-- A value may arrive if its items refer to no buffers. -/
theorem leavesAlone_arrival (env : Environment) (b : BufferId) (d : DeferredId)
    {value : Except Error (List Item)} (hv : ∀ T, IfOk (ItemsSpare T) value) :
    LeavesAlone env b fun w => { w with arrivals := w.arrivals ++ [(d, value)] } := by
  rintro s w ⟨T, held, hT, henv, hw, hs⟩
  refine ⟨⟨T, held, hT, henv, ⟨⟨hw.buffers, fun d' xs h => ?_, hw.replays⟩, hw.held⟩, hs⟩, rfl⟩
  rw [List.lookup_append, Option.or_eq_some_iff] at h
  obtain h | ⟨-, h⟩ := h
  · exact hw.arrivals d' xs h
  · rw [List.lookup_cons] at h
    split at h
    · exact (congrArg (IfOk (ItemsSpare T)) (Option.some.inj h)).mp (hv T)
    · cases h

/-! ### A pull of a reader -/

section

variable {env : Environment} {E : Engine} {b : BufferId} {buffer : Buffer} {w w' : World} {s s' : Stream}
  {o : Outcome Item} {position : Nat}

/-- A reader that finds something in the buffer leaves the world alone. -/
private theorem streamStep_reader_found (hw : w.buffers[b]? = some buffer) (hp : buffer.peek position = .inl o) :
    streamStep env E (.run (.reader b position)) w =
      ((o, ⟨[], StreamOf.statusAfter o (.reader b (BufferOf.positionAfter position o))⟩), w) := by
  have hr : readerStep E b position w = ((o, .reader b (BufferOf.positionAfter position o)), w) := by
    simp only [readerStep, bind, StateT.bind, World.peekBuffer_eq hw, hp]
    rfl
  exact (streamStep_eq_pull env E _ ▸ StreamOf.pull_run hr)

/-- A reader that has caught up pulls the source and records what comes. -/
private theorem streamStep_reader_source (hw : w.buffers[b]? = some buffer) (hp : buffer.peek position = .inr s)
    (hs : E.step s w = ((o, s'), w')) :
    streamStep env E (.run (.reader b position)) w =
      ((o, ⟨[], StreamOf.statusAfter o (.reader b (BufferOf.positionAfter position o))⟩),
        (World.recordPull b o s' w').2) := by
  have hr : readerStep E b position w =
      ((o, .reader b (BufferOf.positionAfter position o)), (World.recordPull b o s' w').2) := by
    simp only [readerStep, bind, StateT.bind, World.peekBuffer_eq hw, hp, hs]
    rfl
  exact (streamStep_eq_pull env E _ ▸ StreamOf.pull_run hr)

namespace Reader

variable {r : Reader}

/-- An item adds to what a reader has delivered. -/
private theorem delivered_after (r : Reader) (o : Outcome Item) (s : Stream) :
    (r.after (o, s)).delivered = r.delivered ++ o.item?.toList := by
  cases o <;> simp [delivered, after, List.filterMap_append, Outcome.item?]

/-- And to its position. -/
private theorem position_after (r : Reader) (o : Outcome Item) (s : Stream) :
    (r.after (o, s)).position = BufferOf.positionAfter r.position o := by
  unfold position
  rw [delivered_after]
  cases o <;> simp [Outcome.item?, BufferOf.positionAfter]

/-- Readers do not go back. -/
private theorem position_le_after (r : Reader) (q : Outcome Item × Stream) : r.position ≤ (r.after q).position := by
  obtain ⟨o, s⟩ := q
  rw [position_after]
  cases o with
  | item => exact Nat.le_succ _
  | done | suspended | failed | skip => exact Nat.le_refl _

/-- No reader is ahead of the buffer. -/
private theorem Follows.position_le (h : r.Follows b buffer) : r.position ≤ buffer.items.size := h.seen.length_le

/-- A reader goes on after a report other than the end or an error. -/
theorem Follows.goesOn (hr : ∀ o ∈ r.reports, ¬o.IsEnding) (ho : ¬o.IsEnding)
    (hs : r.delivered ++ o.item?.toList <+: buffer.items.toList) :
    (r.after (o, ⟨[], StreamOf.statusAfter o (.reader b (BufferOf.positionAfter r.position o))⟩)).Follows
      b buffer := by
  refine ⟨delivered_after r o _ ▸ hs, .inl ⟨fun o' hmem => ?_, ?_⟩⟩
  · obtain hmem | hmem := List.mem_append.mp hmem
    · exact hr o' hmem
    · exact List.mem_singleton.mp hmem ▸ ho
  · rw [position_after]
    cases o with
    | item | suspended | skip => rfl
    | done | failed => exact absurd trivial ho

/-- An ending delivers nothing. -/
private theorem delivered_after_ending (ho : o.IsEnding) (r : Reader) (s : Stream) :
    (r.after (o, s)).delivered = r.delivered := by
  rw [delivered_after, ho.item?_eq, Option.toList_none, List.append_nil]

/-- A reader comes to its end. -/
theorem Follows.ends (h : r.Follows b buffer) (hr : ∀ o ∈ r.reports, ¬o.IsEnding)
    (hp : r.position = buffer.items.size) (ho : buffer.ending? = some o) (c : Cursor) :
    (r.after (o, ⟨[], StreamOf.statusAfter o c⟩)).Follows b buffer := by
  have hend := BufferOf.isEnding_of_ending? ho
  have hd := delivered_after_ending hend r ⟨[], StreamOf.statusAfter o c⟩
  refine ⟨hd.symm ▸ h.seen, .inr ⟨o, ⟨r.reports, [], rfl, hr, fun _ h => absurd h List.not_mem_nil⟩, ho,
    (congrArg List.length hd).trans hp, fun c' => ?_⟩⟩
  cases o with
  | done | failed => rfl
  | item | suspended | skip => exact hend.elim

/-- A reader that has ended is pulled again. -/
theorem Ended.pulled (h : r.Ended buffer o) (env : Environment) (E : Engine) (w : World) :
    streamStep env E r.stream w = ((o, r.stream), w) ∧ (r.after (o, r.stream)).Ended buffer o := by
  have hend := BufferOf.isEnding_of_ending? h.ending
  obtain ⟨before, after, hreports, hbefore, hafter⟩ := h.reports
  refine ⟨?_, ⟨before, after ++ [o], ?_, hbefore, fun o' hmem => ?_⟩, h.ending, ?_, h.stream⟩
  · rw [h.stream (.items [])]
    cases o with
    | done | failed => rfl
    | item | suspended | skip => exact hend.elim
  · simp [Reader.after, hreports]
  · obtain hmem | hmem := List.mem_append.mp hmem
    · exact hafter o' hmem
    · exact List.mem_singleton.mp hmem
  · exact (congrArg List.length (delivered_after_ending hend r r.stream)).trans h.all

/-- What a recording leaves of a reader. -/
theorem Follows.recorded (h : r.Follows b buffer) (he : buffer.ending? = none) (o : Outcome Item)
    (s : Stream) : r.Follows b (buffer.record o s) := by
  have hi : buffer.items.toList <+: (buffer.record o s).items.toList := by
    cases o with
    | item x => simp [BufferOf.record]
    | done | suspended | failed | skip => exact List.prefix_rfl
  refine ⟨h.seen.trans hi, ?_⟩
  obtain hs | ⟨o, ho⟩ := h.state
  · exact .inl hs
  · cases he.symm.trans ho.ending

/-- The next item of the buffer is what a reader delivers next. -/
private theorem Follows.seen_next {x : Item} (h : r.Follows b buffer) (hx : buffer.items[r.position]? = some x) :
    r.delivered ++ [x] <+: buffer.items.toList := by
  obtain ⟨rest, hrest⟩ := h.seen
  have hx : (r.delivered ++ rest)[r.delivered.length]? = some x := by
    rw [hrest, Array.getElem?_toList]
    exact hx
  rw [List.getElem?_append_right (Nat.le_refl _), Nat.sub_self] at hx
  cases rest with
  | nil => cases hx
  | cons y rest =>
    obtain rfl : y = x := Option.some.inj hx
    exact ⟨rest, by rw [← hrest]; simp⟩

/-- A reader that has read all items pulls the source. -/
theorem Follows.pulledSource (h : r.Follows b buffer) (hr : ∀ o ∈ r.reports, ¬o.IsEnding)
    (hp : r.position = buffer.items.size) (hsource : buffer = ⟨buffer.items, some s, none⟩)
    (o : Outcome Item) (s' : Stream) :
    (r.after (o, ⟨[], StreamOf.statusAfter o (.reader b (BufferOf.positionAfter r.position o))⟩)).Follows b
      (buffer.record o s') := by
  have he : buffer.ending? = none := by rw [hsource]; rfl
  have hall : r.delivered = buffer.items.toList := h.seen.eq_of_length hp
  have h' := h.recorded he o s'
  cases o with
  | item x => exact .goesOn hr id (by simp [BufferOf.record, hall, Outcome.item?])
  | suspended | skip => exact .goesOn hr id (by simpa [Outcome.item?] using h'.seen)
  | done => exact h'.ends hr hp (by rw [hsource]; rfl) _
  | failed e => exact h'.ends hr hp (by rw [hsource]; rfl) _

/-- **What a pull of a reader can do.** It finds the next item in the buffer; or it has read all items and
finds the end or the error of the source; or it has read all items and pulls the source, and what the
source gives is recorded. -/
theorem Follows.pull_cases {log : List (Outcome Item)} (h : r.Follows b buffer)
    (hw : w.buffers[b]? = some buffer) (hb : buffer.Follows s log) {q} (hq : streamStep env E r.stream w = q) :
    (q.2 = w ∧ (r.after q.1).Follows b buffer ∧
      ((∃ x, buffer.items[r.position]? = some x ∧ q.1.1 = .item x) ∨
        (r.position = buffer.items.size ∧ buffer.ending? = some q.1.1))) ∨
    ∃ s' w', r.position = buffer.items.size ∧ buffer = ⟨buffer.items, some s, none⟩ ∧
      E.step s w = ((q.1.1, s'), w') ∧ q.2 = (World.recordPull b q.1.1 s' w').2 ∧
      (r.after q.1).Follows b (buffer.record q.1.1 s') := by
  subst hq
  obtain ⟨hr, hstream⟩ | ⟨o, ho⟩ := h.state
  · rw [hstream]
    cases hx : buffer.items[r.position]? with
    | some x =>
      rw [streamStep_reader_found hw (BufferOf.peek_of_lt hx)]
      exact .inl ⟨rfl, .goesOn hr id (h.seen_next hx), .inl ⟨x, rfl, rfl⟩⟩
    | none =>
      have hp : r.position = buffer.items.size :=
        Nat.le_antisymm h.position_le (Array.getElem?_eq_none_iff.mp hx)
      cases he : buffer.ending? with
      | some o =>
        rw [streamStep_reader_found hw (hp ▸ BufferOf.peek_of_ending he)]
        exact .inl ⟨rfl, h.ends hr hp he _, .inr ⟨hp, rfl⟩⟩
      | none =>
        obtain ⟨hsource, -⟩ := hb.source_eq he
        rcases hs : E.step s w with ⟨⟨o, s'⟩, w'⟩
        have hpeek : buffer.peek r.position = .inr s := by
          rw [hp, hsource]
          exact BufferOf.peek_of_source buffer.items s
        rw [streamStep_reader_source hw hpeek hs]
        exact .inr ⟨s', w', hp, hsource, rfl, rfl, h.pulledSource hr hp hsource o s'⟩
  · obtain ⟨hq, ho'⟩ := ho.pulled env E w
    have hd := delivered_after_ending (BufferOf.isEnding_of_ending? ho.ending) r r.stream
    rw [hq]
    exact .inl ⟨rfl, ⟨hd.symm ▸ h.seen, .inr ⟨o, ho'⟩⟩, .inr ⟨ho.all, ho.ending⟩⟩

end Reader

end

/-! ### The invariant -/

/-- What holds after some turns: the source has made one pass, with the outcomes in the log, and the buffer
is out of its reach; the buffer follows the source, and the readers follow the buffer; and one of the
readers has read all of it. -/
structure Shares (env : Environment) (depth : Nat) (b : BufferId) (ts : List Turn) (source : Stream)
    (start : World) (log : List (Outcome Item)) (buffer : Buffer) (readers : List Reader) (w : World) :
    Prop where
  pass : ∃ moves s w' f, (∀ m ∈ moves, Between b ts m) ∧ Between b ts f ∧
    play (Engine.ofDepth env depth).step moves source start = (log, s, w') ∧ w = f w' ∧
    OutOfReach env b s w ∧ buffer.Follows s log
  held : w.buffers[b]? = some buffer
  follows : ∀ r ∈ readers, r.Follows b buffer
  furthest : buffer.items.size = 0 ∨ ∃ (i : Nat) (r : Reader), readers[i]? = some r ∧
    r.position = buffer.items.size

namespace Shares

variable {env : Environment} {depth : Nat} {b : BufferId} {ts : List Turn} {source : Stream}
  {start w : World} {log : List (Outcome Item)} {buffer : Buffer} {readers : List Reader}

/-- The invariant, when a reader enters. -/
private theorem entered (h : Shares env depth b ts source start log buffer readers w) :
    Shares env depth b ts source start log buffer (readers ++ [⟨.run (.reader b 0), []⟩]) w where
  pass := h.pass
  held := h.held
  follows r hr := by
    obtain hr | hr := List.mem_append.mp hr
    · exact h.follows r hr
    · exact List.mem_singleton.mp hr ▸ .entered b buffer
  furthest := by
    obtain hz | ⟨i, r, hi, hr⟩ := h.furthest
    · exact .inl hz
    · refine .inr ⟨i, r, ?_, hr⟩
      rw [List.getElem?_append_left (List.getElem?_eq_some_iff.mp hi).1]
      exact hi

/-- The invariant, when the world changes and leaves the buffer alone. -/
private theorem changed (h : Shares env depth b ts source start log buffer readers w) {m : World → World}
    (hm : .change m ∈ ts) (hb : LeavesAlone env b m) :
    Shares env depth b ts source start log buffer readers (m w) where
  pass := by
    obtain ⟨moves, s, w', f, hmoves, hf, hplay, rfl, hs, hfollows⟩ := h.pass
    exact ⟨moves, s, w', m ∘ f, hmoves, .change hm hf, hplay, rfl, (hb s _ hs).1, hfollows⟩
  held := by
    obtain ⟨_, s, _, _, _, _, _, _, hs, _⟩ := h.pass
    exact (hb s w hs).2.trans h.held
  follows := h.follows
  furthest := h.furthest

/-- A reader after a report, among the readers. -/
theorem follows_set {r : Reader} {buffer' : Buffer} (hr : r.Follows b buffer') (i : Nat)
    (h : ∀ r ∈ readers, r.Follows b buffer') : ∀ r' ∈ readers.set i r, r'.Follows b buffer' := by
  intro r' hmem
  obtain hmem | rfl := List.mem_or_eq_of_mem_set hmem
  · exact h r' hmem
  · exact hr

/-- The source is pulled once more, by a reader that has read all of the buffer. -/
theorem pulledSource (h : Shares env depth b ts source start log buffer readers w)
    {s s' : Stream} {w' : World} {o : Outcome Item}
    (hpass : ∃ moves w₁ f, (∀ m ∈ moves, Between b ts m) ∧ Between b ts f ∧
      play (Engine.ofDepth env depth).step moves source start = (log, s, w₁) ∧ w = f w₁ ∧
      OutOfReach env b s w)
    (hfollows : buffer.Follows s log) (hsource : buffer = ⟨buffer.items, some s, none⟩)
    (hstep : (Engine.ofDepth env depth).step s w = ((o, s'), w')) {i : Nat} {r : Reader}
    (hi : i < readers.length) (hr : r.Follows b (buffer.record o s'))
    (hall : r.position = (buffer.record o s').items.size) :
    Shares env depth b ts source start (log ++ [o]) (buffer.record o s') (readers.set i r)
      (World.recordPull b o s' w').2 := by
  obtain ⟨moves, w₁, f, hmoves, hf, hplay, rfl, hs⟩ := hpass
  obtain ⟨hs', hkept⟩ := hs.pulled depth hstep
  have he : buffer.ending? = none := by rw [hsource]; rfl
  refine ⟨⟨moves ++ [f], s', w', _, fun m hm => ?_, .recording o s' .nothing, ?_, rfl,
      hs'.recorded o s', ?_⟩, ?_,
    follows_set hr i fun r' hmem => (h.follows r' hmem).recorded he o s',
    .inr ⟨i, r, List.getElem?_set_self hi, hall⟩⟩
  · obtain hm | hm := List.mem_append.mp hm
    · exact hmoves m hm
    · exact List.mem_singleton.mp hm ▸ hf
  · rw [play_append, hplay]
    simp only [play, hstep]
  · rw [hsource] at hfollows ⊢
    exact hfollows.record o
  · have hbuffer : w'.buffers[b]? = some buffer := hkept.trans h.held
    change (w'.buffers.modify b (·.record o s'))[b]? = _
    rw [Array.getElem?_modify, if_pos rfl, hbuffer]
    rfl

/-- The invariant, when a reader is pulled: it finds something, or the pass goes on by one pull. -/
private theorem pulled (h : Shares env depth b ts source start log buffer readers w) {i : Nat} {r : Reader}
    (hi : readers[i]? = some r) {q} (hq : streamStep env (.ofDepth env depth) r.stream w = q) :
    ∃ log' buffer', Shares env depth b ts source start log' buffer' (readers.set i (r.after q.1)) q.2 := by
  obtain ⟨hlt, rfl⟩ := List.getElem?_eq_some_iff.mp hi
  have hr := h.follows _ (List.getElem_mem hlt)
  obtain ⟨moves, s, w', f, hmoves, hf, hplay, hw, hs, hfollows⟩ := h.pass
  obtain ⟨hq₂, hr', -⟩ | ⟨s', w₂, hp, hsource, hstep, hq₂, hr'⟩ := hr.pull_cases h.held hfollows hq
  · -- the source has not been pulled, and whoever has read all of the buffer still has
    rw [hq₂]
    refine ⟨log, buffer, h.pass, h.held, follows_set hr' i h.follows, ?_⟩
    obtain hz | ⟨j, r, hj, hall⟩ := h.furthest
    · exact .inl hz
    · by_cases hij : i = j
      · subst hij
        obtain rfl : readers[i] = r := (List.getElem?_eq_some_iff.mp hj).2
        have hle : readers[i].position ≤ (readers[i].after q.1).position :=
          Reader.position_le_after _ _
        exact .inr ⟨i, _, List.getElem?_set_self hlt, Nat.le_antisymm hr'.position_le (hall ▸ hle)⟩
      · exact .inr ⟨j, r, (List.getElem?_set_ne hij).trans hj, hall⟩
  · -- the source has been pulled, by a reader that has read all of the buffer again
    rw [hq₂]
    have hall : (readers[i].after q.1).position = (buffer.record q.1.1 s').items.size := by
      refine (Reader.position_after _ _ _).trans ?_
      rw [hp]
      cases q.1.1 with
      | item x => exact (Array.size_push x).symm
      | done | suspended | failed | skip => rfl
    exact ⟨_, _, h.pulledSource ⟨moves, w', f, hmoves, hf, hplay, hw, hs⟩ hfollows hsource hstep hlt hr'
      hall⟩

/-- One turn. -/
theorem turned (hm : ∀ m, .change m ∈ ts → LeavesAlone env b m)
    (h : Shares env depth b ts source start log buffer readers w) {t : Turn} (ht : t ∈ ts) :
    let q := t.run env (.ofDepth env depth) b (readers, w)
    ∃ log' buffer', Shares env depth b ts source start log' buffer' q.1 q.2 := by
  cases t with
  | enter => exact ⟨log, buffer, h.entered⟩
  | pull i =>
    simp only [Turn.run]
    split
    · exact ⟨log, buffer, h⟩
    · rename_i r hi
      exact h.pulled hi rfl
  | change m => exact ⟨log, buffer, h.changed ht (hm m ht)⟩

/-- All turns. -/
theorem turned_all (hm : ∀ m, .change m ∈ ts → LeavesAlone env b m) {now : List Turn}
    (hnow : ∀ t ∈ now, t ∈ ts) (h : Shares env depth b ts source start log buffer readers w) :
    let q := Turn.runAll env (.ofDepth env depth) b now (readers, w)
    ∃ log' buffer', Shares env depth b ts source start log' buffer' q.1 q.2 := by
  induction now generalizing log buffer readers w with
  | nil => exact ⟨log, buffer, h⟩
  | cons t now ih =>
    obtain ⟨log', buffer', h'⟩ := h.turned hm (hnow t (.head _))
    exact ih (fun t ht => hnow t (.tail _ ht)) h'

end Shares

/-! ### Shared replay -/

/-- How far the furthest reader has come. -/
def furthest (readers : List Reader) : Nat := (readers.map Reader.position).foldr max 0

/-- No reader is ahead of the furthest one. -/
private theorem position_le_furthest {readers : List Reader} {r : Reader} (h : r ∈ readers) :
    r.position ≤ furthest readers := by
  induction h with
  | head rs => exact Nat.le_max_left _ _
  | tail r' _ ih => exact Nat.le_trans ih (Nat.le_max_right _ _)

/-- A bound for all readers is one for the furthest. -/
private theorem furthest_le {readers : List Reader} {n : Nat} (h : ∀ r ∈ readers, r.position ≤ n) :
    furthest readers ≤ n := by
  induction readers with
  | nil => exact Nat.zero_le n
  | cons r rs ih => exact Nat.max_le.mpr ⟨h r (.head _), ih fun r' hr' => h r' (.tail _ hr')⟩

/-- A reader has shown what the source has given: some of the first items in order, with suspensions and
steps without a report in between; and then, if anything, only the end or the error of the source after
all its items. -/
def Reader.Replays (log : List (Outcome Item)) (r : Reader) : Prop :=
  ∃ before after, r.reports = before ++ after ∧ (∀ o ∈ before, ¬o.IsEnding) ∧
    before.filterMap Outcome.item? <+: producedItems log ∧
    ∀ o ∈ after, o.IsEnding ∧ log.getLast? = some o ∧ before.filterMap Outcome.item? = producedItems log

/-- The next pull of a reader delivers the next item that the source has given, or reports the end or the
error of the source if it has come, and changes nothing else. Only where the source has given no more yet
it is pulled, and what it gives is reported. -/
structure Reader.Proceeds (env : Environment) (E : Engine) (buffer : Buffer) (log : List (Outcome Item))
    (w : World) (r : Reader) : Prop where
  item : ∀ x, (producedItems log)[r.position]? = some x →
    (streamStep env E r.stream w).1.1 = .item x ∧ (streamStep env E r.stream w).2 = w
  ending : r.position = (producedItems log).length → ∀ o, log.getLast? = some o → o.IsEnding →
    (streamStep env E r.stream w).1.1 = o ∧ (streamStep env E r.stream w).2 = w
  source : r.position = (producedItems log).length → (∀ o ∈ log, ¬o.IsEnding) →
    ∃ s, buffer.source = some s ∧ (streamStep env E r.stream w).1.1 = (E.step s w).1.1

section

variable {b : BufferId} {buffer : Buffer} {r : Reader} {s : Stream} {log : List (Outcome Item)}

/-- The end that a buffer has recorded is the last thing that the source has reported. -/
private theorem BufferOf.Follows.getLast?_eq (h : buffer.Follows s log) {o : Outcome Item}
    (ho : buffer.ending? = some o) : log.getLast? = some o := by
  obtain ⟨he, -⟩ | ⟨before, o', he, -, rfl, -⟩ := h.ending_cases
  · cases he.symm.trans ho
  · rw [List.getLast?_concat]
    exact he.symm.trans ho

/-- A reader that follows a buffer shows what the source has given. -/
theorem Reader.Follows.replays (h : r.Follows b buffer) (hb : buffer.Follows s log) : r.Replays log := by
  have hi := hb.producedItems_eq
  obtain ⟨hr, -⟩ | ⟨o, ho⟩ := h.state
  · exact ⟨r.reports, [], (List.append_nil _).symm, hr, hi ▸ h.seen, fun _ h => absurd h List.not_mem_nil⟩
  · obtain ⟨before, after, hreports, hbefore, hafter⟩ := ho.reports
    have hend := BufferOf.isEnding_of_ending? ho.ending
    have hrest : ∀ o' ∈ o :: after, o' = o := List.forall_mem_cons.mpr ⟨rfl, hafter⟩
    have hnone : (o :: after).filterMap Outcome.item? = [] :=
      List.filterMap_eq_nil_iff.mpr fun o' hmem => hrest o' hmem ▸ hend.item?_eq
    have hall : before.filterMap Outcome.item? = producedItems log := by
      have hd : r.delivered = buffer.items.toList := h.seen.eq_of_length ho.all
      rwa [delivered, hreports, List.filterMap_append, hnone, List.append_nil, ← hi] at hd
    refine ⟨before, o :: after, hreports, hbefore, hall ▸ List.prefix_rfl, fun o' hmem => ?_⟩
    rw [hrest o' hmem]
    exact ⟨hend, hb.getLast?_eq ho.ending, hall⟩

/-- What the next pull of a reader does follows from its position, the buffer and the source. -/
private theorem Reader.Follows.proceeds {env : Environment} {E : Engine} {w : World} (h : r.Follows b buffer)
    (hw : w.buffers[b]? = some buffer) (hb : buffer.Follows s log) :
    r.Proceeds env E buffer log w := by
  have hi : producedItems log = buffer.items.toList := hb.producedItems_eq
  have hlen : (producedItems log).length = buffer.items.size := congrArg List.length hi
  have hget : (producedItems log)[r.position]? = buffer.items[r.position]? := by
    rw [hi, Array.getElem?_toList]
  have hsize : buffer.items[buffer.items.size]? = none := Array.getElem?_size
  obtain ⟨hq, -, ⟨x, hx, ho⟩ | ⟨hp, ho⟩⟩ | ⟨s', w', hp, hsource, hstep, -⟩ := h.pull_cases (E := E) hw hb rfl
  · refine ⟨fun x' hx' => ?_, fun hp => ?_, fun hp => ?_⟩
    · obtain rfl : x = x' := Option.some.inj (hx.symm.trans (hget.symm.trans hx'))
      exact ⟨ho, hq⟩
    · rw [hp, hlen, hsize] at hx
      cases hx
    · rw [hp, hlen, hsize] at hx
      cases hx
  · refine ⟨fun x hx => ?_, fun _ o hlast _ => ?_, fun _ hno => ?_⟩
    · rw [hget, hp, hsize] at hx
      cases hx
    · exact ⟨Option.some.inj ((hb.getLast?_eq ho).symm.trans hlast), hq⟩
    · have hmem := List.mem_of_getLast? (hb.getLast?_eq ho)
      exact absurd (BufferOf.isEnding_of_ending? ho) (hno _ hmem)
  · have he : buffer.ending? = none := by rw [hsource]; rfl
    obtain ⟨-, hs, hno⟩ | ⟨before, o, ho, -⟩ := hb.ending_cases
    · refine ⟨fun x hx => ?_, fun _ o hlast ho => ?_, fun _ _ => ⟨s, hs, ?_⟩⟩
      · rw [hget, hp, hsize] at hx
        cases hx
      · exact absurd ho (hno o (List.mem_of_getLast? hlast))
      · rw [hstep]
    · cases he.symm.trans ho

end

/-- **Shared replay.** Let a buffer be made over a source, and let nothing refer to the buffer in advance.
Let any readers enter and be pulled in any order, while the world changes and the buffer is left alone.
Then there is one pass of the source, pulled with nothing in between but these changes and its recording,
such that:

* the source is not pulled after its end or an error;
* the buffer holds the items of the pass, as many as the furthest reader has delivered;
* the size of the buffer is not known as long as the source has not ended, and then it is the number of its
  items;
* every reader has shown the first items of the pass in order, and then, if anything, its end or error after
  all items, and it goes on in the same way. -/
theorem shared_replay (env : Environment) (depth : Nat) {source : Stream} {b : BufferId} {w₀ w₁ : World}
    (hb : World.newBuffer source w₀ = (b, w₁)) (henv : env.registry.Spares (· = b))
    (hw : w₀.Spares (· = b)) (hs : StreamSpares (· = b) source) (ts : List Turn)
    (hm : ∀ m, .change m ∈ ts → LeavesAlone env b m) :
    let E := Engine.ofDepth env depth
    let now := Turn.runAll env E b ts ([], w₁)
    ∃ moves log buffer,
      (∀ m ∈ moves, Between b ts m) ∧ (play E.step moves source w₁).1 = log ∧
      (∀ o ∈ log.dropLast, ¬o.IsEnding) ∧
      now.2.buffers[b]? = some buffer ∧ buffer.items.toList = producedItems log ∧
      buffer.items.size = furthest now.1 ∧
      ((buffer.knownSize = none ∧ ∀ o ∈ log, ¬o.IsEnding) ∨
        (buffer.knownSize = some (producedItems log).length ∧ ∃ o ∈ log, o.IsEnding)) ∧
      ∀ r ∈ now.1, r.Replays log ∧ r.Proceeds env E buffer log now.2 := by
  intro E now
  have hreach := OutOfReach.of_newBuffer hb henv hw hs
  -- at first the source has not been pulled, and there are no readers
  have hstart : Shares env depth b ts source w₁ [] (.start source) [] w₁ := by
    cases hb
    refine ⟨⟨[], source, _, id, fun _ h => absurd h List.not_mem_nil, .nothing, rfl, rfl, hreach,
      .start source⟩, Array.getElem?_push_size, fun _ h => absurd h List.not_mem_nil, .inl rfl⟩
  obtain ⟨log, buffer, h⟩ := hstart.turned_all hm fun t ht => ht
  obtain ⟨moves, s, w', f, hmoves, -, hplay, -, -, hfollows⟩ := h.pass
  have hi := hfollows.producedItems_eq
  refine ⟨moves, log, buffer, hmoves, congrArg Prod.fst hplay, hfollows.ending_is_last, h.held, hi.symm, ?_,
    ?_, fun r hr => ⟨(h.follows r hr).replays hfollows, (h.follows r hr).proceeds h.held hfollows⟩⟩
  · refine Nat.le_antisymm ?_ (furthest_le fun r hr => (h.follows r hr).position_le)
    obtain hz | ⟨i, r, hr, hp⟩ := h.furthest
    · exact hz ▸ Nat.zero_le _
    · exact hp ▸ position_le_furthest (List.mem_of_getElem? hr)
  · obtain ⟨-, hsource, hlog⟩ | ⟨before, o, ho, hsource, rfl, -⟩ := hfollows.ending_cases
    · exact .inl ⟨by simp only [BufferOf.knownSize, hsource], hlog⟩
    · refine .inr ⟨by simp only [BufferOf.knownSize, hsource, hi]; rfl, o, ?_⟩
      exact ⟨List.mem_append_right before (.head _), BufferOf.isEnding_of_ending? ho⟩

/-- Two readers of a value that arrives between their pulls: one has waited for it, and the other gets it
first. -/
def lateTurns : List Turn :=
  [.enter, .pull 0, .enter, .change fun w => { w with arrivals := w.arrivals ++ [("d", .ok [.ofInt 7])] },
    .pull 1, .pull 1, .pull 0, .pull 0]

theorem shared_replay_deferred :
    let now := Turn.runAll ⟨{}, {}⟩ (.ofDepth ⟨{}, {}⟩ 1) 0 lateTurns
      ([], (World.newBuffer (.run (.deferred "d" none)) {}).2)
    now.1.map Reader.delivered = [[.ofInt 7], [.ofInt 7]] ∧
      ∃ log buffer, now.2.buffers[0]? = some buffer ∧ buffer.items.toList = producedItems log ∧
        ∀ r ∈ now.1, r.Replays log := by
  have hb : World.newBuffer (.run (.deferred "d" none)) ({} : World) =
      (0, (World.newBuffer (.run (.deferred "d" none)) ({} : World)).2) := rfl
  have henv : Registry.Spares (· = 0) {} := by rintro _ _ ⟨⟩
  have hw : World.Spares (· = 0) {} :=
    ⟨fun _ _ _ h => by simp at h, by rintro _ _ ⟨⟩, by rintro _ _ ⟨⟩⟩
  have hs : StreamSpares (· = 0) (.run (.deferred "d" none)) := .run (by rintro _ ⟨⟩)
  have hm : ∀ m, .change m ∈ lateTurns → LeavesAlone ⟨{}, {}⟩ 0 m := by
    intro m hmem
    obtain rfl : m = _ := by simpa [lateTurns] using hmem
    exact leavesAlone_arrival _ _ _ fun T => itemsSpare_cons.mpr ⟨Item.spares_atomic _, .nil⟩
  obtain ⟨moves, log, buffer, -, -, -, hheld, hitems, -, -, hreaders⟩ :=
    shared_replay ⟨{}, {}⟩ 1 hb henv hw hs lateTurns hm
  exact ⟨rfl, log, buffer, hheld, hitems, fun r hr => (hreaders r hr).1⟩

end LazyXPath
