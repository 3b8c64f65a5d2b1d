import LazyXPath.Proofs.Bounds

/-!
# Known sizes and counted sizes

The number of items of a stream, and whether there are any, is answered from its bounds if they determine
it, and otherwise by pulling. Where the bounds determine it, pulling can give no other number: it gives
the same answer, or an error (`exactSize_agrees`).

An error is possible. Bounds are right for the items before an error too, so they may determine a number
although the stream fails, for instance a conversion of the empty sequence to a type that refuses it
(`exactSize_hides_failure`).
-/

namespace LazyXPath

variable {W α β σ : Type}

theorem SizeHint.Loses.eq_of_exactly {n k : Nat} (h : (SizeHint.exactly n).Loses k (.exactly 0)) :
    k = n := by
  obtain ⟨v, hv, hvn⟩ := h.upper n rfl
  have hl : n ≤ 0 + k := h.lower
  omega

private theorem SizeHint.eq_exactly_of_size? {h : SizeHint} {n : Nat} (hn : h.size? = some n) :
    h = .exactly n := by
  obtain ⟨lower, upper⟩ := h
  unfold size? at hn
  split at hn
  · rename_i hu
    cases hn
    exact congrArg (SizeHint.mk lower) hu
  · cases hn

/-- An exact number comes from bounds that determine it. -/
theorem Stream.bounds_of_exactSize? {s : Stream} {n : Nat} (h : s.exactSize? = .ok (some n)) :
    Cursor.tally.stream.bounds s = .exactly n := by
  cases hb : s.hint with
  | error e =>
    rw [exactSize?, hb] at h
    cases h
  | ok b =>
    rw [exactSize?, hb] at h
    rw [← streamBounds_eq, (s.hint_givenIf.eq_of_ok hb).2]
    exact SizeHint.eq_exactly_of_size? (Except.ok.inj h)

/-! ### Counting -/

/-- What a count of a sequence of `n` items can do when it has counted `k` of them. -/
theorem Tally.count_admits {T : Tally σ} {s : σ} {pull : Step.Pull W α σ}
    (finish : Nat → Except Error β) {n k : Nat} (hp : Ensures pull (T.Admits s))
    (hl : (SizeHint.exactly n).Loses k (T.bounds s)) :
    Ensures (Step.count finish k pull) fun r => match r.1, r.2.2 with
      | .item y, none => finish n = .ok y
      | .skip, some s' | .suspended _, some s' =>
        T.sound s' ∧ (SizeHint.exactly n).Loses r.2.1 (T.bounds s')
      | .failed _, _ => True
      | _, _ => False := by
  refine hp.bind ?_
  rintro ⟨o, s'⟩ h
  cases o with
  | item x => exact .of_pure ⟨h.1, hl.trans h.2⟩
  | suspended | skip => exact .of_pure ⟨h.1, hl.trans h.2⟩
  | failed => exact .of_pure trivial
  | done =>
    obtain rfl := (hl.ending h).eq_of_exactly
    dsimp only
    split
    · exact .of_pure ‹_›
    · exact .of_pure trivial

section

variable (env : Environment) (E : Engine)

/-- A count of a stream of `n` items delivers their number, and nothing else. -/
def countAccount (n : Nat) : Account (Cursor.step env E) where
  running seen c := (∀ x ∈ seen, measured .count n = .ok x) ∧
    (c = .emit [] ∨ ∃ k input, c = .count k input ∧ Cursor.tally.stream.sound input ∧
      (SizeHint.exactly n).Loses k (Cursor.tally.stream.bounds input))
  ended seen := ∀ x ∈ seen, measured .count n = .ok x
  failed seen := ∀ x ∈ seen, measured .count n = .ok x
  stepped {seen c} hc := by
    obtain ⟨hx, rfl | ⟨k, input, rfl, hs, hl⟩⟩ := hc
    · exact .of_pure hx
    · have hp := streamStep_admits env E input ((Stream.truthful_iff input).mpr hs)
      refine (Tally.count_admits (measured .count) hp hl).bind ?_
      rintro ⟨o, k', _ | input'⟩ hr
      · cases o with
        | item y =>
          refine .of_pure ⟨fun x hmem => ?_, .inl rfl⟩
          obtain hmem | hmem := List.mem_append.mp hmem
          · exact hx x hmem
          · exact List.mem_singleton.mp hmem ▸ hr
        | failed => exact .of_pure hx
        | done | suspended | skip => exact hr.elim
      · cases o with
        | suspended | skip => exact .of_pure ⟨hx, .inr ⟨k', input', rfl, hr⟩⟩
        | failed => exact .of_pure hx
        | item | done => exact hr.elim

private theorem countAccount_holds {n : Nat} {seen : List Item} {s : Stream}
    (h : (countAccount env E n).Holds seen s) : ∀ x ∈ seen, measured .count n = .ok x := by
  obtain ⟨ahead, status⟩ := s
  have hx : ∀ x ∈ seen ++ ahead, measured .count n = .ok x := by
    cases status with
    | running c => exact h.1
    | done | failed => exact h
  exact fun x hmem => hx x (List.mem_append_left ahead hmem)

/-! ### Looking ahead -/

/-- The number of items that a look ahead finds in a stream of which `n` items were to come. -/
theorem Tally.cardinality_eq {κ : Type} {T : Tally κ} {step : κ → StateM W (Outcome α × κ)}
    (hT : ∀ c, T.sound c → Ensures (step c) (T.Admits c)) {n : Nat} {u : Use} {seen : List α}
    {s : StreamOf α κ} {w : W} {k : Cardinality} (hs : (account hT (.exactly n)).Holds seen s)
    (hk : (StreamOf.use (fun _ => .ok .unknown) step u s w).1.1 = .counted (.item k)) :
    k = .ofCount (n - seen.length) := by
  rcases hu : StreamOf.use (fun _ => .ok .unknown) step u s w with ⟨⟨r, s'⟩, w'⟩
  rw [hu] at hk
  obtain rfl : r = .counted (.item k) := hk
  have hs' : (account hT (.exactly n)).Holds seen s' := List.append_nil seen ▸ hs.used hu
  have hopen (_ : κ) (h : SizeHint) (hh : Except.ok .unknown = (.ok h : Except Error SizeHint)) :
      h.lower ≤ SizeHint.limit ∧ h.size? = none ∧ h ≠ .clashing := by
    cases hh
    exact ⟨Nat.zero_le _, rfl, by decide⟩
  -- either two items are ahead, or the end has been seen and all items are ahead
  obtain ⟨rfl, hl⟩ | ⟨rfl, hd⟩ := StreamOf.ahead_of_use_item hopen hu
  · have hle := (account_holds hT hs').2 n rfl
    obtain ⟨m, hm⟩ : ∃ m, n - seen.length = m + 2 := ⟨n - seen.length - 2, by omega⟩
    rw [hm]
    rfl
  · obtain ⟨ahead, status⟩ := s'
    obtain rfl : status = .done := hd
    have he : (SizeHint.exactly n).Loses (seen ++ ahead).length (.exactly 0) := hs'
    have hn := he.eq_of_exactly
    rw [List.length_append] at hn
    have hn' : ahead.length = n - seen.length := by omega
    exact congrArg Cardinality.ofCount hn'

/-! ### Agreement -/

/-- **Known sizes and counted sizes agree.** Let the claims of the scripts in a stream be true, and let it
have reached a state by uses in which its bounds determine that `n` items are to come. Then under every
schedule:

* if the items are counted by pulling and a number is delivered, it is the one that is given at once;
* if the number of items still to come is asked for at any later time and is found by looking ahead, it
  is what remains of `n` after the items delivered since. -/
theorem exactSize_agrees {s : Stream} (hs : s.Truthful) (us vs : List ((World → World) × Use)) (w : World)
    (n : Nat) :
    let step := Cursor.step env E
    let now := (StreamOf.uses Cursor.hint step us s w).2
    Stream.exactSize? now.1 = .ok (some n) →
      (∀ x ∈ Report.delivered (StreamOf.uses Cursor.hint step vs (.run (.count 0 now.1)) now.2).1,
        Builtin.countStream now.1 = .ok (.one x)) ∧
      let later := StreamOf.uses (fun _ => .ok .unknown) step vs now.1 now.2
      ∀ (m : World → World) (u : Use) (k : Cardinality),
        (StreamOf.use (fun _ => .ok .unknown) step u later.2.1 (m later.2.2)).1.1 = .counted (.item k) →
          k = .ofCount (n - (Report.delivered later.1).length) := by
  intro step now hn
  have hT := Cursor.step_admits env E
  have hnow : Cursor.tally.stream.sound now.1 :=
    (Tally.bounds_hold hT Cursor.hint ((Stream.truthful_iff s).mp hs) us w).1
  have hb := Stream.bounds_of_exactSize? hn
  refine ⟨fun x hx => ?_, fun m u k hk => ?_⟩
  · have hcount : (countAccount env E n).Holds [] (.run (.count 0 now.1)) :=
      ⟨fun _ h => absurd h List.not_mem_nil, .inr ⟨0, now.1, rfl, hnow, hb ▸ .refl _⟩⟩
    have hx : measured .count n = .ok x := countAccount_holds env E (hcount.used_all vs rfl) x hx
    simp only [Builtin.countStream, hn, bind, Except.bind, hx]
    rfl
  · have hstart := Tally.account_start hT hnow
    rw [hb] at hstart
    exact Tally.cardinality_eq hT (hstart.used_all vs rfl) hk

end

/-- The second of two items at hand. -/
theorem exactSize_agrees_rest :
    let step := Cursor.step ⟨{}, {}⟩ (.ofDepth ⟨{}, {}⟩ 0)
    let now := (StreamOf.uses Cursor.hint step [(id, .advance 0)] (Stream.ofList [.ofInt 7, .ofInt 8]) {}).2
    Stream.exactSize? now.1 = .ok (some 1) ∧ Builtin.countStream now.1 = .ok (.one (.ofInt 1)) := by
  intro step now
  have hs : (Stream.ofList [.ofInt 7, .ofInt 8]).Truthful := trivial
  have hcount := (exactSize_agrees ⟨{}, {}⟩ (.ofDepth ⟨{}, {}⟩ 0) hs [(id, .advance 0)] [(id, .advance 5)]
    {} 1 rfl).1
  exact ⟨rfl, hcount (.ofInt 1) (.head _)⟩

/-- The empty sequence as a sequence of at least one item: its bounds say that there are no items, and
pulling shows an error. -/
theorem exactSize_hides_failure :
    let step := Cursor.step ⟨{}, {}⟩ (.ofDepth ⟨{}, {}⟩ 0)
    let s : Stream := .convert ⟨.item, .some⟩ (.ofList [])
    let e : Error := .typeMismatch ⟨.item, .some⟩ .emptySequence
    s.Truthful ∧ s.exactSize? = .ok (some 0) ∧
      Builtin.countStream s = .ok (.one (.ofInt 0)) ∧
      (StreamOf.uses Cursor.hint step [(id, .advance 5)] (.run (.count 0 s)) {}).1 =
        [.advanced (.failed e)] ∧
      (StreamOf.uses Cursor.hint step [(id, .cardinality 5)] s {}).1 = [.counted (.item .empty)] ∧
      (StreamOf.uses (fun _ => .ok .unknown) step [(id, .cardinality 5)] s {}).1 = [.counted (.failed e)] := by
  exact ⟨⟨trivial, fun _ => trivial⟩, rfl, rfl, rfl, rfl, rfl⟩

end LazyXPath
