import LazyXPath.Proofs.Account
import LazyXPath.Proofs.Delivery.Conversion
import LazyXPath.Stream.Machine

/-!
# Conformance to declared types

A cast to a type gives a value of this type (`Atomic.ofType_of_cast`). There is one exception: a value
of `xs:dateTimeStamp` is represented as an `xs:dateTime` with an offset.

Conversion to a sequence type rests on casts. Each item that it delivers is of the declared item type,
and when it ends it has delivered as many items as the occurrence indicator allows
(`Stream.convert_mayHold`).
-/

namespace LazyXPath

/-! ### Casts -/

/-- The text type that an item type names has this item type. -/
theorem TextType.itemType_eq {target : ItemType} {t : TextType} (h : ofItemType? target = some t) :
    t.itemType = target := by
  simpa using List.find?_some h

/-- So does the integer type. -/
theorem IntegerType.itemType_eq {target : ItemType} {t : IntegerType} (h : ofItemType? target = some t) :
    t.itemType = target := by
  simpa using List.find?_some h

namespace Atomic

/-- A value of exactly one type; a date and time with an offset is one of `xs:dateTimeStamp`, too. -/
def OfType (v : Atomic) (target : ItemType) : Prop :=
  v.itemType = target ∨ target = .dateTimeStamp ∧ coerce.hasDateTimeOffset v = true

variable {v w : Atomic} {target : ItemType}

/-- An integer that is accepted by a type gets this type. -/
private theorem itemType_of_ofInteger {i : Int} {t : IntegerType} (h : ofInteger i t = .ok w) :
    w.itemType = t.itemType := by
  unfold ofInteger at h
  split at h
  · cases h
    rfl
  · split at h <;> cases h

/-- A text without surrounding white space is read as a value of the type it is read for. -/
private theorem ofType_of_ofCollapsed? {cs : List Char} (h : ofCollapsed? cs target = some w) :
    w.OfType target := by
  unfold ofCollapsed? at h
  split at h
  case h_1 => split at h <;> cases h <;> exact .inl rfl
  case h_6 =>
    -- an `xs:dateTimeStamp` becomes an `xs:dateTime` with an offset
    split at h <;> cases h
    exact .inr ⟨rfl, rfl⟩
  case h_16 =>
    split at h <;> cases h
    exact .inl rfl
  case h_18 => cases h
  all_goals
    obtain ⟨a, -, rfl⟩ := Option.map_eq_some_iff.mp h
    exact .inl rfl

private theorem itemType_of_qnameOfText {fail : Error} {cs : List Char} (h : qnameOfText fail cs = .ok w) :
    w.itemType = .qname := by
  unfold qnameOfText at h
  split at h
  · split at h <;> cases h
    rfl
  · split at h <;> cases h

/-- So is any text. -/
private theorem ofType_of_ofLexical {text : String} (h : ofLexical text target = .ok w) : w.OfType target := by
  unfold ofLexical at h
  dsimp only at h
  split at h
  · rename_i t ht
    split at h <;> cases h
    exact .inl (TextType.itemType_eq ht)
  · rename_i t _ ht
    split at h
    · exact .inl ((itemType_of_ofInteger h).trans (IntegerType.itemType_eq ht))
    · cases h
  · split at h
    · rename_i hq
      exact .inl ((itemType_of_qnameOfText h).trans hq.symm)
    · split at h <;> cases h
      exact ofType_of_ofCollapsed? ‹_›

/-- A value is converted to a numeric type by way of the number that it stands for. -/
theorem toNumeric_cases (h : v.toNumeric target = .ok w) : ∃ n, v.number? = some n ∧
    ((target = .double ∧ w = .double n.toDouble) ∨ (target = .float ∧ w = .float n.toFloat) ∨
      (target = .decimal ∧ ∃ d, n.toDecimal = .ok d ∧ w = .decimal d) ∨
      ∃ t i, IntegerType.ofItemType? target = some t ∧ n.toInteger t = .ok i ∧ ofInteger i t = .ok w) := by
  unfold toNumeric at h
  split at h
  case h_1 => cases h
  case h_2 n hn =>
  refine ⟨n, hn, ?_⟩
  split at h
  case h_1 => exact .inl ⟨rfl, (Except.ok.inj h).symm⟩
  case h_2 => exact .inr (.inl ⟨rfl, (Except.ok.inj h).symm⟩)
  case h_3 =>
    cases hd : n.toDecimal with
    | error e => rw [hd] at h; cases h
    | ok d =>
      rw [hd] at h
      exact .inr (.inr (.inl ⟨rfl, d, rfl, (Except.ok.inj h).symm⟩))
  case h_4 t _ _ _ ht =>
    cases hi : n.toInteger t with
    | error e => rw [hi] at h; cases h
    | ok i =>
      rw [hi] at h
      exact .inr (.inr (.inr ⟨t, i, ht, hi, h⟩))
  case h_5 => cases h

/-- A cast between numbers gives a number of the type. -/
private theorem itemType_of_toNumeric (h : v.toNumeric target = .ok w) : w.itemType = target := by
  obtain ⟨n, -, ⟨rfl, rfl⟩ | ⟨rfl, rfl⟩ | ⟨rfl, d, -, rfl⟩ | ⟨t, i, ht, -, hw⟩⟩ := toNumeric_cases h
  · rfl
  · rfl
  · rfl
  · exact (itemType_of_ofInteger hw).trans (IntegerType.itemType_eq ht)

/-- A recurring date that is taken from a date has the type that was asked for. -/
private theorem itemType_of_recurring? {d : Calendar.Date} {z : Option Calendar.Offset}
    (h : recurring? d z target = some w) : w.itemType = target := by
  unfold recurring? at h
  split at h <;> cases h <;> rfl

/-- A cast by meaning gives a value of the type. -/
private theorem itemType_of_castByMeaning (h : v.castByMeaning target = .ok w) : w.itemType = target := by
  unfold castByMeaning at h
  dsimp only at h
  split at h
  case h_1 =>
    split at h <;> cases h
    rfl
  case h_5 | h_6 =>
    split at h <;> cases h
    exact itemType_of_recurring? ‹_›
  case h_9 | h_10 =>
    split at h <;> cases h
    rfl
  case h_11 => cases h
  all_goals
    cases h
    rfl

/-- The ways in which a cast makes a value of another type. -/
inductive CastRoute (v : Atomic) (target : ItemType) : Atomic → Prop
  | string (ht : target = .string) : CastRoute v target (text .string v.lexical)
  | untyped (ht : target = .untypedAtomic) : CastRoute v target (text .untypedAtomic v.lexical)
  | read {w : Atomic} (hv : v.itemType = .untypedAtomic ∨ v.itemType.isStringLike = true)
      (hw : ofLexical (v.text?.getD "") target = .ok w) : CastRoute v target w
  | number {w : Atomic} (ht : target.isNumeric = true) (hw : v.toNumeric target = .ok w) : CastRoute v target w
  | meaning {w : Atomic} (ht : target.isNumeric = false) (hw : v.castByMeaning target = .ok w) :
      CastRoute v target w

/-- A cast to its own type leaves a value as it is, and a cast to another type takes one of the routes. -/
theorem cast_cases (h : v.cast target = .ok w) :
    (v.itemType = target ∧ v = w) ∨ (v.itemType ≠ target ∧ v.CastRoute target w) := by
  unfold cast at h
  dsimp only at h
  split at h
  case isTrue => cases h
  split at h
  case isTrue => cases h
  split at h
  case isTrue hsame => exact .inl ⟨hsame, Except.ok.inj h⟩
  rename_i hother
  refine .inr ⟨hother, ?_⟩
  split at h
  case isTrue hstring =>
    cases h
    exact .string hstring
  split at h
  case isTrue huntyped =>
    cases h
    exact .untyped huntyped
  split at h
  case isTrue htext => exact .read (by simpa using htext) h
  split at h
  case isTrue => cases h
  split at h
  case isTrue hnumeric => exact .number hnumeric h
  case isFalse hnumeric => exact .meaning (Bool.eq_false_iff.mpr hnumeric) h

/-- **Casts give values of the target type.** -/
theorem ofType_of_cast (h : v.cast target = .ok w) : w.OfType target := by
  obtain ⟨hsame, rfl⟩ | ⟨-, hroute⟩ := cast_cases h
  · exact .inl hsame
  cases hroute with
  | string ht => exact .inl ht.symm
  | untyped ht => exact .inl ht.symm
  | read _ hw => exact ofType_of_ofLexical hw
  | number _ hw => exact .inl (itemType_of_toNumeric hw)
  | meaning _ hw => exact .inl (itemType_of_castByMeaning hw)

end Atomic

/-! ### Items of a declared type -/

namespace ItemType

/-- Every type is a subtype of itself. -/
private theorem isSubtypeOf_refl (t : ItemType) : t.isSubtypeOf t = true := by
  cases t <;> rfl

/-- The type of all items is above every other. -/
private theorem isSubtypeOf_item (t : ItemType) : t.isSubtypeOf .item = true := by
  cases t <;> rfl

/-- The atomic types to which an untyped value is neither cast nor belongs. -/
def LeavesUntyped (t : ItemType) : Prop := t = .duration ∨ t = .notationName

/-- The atomic types to which an untyped value is not cast are two: all the others are instantiable or above
it. -/
private theorem leavesUntyped_of_not_instantiable {t : ItemType} (ha : t.isAtomic = true)
    (hs : untypedAtomic.isSubtypeOf t = false) (hn : t ≠ .numeric) (hi : t.isInstantiable = false) :
    t.LeavesUntyped := by
  unfold LeavesUntyped
  revert ha hs hn hi
  cases t <;> decide

end ItemType

/-- An item whose dynamic type is a subtype of a type. A date and time with an offset counts as a value of
`xs:dateTimeStamp`. -/
def Item.Conforms (f : Forest) (type : ItemType) (x : Item) : Prop :=
  (x.itemType f).isSubtypeOf type = true ∨
    type = .dateTimeStamp ∧ ∃ t z, x = .atomic (.dateTime t (some z))

/-- An item that a conversion to a type may deliver: it conforms, or it is an untyped value and the type
is one of those to which untyped values are not cast. -/
def Item.MayConform (f : Forest) (type : ItemType) (x : Item) : Prop :=
  x.Conforms f type ∨ type.LeavesUntyped ∧ x.itemType f = .untypedAtomic

/-- A value of a type conforms to it. -/
private theorem Atomic.OfType.conforms {f : Forest} {target : ItemType} {w : Atomic} (h : w.OfType target) :
    Item.Conforms f target (.atomic w) := by
  obtain h | ⟨ht, hw⟩ := h
  · refine .inl ?_
    subst h
    exact w.itemType.isSubtypeOf_refl
  · refine .inr ⟨ht, ?_⟩
    unfold Atomic.coerce.hasDateTimeOffset at hw
    split at hw
    · obtain ⟨z, rfl⟩ := Option.isSome_iff_exists.mp hw
      exact ⟨_, z, rfl⟩
    · cases hw

/-- A coerced value is of the target type, unless it is left untyped. -/
theorem Atomic.mayConform_of_coerce {f : Forest} {target : ItemType} {v w : Atomic}
    (ha : target.isAtomic = true) (h : v.coerce target = .ok w) :
    Item.MayConform f target (.atomic w) := by
  unfold coerce at h
  dsimp only at h
  split at h
  · cases h
    exact .inl (.inl ‹_›)
  rename_i hs
  split at h
  · rename_i hstamp
    cases h
    obtain ⟨ht, hw⟩ := Bool.and_eq_true_iff.mp hstamp
    exact .inl (OfType.conforms (.inr ⟨of_decide_eq_true ht, hw⟩))
  split at h
  · rename_i hv
    split at h
    · rename_i ht
      -- an untyped value becomes an `xs:double` where a number is wanted
      obtain hw | ⟨hw, -⟩ := ofType_of_cast h
      · refine .inl (.inl ?_)
        rw [ht, show Item.itemType f (.atomic w) = .double from hw]
        rfl
      · cases hw
    · rename_i hn
      split at h
      · exact .inl (ofType_of_cast h).conforms
      · rename_i hi
        cases h
        rw [hv] at hs
        exact .inr ⟨ItemType.leavesUntyped_of_not_instantiable ha (Bool.eq_false_iff.mpr hs) hn
          (Bool.eq_false_iff.mpr hi), hv⟩
  split at h
  · exact .inl (ofType_of_cast h).conforms
  · cases h

namespace Item

variable {f : Forest} {type : SequenceType} {x : Item} {xs ys : List Item}

/-- The items that a conversion makes of one item may conform to its type. -/
theorem mayConform_of_convert (h : x.convert f type = .ok ys) : ∀ y ∈ ys, y.MayConform f type.item := by
  unfold convert at h
  split at h
  · rename_i hx
    cases h
    intro y hy
    obtain rfl := List.mem_singleton.mp hy
    obtain hi | hs := Bool.or_eq_true_iff.mp hx
    · exact .inl (.inl ((of_decide_eq_true hi : type.item = .item) ▸ ItemType.isSubtypeOf_item _))
    · exact .inl (.inl hs)
  split at h
  · cases h
  rename_i ha
  have ha : type.item.isAtomic = true := by simpa using ha
  cases hv : atomize f x with
  | error e => simp [hv, bind, Except.bind] at h
  | ok vs =>
    cases hw : vs.mapM (·.coerce type.item) with
    | error e => simp [hv, hw, bind, Except.bind] at h
    | ok ws =>
      simp only [hv, hw, bind, Except.bind, pure, Except.pure] at h
      cases h
      intro y hy
      obtain ⟨w, hmem, rfl⟩ := List.mem_map.mp hy
      obtain ⟨v, -, hvw⟩ := exists_of_mem_mapM hw hmem
      exact Atomic.mayConform_of_coerce ha hvw

end Item

/-! ### Numbers of items -/

/-- The numbers of items that an occurrence indicator allows. -/
def Occurrence.Allows : Occurrence → Nat → Prop
  | one, n => n = 1
  | optional, n => n ≤ 1
  | many, _ => True
  | some, n => 1 ≤ n

/-- An occurrence indicator is a lower bound and an upper bound. -/
private theorem Occurrence.allows_iff {o : Occurrence} {n : Nat} :
    o.Allows n ↔ (o.atLeastOne = true → 1 ≤ n) ∧ (o.atMostOne = true → n ≤ 1) := by
  cases o <;> simp [Allows, atLeastOne, atMostOne]
  omega

/-- A complete sequence that a conversion to a sequence type may give. -/
def SequenceType.MayHold (f : Forest) (type : SequenceType) (xs : List Item) : Prop :=
  (∀ x ∈ xs, x.MayConform f type.item) ∧ type.occurrence.Allows xs.length

/-- A sequence that is converted as a whole may be held by the type. -/
private theorem SequenceType.mayHold_of_convertAll {f : Forest} {type : SequenceType} {xs ys : List Item}
    (h : Item.convertAll f type xs = .ok ys) : type.MayHold f ys := by
  cases hmap : xs.mapM (Item.convert f type) with
  | error e => simp [Item.convertAll, hmap, bind, Except.bind] at h
  | ok yss =>
    simp only [Item.convertAll, hmap, bind, Except.bind] at h
    split at h
    · cases h
    rename_i hempty
    split at h
    · cases h
    rename_i hmany
    cases h
    refine ⟨fun y hy => ?_, Occurrence.allows_iff.mpr ⟨fun ho => ?_, fun ho => ?_⟩⟩
    · obtain ⟨ys, hys, hy⟩ := List.mem_flatten.mp hy
      obtain ⟨x, -, hx⟩ := exists_of_mem_mapM hmap hys
      exact Item.mayConform_of_convert hx y hy
    · have hne : yss.flatten ≠ [] := fun hnil => hempty (by simp only [hnil, ho]; rfl)
      exact List.length_pos_iff.mpr hne
    · simpa [ho] using hmany

/-! ### Conversions that are pulled -/

/-- A conversion to a type that has delivered the items `seen`. One that allows at most one item delivers
nothing before it has read all of its input. -/
structure Conversion.Sound (f : Forest) (type : SequenceType) (seen : List Item) (c : Conversion) : Prop where
  type_eq : c.type = type
  conforms : ∀ x ∈ seen ++ c.pending, x.MayConform f type.item
  emitted : c.emitted = true → seen ≠ []
  unchecked : type.occurrence.atMostOne = true → c.checked = false → seen = [] ∧ c.pending.length ≤ 1
  checked : type.occurrence.atMostOne = true → c.checked = true →
    type.occurrence.Allows (seen.length + c.pending.length)

namespace Conversion.Sound

variable {W σ : Type} {f : Forest} {type : SequenceType} {seen : List Item} {c : Conversion}

/-- A conversion starts with nothing delivered and nothing pending. -/
private theorem start (f : Forest) (type : SequenceType) : Sound f type [] { type } where
  type_eq := rfl
  conforms _ h := absurd h List.not_mem_nil
  emitted h := nomatch h
  unchecked _ _ := ⟨rfl, Nat.zero_le 1⟩
  checked _ h := nomatch h

/-- What a step of a conversion leads to. -/
def After (f : Forest) (type : SequenceType) (seen : List Item) (o : Outcome Item) (c : Conversion) : Prop :=
  match o with
  | .item x => Sound f type (seen ++ [x]) c
  | .done => type.MayHold f seen
  | .failed _ => ∀ x ∈ seen, x.MayConform f type.item
  | .suspended _ | .skip => Sound f type seen c

/-- What has been delivered may conform to the item type at any time. -/
private theorem seen_conforms (h : Sound f type seen c) : ∀ x ∈ seen, x.MayConform f type.item :=
  fun x hx => h.conforms x (List.mem_append_left c.pending hx)

/-- A delivery, after which nothing may be missing at the end. -/
theorem delivered (h : Sound f type seen c) (hm : type.occurrence.atMostOne = true → c.checked = true)
    (hl : c.pending = [] → type.occurrence.atLeastOne = true → seen ≠ []) :
    After f type seen c.deliver.1 c.deliver.2 := by
  unfold deliver
  cases hp : c.pending with
  | nil =>
    refine ⟨h.seen_conforms, Occurrence.allows_iff.mpr ⟨fun ho => ?_, fun ho => ?_⟩⟩
    · exact List.length_pos_iff.mpr (hl hp ho)
    · have ha := (Occurrence.allows_iff.mp (h.checked ho (hm ho))).2 ho
      simpa [hp] using ha
  | cons x xs =>
    have hx : seen ++ [x] ++ xs = seen ++ c.pending := by simp [hp]
    refine ⟨h.type_eq, hx ▸ h.conforms, fun _ => by simp, fun ho hc => ?_, fun ho hc => ?_⟩
    · exact absurd (hm ho) (Bool.eq_false_iff.mp hc)
    · have ha := h.checked ho (hm ho)
      rwa [← List.length_append, ← hx, List.length_append] at ha

/-- A conversion that allows at most one item and has to read on has not read all of its input. -/
theorem unchecked_of_not_ready (h : Sound f type seen c) (hr : c.isReady = false)
    (ho : type.occurrence.atMostOne = true) : c.checked = false := by
  simpa [isReady, h.type_eq, ho] using hr

/-- An item is taken up by a conversion that has nothing to deliver. -/
private theorem takenUp (h : Sound f type seen c) (hr : c.isReady = false) (x : Item) :
    After f type seen (c.takeUp f x).1 (c.takeUp f x).2 := by
  unfold takeUp
  split
  · exact h.seen_conforms
  rename_i ys hx
  dsimp only
  split
  · exact h.seen_conforms
  rename_i hmany
  rw [h.type_eq] at hx hmany
  refine ⟨h.type_eq, fun y hy => ?_, h.emitted, fun ho hc => ⟨(h.unchecked ho hc).1, ?_⟩, fun ho hc => ?_⟩
  · rw [← List.append_assoc] at hy
    obtain hy | hy := List.mem_append.mp hy
    · exact h.conforms y hy
    · exact Item.mayConform_of_convert hx y hy
  · simpa [ho] using hmany
  · exact absurd hc (Bool.eq_false_iff.mp (h.unchecked_of_not_ready hr ho))

/-- At the end of its input a conversion has delivered as many items as are allowed, or fails. -/
private theorem finished (h : Sound f type seen c) (hr : c.isReady = false) :
    After f type seen c.finish.1 c.finish.2 := by
  unfold finish
  split
  · exact h.seen_conforms
  rename_i hempty
  rw [h.type_eq] at hempty
  have hl (hp : c.pending = []) (ho : type.occurrence.atLeastOne = true) : seen ≠ [] :=
    h.emitted (by simpa [hp, ho] using hempty)
  have hs : Sound f type seen { c with checked := true } := by
    refine ⟨h.type_eq, h.conforms, h.emitted, fun _ hc => (nomatch hc), fun ho _ => ?_⟩
    obtain ⟨rfl, hle⟩ := h.unchecked ho (h.unchecked_of_not_ready hr ho)
    refine Occurrence.allows_iff.mpr ⟨fun ho' => ?_, fun _ => by simpa using hle⟩
    have hp : c.pending ≠ [] := fun hp => hl hp ho' rfl
    have hlen : 1 ≤ c.pending.length := List.length_pos_iff.mpr hp
    simpa using hlen
  exact hs.delivered (fun _ => rfl) hl

/-- **One step of a conversion.** -/
theorem stepped (h : Sound f type seen c) (s : σ) (pull : Step.Pull W Item σ) :
    Ensures (c.step f s pull) fun r => After f type seen r.1 r.2.1 := by
  unfold step
  split
  · rename_i hr
    have hc (ho : type.occurrence.atMostOne = true) : c.checked = true := by
      simpa [isReady, h.type_eq, ho] using hr
    refine .of_pure (h.delivered hc fun hp ho => ?_)
    -- a type that allows many items is ready only if one of them waits
    cases hm : type.occurrence.atMostOne with
    | true =>
      have ha := (Occurrence.allows_iff.mp (h.checked hm (hc hm))).1 ho
      rw [hp, List.length_nil, Nat.add_zero] at ha
      exact List.length_pos_iff.mp ha
    | false => simp [isReady, h.type_eq, hm, hp] at hr
  · rename_i hr
    have hr : c.isReady = false := Bool.eq_false_iff.mpr hr
    refine .andThen _ ?_
    rintro ⟨o, s'⟩
    cases o with
    | item x => exact .of_pure (h.takenUp hr x)
    | done => exact .of_pure (h.finished hr)
    | suspended | skip => exact .of_pure h
    | failed => exact .of_pure h.seen_conforms

end Conversion.Sound

/-! ### Streams and calls -/

/-- Whatever engine pulls a stream, under whatever uses, its items may conform to a sequence type, and if
the end is reported, their number is allowed. -/
def Stream.MayHold (env : Environment) (type : SequenceType) (s : Stream) : Prop :=
  ∀ (E : Engine) (hint : Cursor → Except Error SizeHint) (us : List ((World → World) × Use)) (w : World),
    let reports := (StreamOf.uses hint (Cursor.step env E) us s w).1
    (∀ x ∈ Report.delivered reports, x.MayConform env.forest type.item) ∧
      (.advanced .done ∈ reports → type.occurrence.Allows (Report.delivered reports).length)

section

variable (env : Environment)

/-- What a conversion to a type has delivered. -/
def conversionAccount (E : Engine) (type : SequenceType) : Account (Cursor.step env E) where
  running seen c := ∃ conversion input, c = .convert conversion input ∧
    conversion.Sound env.forest type seen
  ended seen := type.MayHold env.forest seen
  failed seen := ∀ x ∈ seen, x.MayConform env.forest type.item
  stepped {seen c} hc := by
    obtain ⟨conversion, input, rfl, h⟩ := hc
    refine (h.stepped input (streamStep env E input)).bind ?_
    rintro ⟨o, conversion', input'⟩ hr
    cases o with
    | item | suspended | skip => exact .of_pure ⟨conversion', input', rfl, hr⟩
    | done | failed => exact .of_pure hr

/-- What has been delivered, or is ahead, may conform to the item type. -/
private theorem conversionAccount_holds {E : Engine} {type : SequenceType} {seen : List Item} {s : Stream}
    (h : (conversionAccount env E type).Holds seen s) : ∀ x ∈ seen, x.MayConform env.forest type.item := by
  obtain ⟨ahead, status⟩ := s
  have hx : ∀ x ∈ seen ++ ahead, x.MayConform env.forest type.item := by
    cases status with
    | running c =>
      obtain ⟨conversion, input, -, h⟩ := h
      exact h.seen_conforms
    | done => exact h.1
    | failed => exact h
  exact fun x hmem => hx x (List.mem_append_left ahead hmem)

/-- The stream of a conversion delivers what its type may hold, in any engine and under any uses. -/
theorem Stream.convert_mayHold (type : SequenceType) (s : Stream) : (s.convert type).MayHold env type := by
  intro E hint us w reports
  by_cases ha : type.isAnything = true
  · obtain ⟨hi, ho⟩ : type.item = .item ∧ type.occurrence = .many := by
      simpa [SequenceType.isAnything] using ha
    rw [hi, ho]
    exact ⟨fun x _ => .inl (.inl (ItemType.isSubtypeOf_item _)), fun _ => trivial⟩
  · have hs : (conversionAccount env E type).Holds [] (s.convert type) := by
      rw [Stream.convert, if_neg ha]
      exact ⟨_, s, rfl, .start env.forest type⟩
    exact ⟨conversionAccount_holds env (hs.used_all us rfl), fun hd => (hs.ended_of_mem us rfl hd).2⟩

/-- What a stream of items at hand has delivered. -/
def itemsAccount (E : Engine) (xs : List Item) : Account (Cursor.step env E) where
  running seen c := ∃ rest, c = .items rest ∧ seen ++ rest = xs
  ended seen := seen = xs
  failed seen := seen <+: xs
  stepped {seen c} hc := by
    obtain ⟨rest, rfl, h⟩ := hc
    cases rest with
    | nil => exact .of_pure ((List.append_nil seen).symm.trans h)
    | cons x rest => exact .of_pure ⟨rest, rfl, (List.append_cons seen x rest).symm.trans h⟩

/-- What has been delivered of a list is a part at its front. -/
private theorem itemsAccount_holds {E : Engine} {xs seen : List Item} {s : Stream}
    (h : (itemsAccount env E xs).Holds seen s) : seen <+: xs := by
  obtain ⟨ahead, status⟩ := s
  refine (List.prefix_append seen ahead).trans ?_
  cases status with
  | running c =>
    obtain ⟨rest, -, h⟩ := h
    exact ⟨rest, h⟩
  | done => exact ⟨[], (List.append_nil _).trans h⟩
  | failed => exact h

/-- A stream of items at hand delivers what a type may hold if the items are such a sequence. -/
private theorem Stream.ofList_mayHold {type : SequenceType} {xs : List Item} (h : type.MayHold env.forest xs) :
    (Stream.ofList xs).MayHold env type := by
  intro E hint us w reports
  have hs : (itemsAccount env E xs).Holds [] (Stream.ofList xs) := ⟨xs, rfl, rfl⟩
  refine ⟨fun x hx => h.1 x ?_, fun hd => ?_⟩
  · exact (itemsAccount_holds env (hs.used_all us rfl)).subset hx
  · have he : Report.delivered reports = xs := hs.ended_of_mem us rfl hd
    exact he ▸ h.2

/-- The parameters of a call that is allowed all have types. -/
theorem Signature.exists_param? {signature : Signature} {n i : Nat} (hn : signature.accepts n = true)
    (hi : i < n) : ∃ type, signature.param? i = some type := by
  unfold accepts at hn
  unfold param?
  cases hr : signature.rest with
  | some type =>
    cases hp : signature.params[i]? with
    | some type' => exact ⟨type', rfl⟩
    | none => exact ⟨type, rfl⟩
  | none =>
    rw [hr] at hn
    have hlen : i < signature.params.length := Nat.lt_of_lt_of_eq hi (eq_of_beq hn)
    exact ⟨signature.params[i], by rw [List.getElem?_eq_getElem hlen]; rfl⟩

/-- The arguments of a direct call are streams of conversions to the types of the parameters. -/
private theorem Signature.convertArguments_mayHold {signature : Signature} {arguments : List Stream}
    (ha : signature.accepts arguments.length = true) {i : Nat} {s : Stream}
    (hs : (signature.convertArguments arguments)[i]? = some s) :
    ∃ type, signature.param? i = some type ∧ s.MayHold env type := by
  rw [convertArguments, List.getElem?_mapIdx, Option.map_eq_some_iff] at hs
  obtain ⟨a, hi, rfl⟩ := hs
  obtain ⟨type, ht⟩ := exists_param? ha (List.getElem?_eq_some_iff.mp hi).1
  refine ⟨type, ht, ?_⟩
  simp only [ht]
  exact a.convert_mayHold env type

/-- The arguments of a call by overloads are complete sequences converted to the types of the parameters. -/
private theorem Signature.convertAll_mayHold {signature : Signature} {arguments converted : List (List Item)}
    (h : signature.convertAll env.forest arguments = .ok converted) {i : Nat} {xs : List Item}
    (hi : converted[i]? = some xs) :
    ((signature.param? i).getD .anything).MayHold env.forest xs := by
  obtain ⟨hlt, rfl⟩ := List.getElem?_eq_some_iff.mp hi
  obtain ⟨hlen, hget⟩ := List.forall₂_iff_get.mp (forall₂_of_mapM h)
  have hconv := hget i (hlen ▸ hlt) hlt
  simp only [List.get_eq_getElem, List.getElem_mapIdx] at hconv
  exact SequenceType.mayHold_of_convertAll hconv

end

/-- **Conformance of calls.** Whatever function is called in whatever scope:

* A call with a number of arguments that the function accepts passes on converted arguments. Under all
  uses, the items of each of them may conform to the item type of its parameter, and if its end is
  reported, the number of items is allowed.
* The same holds of the arguments that a function gets when it has been chosen among several.
* It holds of the result of the function and the type that the function declares.

To conform is to have a subtype of the declared type, or to be a date and time with an offset where
`xs:dateTimeStamp` is declared. Only where `xs:duration` or `xs:NOTATION` is declared there may also be
untyped values. -/
theorem call_conforms (env : Environment) (f : Function) (scope : Scope) :
    (∀ (depth : Nat) (arguments : List Stream), f.signature.accepts arguments.length = true →
      let converted := f.signature.convertArguments arguments
      (Engine.ofDepth env (depth + 1)).invoke f scope arguments =
        callFunction env (.ofDepth env depth) f scope converted ∧
      ∀ (i : Nat) (s : Stream), converted[i]? = some s →
        ∃ type, f.signature.param? i = some type ∧ s.MayHold env type) ∧
    (∀ (E : Engine) (d : Dispatch) (arguments converted : List (List Item)),
      d.select env.forest arguments = .ok (f, converted) →
      dispatchStep env.forest E d arguments =
        forwarding (.dispatch d arguments) <$> E.call f d.scope (converted.map .ofList) ∧
      ∀ (i : Nat) (s : Stream), (converted.map Stream.ofList)[i]? = some s →
        s.MayHold env ((f.signature.param? i).getD .anything)) ∧
    ∀ (E : Engine) (arguments : List Stream) (w w' : World) (s : Stream),
      callFunction env E f scope arguments w = (.ok s, w') → s.MayHold env f.signature.returns := by
  refine ⟨fun depth arguments ha => ⟨?_, fun i s hs => ?_⟩,
    fun E d arguments converted hd => ⟨?_, fun i s hs => ?_⟩, fun E arguments w w' s hs => ?_⟩
  · rw [Engine.invoke, if_pos ha]
    rfl
  · exact Signature.convertArguments_mayHold env ha hs
  · simp only [dispatchStep, hd]
    rfl
  · rw [List.getElem?_map, Option.map_eq_some_iff] at hs
    obtain ⟨xs, hi, rfl⟩ := hs
    exact Stream.ofList_mayHold env (Signature.convertAll_mayHold env (Dispatch.of_select hd).2 hi)
  · have hr : (applyFunction env E f scope arguments w).1.map (·.convert f.signature.returns) = .ok s :=
      congrArg Prod.fst hs
    cases ha : (applyFunction env E f scope arguments w).1 with
    | error e => rw [ha] at hr; cases hr
    | ok a =>
      rw [ha] at hr
      cases hr
      exact a.convert_mayHold env f.signature.returns

/-- An untyped value as the argument of a function that wants an integer. -/
theorem call_conforms_integer :
    let f : Function := ⟨0, none, ⟨[⟨.integer, .one⟩], none, .anything⟩, .hosted (.argument 0)⟩
    let s : Stream := .convert ⟨.integer, .one⟩ (.one (.atomic (.text .untypedAtomic "7")))
    f.signature.convertArguments [.one (.atomic (.text .untypedAtomic "7"))] = [s] ∧
      s.MayHold ⟨{}, {}⟩ ⟨.integer, .one⟩ := by
  intro f s
  obtain ⟨-, hs⟩ := (call_conforms ⟨{}, {}⟩ f (.root default)).1 0
    [.one (.atomic (.text .untypedAtomic "7"))] rfl
  obtain ⟨type, ht, hs⟩ := hs 0 s rfl
  obtain rfl : ⟨.integer, .one⟩ = type := Option.some.inj ht
  exact ⟨rfl, hs⟩

/-- An untyped value as the argument of a function that wants a duration: it is passed on as it is. -/
theorem call_passes_untyped :
    let x : Item := .atomic (.text .untypedAtomic "P1Y")
    let f : Function := ⟨0, none, ⟨[⟨.duration, .one⟩], none, .anything⟩, .hosted (.argument 0)⟩
    let s : Stream := .convert ⟨.duration, .one⟩ (.one x)
    let step := Cursor.step ⟨{}, {}⟩ (.ofDepth ⟨{}, {}⟩ 0)
    f.signature.convertArguments [.one x] = [s] ∧
      Report.delivered (StreamOf.uses Cursor.hint step [(id, .advance 5)] s {}).1 = [x] ∧
      ¬x.Conforms {} .duration := by
  refine ⟨rfl, rfl, ?_⟩
  rintro (h | ⟨h, -⟩)
  · cases h
  · cases h

end LazyXPath
