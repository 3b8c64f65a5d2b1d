import LazyXPath.Proofs.Production.Conversion

/-!
# Conversion of a list and of a sequence that is pulled

A list is converted in one go by `Item.convertAll`: every item is converted, and then the items are counted. A sequence
that is pulled is converted item by item, and depending on the type it is counted on the way or before anything is
delivered. `convert_agrees_with_convertAll` says that nothing is lost by this: the converted sequence comes to its end
if and only if the list can be converted, and then it delivers the converted list. Otherwise there is an error, after
items that the list has really become (`Item.converted`).
-/

namespace LazyXPath

open scoped List

/-- What items become, up to the first one that cannot be converted. -/
def Item.converted (forest : Forest) (type : SequenceType) : List Item → List Item
  | [] => []
  | x :: xs =>
    match x.convert forest type with
    | .ok ys => ys ++ converted forest type xs
    | .error _ => []

namespace Run

variable {forest : Forest} {type : SequenceType} {r : Run Item} {xs : List Item} {t : Tail}

/-! ### Item by item -/

private theorem items_expand_convert (xs : List Item) (t : Tail) :
    (expand (Item.convert forest type) ⟨xs, t⟩).items = Item.converted forest type xs := by
  induction xs with
  | nil => rfl
  | cons x xs ih =>
    rw [Item.converted]
    cases hx : x.convert forest type with
    | error e => rw [expand_cons_error hx]
    | ok ys => rw [expand_cons_ok hx, prepend, ih]

/-- A run is converted to its end, or up to an item that cannot be converted. -/
theorem tail_expand (f : Item → Except Error (List Item)) (xs : List Item) (t : Tail) :
    (∃ yss, xs.mapM f = .ok yss ∧ expand f ⟨xs, t⟩ = ⟨yss.flatten, t⟩) ∨
      (∃ e, xs.mapM f = .error e) ∧ ∃ e, (expand f ⟨xs, t⟩).tail = .failed e := by
  induction xs with
  | nil => exact .inl ⟨[], rfl, rfl⟩
  | cons x xs ih =>
    rw [List.mapM_cons]
    cases hx : f x with
    | error e => exact .inr ⟨⟨e, rfl⟩, e, by rw [expand_cons_error hx]⟩
    | ok ys =>
      rw [expand_cons_ok hx]
      obtain ⟨yss, hall, hrun⟩ | ⟨⟨e, he⟩, hfails⟩ := ih
      · exact .inl ⟨ys :: yss, by rw [hall]; rfl, by rw [hrun]; rfl⟩
      · exact .inr ⟨⟨e, by rw [he]; rfl⟩, hfails⟩

/-! ### Counting -/

private theorem items_checkCount_prefix (r : Run Item) : (r.checkCount type).items <+: r.items := by
  unfold checkCount
  split
  · exact List.nil_prefix
  · split
    · split
      · exact List.nil_prefix
      · exact List.prefix_rfl
    · split
      · exact List.nil_prefix
      · exact List.prefix_rfl

variable (type) in
/-- Counting does not turn an error into anything else than another error. -/
theorem tail_checkCount_of_fails {P : Error → Prop} (h : r.tail = .fails P) :
    (r.checkCount type).tail = .fails P ∨ ∃ e, (r.checkCount type).tail = .failed e := by
  unfold checkCount
  split
  · exact .inr ⟨_, rfl⟩
  · rw [h]
    dsimp only
    split
    · exact .inl rfl
    · exact .inl h

/-- If at most one item is allowed, then nothing is delivered before an error. -/
theorem items_checkCount_eq_nil (hm : type.occurrence.atMostOne = true) (h : (r.checkCount type).tail ≠ .done) :
    (r.checkCount type).items = [] := by
  revert h
  unfold checkCount
  simp only [hm, Bool.true_and, if_true]
  split
  · exact fun _ => rfl
  · split
    case h_1 hdone =>
      split
      · exact fun _ => rfl
      · exact fun h => absurd hdone h
    case h_2 => exact fun _ => rfl

/-- Both conversions count the converted items. -/
theorem convertAll_of_mapM {yss : List (List Item)} (h : xs.mapM (Item.convert forest type) = .ok yss) :
    Item.convertAll forest type xs = .ok yss.flatten ∨
      ∃ e e', Item.convertAll forest type xs = .error e ∧
        checkCount type (complete yss.flatten) = ⟨[], .failed e'⟩ := by
  simp only [Item.convertAll, h, bind, Except.bind]
  split
  case isTrue hempty =>
    obtain ⟨hnil, hleast⟩ := (Bool.and_eq_true ..).mp hempty
    rw [List.isEmpty_iff.mp hnil]
    exact .inr ⟨_, _, rfl, checkCount_missing hleast⟩
  case isFalse =>
    split
    case isTrue hmany =>
      obtain ⟨hlt, hmost⟩ := (Bool.and_eq_true ..).mp hmany
      exact .inr ⟨_, _, rfl, checkCount_many hmost (of_decide_eq_true hlt)⟩
    case isFalse => exact .inl rfl

/-! ### Both conversions -/

private theorem convert_of_isAnything (h : type.isAnything = true) (r : Run Item) : r.convert forest type = r :=
  if_pos h

private theorem convert_eq_checkCount (h : ¬type.isAnything = true) (r : Run Item) :
    r.convert forest type = (r.expand (Item.convert forest type)).checkCount type :=
  if_neg h

/-- Everything can be converted to a type that allows anything. -/
theorem convertAll_of_isAnything (h : type.isAnything = true) (xs : List Item) :
    Item.convertAll forest type xs = .ok xs := by
  obtain ⟨target, occurrence⟩ := type
  obtain ⟨rfl, rfl⟩ : target = .item ∧ occurrence = .many := by
    simpa [SequenceType.isAnything] using h
  have hmap : xs.mapM (Item.convert forest ⟨.item, .many⟩) = .ok (xs.map fun x => [x]) := List.mapM_pure
  have hflatten : (xs.map fun x => [x]).flatten = xs := by
    rw [← List.flatMap_def, List.flatMap_singleton']
  simp [Item.convertAll, hmap, hflatten, Occurrence.atLeastOne, Occurrence.atMostOne, bind, Except.bind, pure,
    Except.pure]

/-- An input with an error is converted to a run with an error. -/
theorem tail_convert_of_fails {P : Error → Prop} (h : r.tail = .fails P) :
    (r.convert forest type).tail = .fails P ∨ ∃ e, (r.convert forest type).tail = .failed e := by
  obtain ⟨xs, t⟩ := r
  obtain rfl : t = .fails P := h
  by_cases hany : type.isAnything = true
  · rw [convert_of_isAnything hany]
    exact .inl rfl
  rw [convert_eq_checkCount hany]
  obtain ⟨yss, -, hrun⟩ | ⟨-, e, hfails⟩ := tail_expand (Item.convert forest type) xs (.fails P)
  · exact tail_checkCount_of_fails type (by rw [hrun])
  · obtain he | he := tail_checkCount_of_fails type hfails
    · exact .inr ⟨e, he⟩
    · exact .inr he

/-- If a list cannot be converted, then its conversion as a run ends in an error. -/
theorem convert_of_convertAll_error {e : Error} (h : Item.convertAll forest type xs = .error e) :
    (∃ e', ((complete xs).convert forest type).tail = .failed e') ∧
      ((complete xs).convert forest type).items <+: Item.converted forest type xs ∧
      (type.occurrence.atMostOne = true → ((complete xs).convert forest type).items = []) := by
  have hany : ¬type.isAnything = true := fun hany => by
    rw [convertAll_of_isAnything hany] at h
    cases h
  rw [convert_eq_checkCount hany]
  have hfails : ∃ e', (((complete xs).expand (Item.convert forest type)).checkCount type).tail = .failed e' := by
    obtain ⟨yss, hmap, hrun⟩ | ⟨-, e', hfails⟩ := tail_expand (Item.convert forest type) xs .done
    · obtain hok | ⟨-, e', -, hcount⟩ := convertAll_of_mapM hmap
      · cases h.symm.trans hok
      · exact ⟨e', by rw [complete, hrun, ← complete, hcount]⟩
    · obtain he | he := tail_checkCount_of_fails type hfails
      · exact ⟨e', he⟩
      · exact he
  obtain ⟨e', he'⟩ := hfails
  refine ⟨⟨e', he'⟩, ?_, fun hm => items_checkCount_eq_nil hm fun hd => ?_⟩
  · rw [← items_expand_convert xs .done]
    exact items_checkCount_prefix _
  · cases he'.symm.trans hd

end Run

/-- **Conversion item by item agrees with conversion in one go.** Let a sequence deliver a complete list. Then its
conversion comes to the end if and only if the list can be converted, and delivers the converted list. If the list
cannot be converted, then there is an error after some of the items that the list becomes, and before any item if the
type allows at most one. An error of the sequence itself is an error of its conversion. -/
theorem convert_agrees_with_convertAll {env : Environment} {F : Regime (World × Nat)} {ω : F.Situation} {s : Stream}
    (type : SequenceType) :
    (∀ xs, Produces F (streamPull env) ω s (.complete xs) →
      ∃ r, Produces F (streamPull env) ω (s.convert type) r ∧
        (r.tail = .done ↔ ∃ ys, Item.convertAll env.forest type xs = .ok ys) ∧
        (∀ ys, Item.convertAll env.forest type xs = .ok ys → r = .complete ys) ∧
        ∀ e, Item.convertAll env.forest type xs = .error e →
          (∃ e', r.tail = .failed e') ∧ r.items <+: Item.converted env.forest type xs ∧
            (type.occurrence.atMostOne = true → r.items = [])) ∧
      ∀ xs P, Produces F (streamPull env) ω s ⟨xs, .fails P⟩ →
        ∃ r, Produces F (streamPull env) ω (s.convert type) r ∧ (r.tail = .fails P ∨ ∃ e, r.tail = .failed e) := by
  refine ⟨fun xs h => ⟨_, convert_produces type h, ⟨fun hdone => ?_, ?_⟩, fun ys => Run.convert_complete,
    fun e => Run.convert_of_convertAll_error⟩, fun xs P h => ⟨_, convert_produces type h, Run.tail_convert_of_fails rfl⟩⟩
  · cases hall : Item.convertAll env.forest type xs with
    | ok ys => exact ⟨ys, rfl⟩
    | error e =>
      obtain ⟨⟨e', he'⟩, -⟩ := Run.convert_of_convertAll_error hall
      cases hdone.symm.trans he'
  · rintro ⟨ys, hys⟩
    rw [Run.convert_complete hys]
    rfl

/-- Two values that arrive late, converted to types that allow them both or only one of them, and an error. -/
theorem convert_agrees_with_convertAll_deferred :
    let F := regime ⟨{}, {}⟩ [("d", .ok [.atomic (.text .untypedAtomic "7"), .ofInt 8])] 0
    let ω : F.Situation := ⟨fun _ => none, {}, 1⟩
    let s : Stream := .run (.deferred "d" none)
    (∃ r, Produces F (streamPull ⟨{}, {}⟩) ω (s.convert ⟨.integer, .some⟩) r ∧
      r = .complete [.ofInt 7, .ofInt 8]) ∧
    (∃ r, Produces F (streamPull ⟨{}, {}⟩) ω (s.convert ⟨.integer, .optional⟩) r ∧
      (∃ e, r.tail = .failed e) ∧ r.items = []) ∧
    ∃ r, Produces F (streamPull ⟨{}, {}⟩) ω (Stream.convert ⟨.integer, .some⟩ (.failed .unrelatedNodes)) r ∧
      r.tail ≠ .done := by
  intro F ω s
  have hs : Produces F (streamPull ⟨{}, {}⟩) ω s (.complete [.atomic (.text .untypedAtomic "7"), .ofInt 8]) :=
    produces_complete_iff.mpr (deferred_delivers rfl)
  have hfailed : Produces F (streamPull ⟨{}, {}⟩) ω (.failed .unrelatedNodes) ⟨[], .failed .unrelatedNodes⟩ :=
    StreamOf.produces_failed (P := (· = .unrelatedNodes)) rfl ω
  obtain ⟨r, hr, -, hok, -⟩ := (convert_agrees_with_convertAll ⟨.integer, .some⟩).1 _ hs
  obtain ⟨r', hr', -, -, herror⟩ := (convert_agrees_with_convertAll ⟨.integer, .optional⟩).1 _ hs
  obtain ⟨r'', hr'', hfails⟩ := (convert_agrees_with_convertAll ⟨.integer, .some⟩).2 _ _ hfailed
  obtain ⟨htail, -, hnone⟩ := herror _ rfl
  refine ⟨⟨r, hr, hok _ rfl⟩, ⟨r', hr', htail, hnone rfl⟩, r'', hr'', ?_⟩
  obtain h | ⟨e, h⟩ := hfails <;> rw [h] <;> exact nofun

end LazyXPath
