import LazyXPath.Proofs.OperatorTypes
import LazyXPath.Proofs.Sharing
import Mathlib.Data.List.Dedup
import Mathlib.Data.List.Induction
import Mathlib.Data.List.Nodup

/-!
# Transparency of the operator cache

A cache serves **requests**: to resolve an operator for types, or to apply one to values. No request can
tell what was asked before: it is answered as by an empty cache (`operatorCache_transparent`).

What a cache has done is told by its entries. After any requests each key that was asked for and can be
resolved has one entry, with a function for the operator that it is resolved to, and no other key has one;
and all functions that were built are in the entries, each at a place of its own (`OperatorCache.Holds`).
So a function that is handed out is in the entry of its key, and is handed out again for the same key and
for no other.
-/

namespace LazyXPath

/-! ### Resolutions -/

/-- Whether an operator can be resolved. -/
def OperatorKey.resolves (key : OperatorKey) : Bool := key.resolve.isOk

private theorem OperatorKey.resolves_iff {key : OperatorKey} :
    key.resolves = true ↔ ∃ op, key.resolve = .ok op := by
  unfold resolves
  cases key.resolve with
  | ok op => exact ⟨fun _ => ⟨op, rfl⟩, fun _ => rfl⟩
  | error e => exact ⟨nofun, nofun⟩

/-- A function taken for one of another kind, at the same place. -/
def Built.as {α β : Type} (f : Built α) (kind : α → β) : Built β := ⟨f.place, kind f.rule⟩

namespace OperatorCache

variable {c c' : OperatorCache} {key : OperatorKey} {asked : List OperatorKey}

/-- The keys of the entries, in the order in which they came in. -/
def keys (c : OperatorCache) : List OperatorKey := c.entries.map (·.1)

private theorem find?_eq_none_iff : c.find? key = none ↔ key ∉ c.keys := by
  rw [find?, List.lookup_eq_none_iff, keys, List.mem_map]
  simp only [not_exists, not_and]
  exact forall₂_congr fun p _ => bne_iff_ne.trans ne_comm

private theorem mem_entries_of_find? {f : Built Operator} (h : c.find? key = some f) : (key, f) ∈ c.entries := by
  obtain ⟨l₁, l₂, hl, -⟩ := List.lookup_eq_some_iff.mp h
  rw [hl]
  exact List.mem_append_right l₁ (.head l₂)

/-- A resolution finds an entry, or adds one, or fails. -/
theorem resolve_cases (c : OperatorCache) (key : OperatorKey) :
    (∃ f, (key, f) ∈ c.entries ∧ c.resolve key = (.ok f, c)) ∨
    (∃ op, key ∉ c.keys ∧ key.resolve = .ok op ∧ c.resolve key = (.ok ⟨c.built, op⟩, c.insert key op)) ∨
    ∃ e, key ∉ c.keys ∧ key.resolve = .error e ∧ c.resolve key = (.error e, c) := by
  unfold resolve
  cases hf : c.find? key with
  | some f => exact .inl ⟨f, mem_entries_of_find? hf, rfl⟩
  | none =>
    have hk := find?_eq_none_iff.mp hf
    cases hr : key.resolve with
    | ok op => exact .inr (.inl ⟨op, hk, rfl, rfl⟩)
    | error e => exact .inr (.inr ⟨e, hk, rfl, rfl⟩)

/-- The function that is handed out is in the entry of the key. -/
theorem mem_entries_of_resolve {f : Built Operator} (h : c.resolve key = (.ok f, c')) :
    (key, f) ∈ c'.entries := by
  obtain ⟨f, hf, hr⟩ | ⟨op, -, -, hr⟩ | ⟨e, -, -, hr⟩ := c.resolve_cases key
  · cases hr.symm.trans h
    exact hf
  · cases hr.symm.trans h
    exact List.mem_append_right c.entries (.head [])
  · cases hr.symm.trans h

private theorem resolve_of_resolveArithmetic {op : ArithmeticOp} {l r : ItemType} {f : Built ArithmeticRule}
    (h : c.resolveArithmetic op l r = (.ok f, c')) :
    c.resolve (.arithmetic op l r) = (.ok (f.as .arithmetic), c') := by
  unfold resolveArithmetic at h
  split at h <;> cases h
  assumption

private theorem resolve_of_resolveUnary {op : UnaryOp} {t : ItemType} {f : Built UnaryRule}
    (h : c.resolveUnary op t = (.ok f, c')) : c.resolve (.unary op t) = (.ok (f.as .unary), c') := by
  unfold resolveUnary at h
  split at h <;> cases h
  assumption

private theorem resolve_of_resolveComparison {op : ComparisonOp} {l r : ItemType} {f : Built ComparisonRule}
    (h : c.resolveComparison op l r = (.ok f, c')) :
    c.resolve (.comparison op l r) = (.ok (f.as .comparison), c') := by
  unfold resolveComparison at h
  split at h <;> cases h
  assumption

/-- Entries stay where they are. -/
theorem entries_prefix_resolve (c : OperatorCache) (key : OperatorKey) :
    c.entries <+: (c.resolve key).2.entries := by
  obtain ⟨f, -, h⟩ | ⟨op, -, -, h⟩ | ⟨e, -, -, h⟩ := c.resolve_cases key
  · exact ⟨[], by rw [List.append_nil, h]⟩
  · rw [h]
    exact List.prefix_append _ _
  · exact ⟨[], by rw [List.append_nil, h]⟩

private theorem Coherent.empty : empty.Coherent := fun _ hp => absurd hp List.not_mem_nil

private theorem Coherent.insert {op : Operator} (h : c.Coherent) (hk : key.resolve = .ok op) :
    (c.insert key op).Coherent := by
  intro p hp
  obtain hp | hp := List.mem_append.mp hp
  · exact h p hp
  · obtain rfl := List.mem_singleton.mp hp
    exact hk

section

variable (h : c.Coherent)

include h

/-- A resolution leaves a coherent cache behind. -/
theorem Coherent.resolve (key : OperatorKey) : (c.resolve key).2.Coherent := by
  obtain ⟨f, -, hr⟩ | ⟨op, -, hk, hr⟩ | ⟨e, -, -, hr⟩ := c.resolve_cases key
  · rwa [hr]
  · rw [hr]
    exact h.insert hk
  · rwa [hr]

/-- The function that is handed out computes what the key is resolved to. -/
theorem Coherent.rule_resolve (key : OperatorKey) : (c.resolve key).1.map (·.rule) = key.resolve := by
  obtain ⟨f, hf, hr⟩ | ⟨op, -, hk, hr⟩ | ⟨e, -, hk, hr⟩ := c.resolve_cases key
  · rw [hr, h (key, f) hf]
    rfl
  · rw [hr, hk]
    rfl
  · rw [hr, hk]
    rfl

private theorem Coherent.resolveArithmetic_eq (op : ArithmeticOp) (l r : ItemType) :
    (c.resolveArithmetic op l r).map (·.map (·.rule)) id =
      (ArithmeticRule.resolve op l r, (c.resolve (.arithmetic op l r)).2) := by
  have hrule := h.rule_resolve (.arithmetic op l r)
  rw [OperatorKey.resolve] at hrule
  unfold resolveArithmetic
  generalize c.resolve (.arithmetic op l r) = q at hrule ⊢
  generalize ArithmeticRule.resolve op l r = x at hrule ⊢
  rcases q with ⟨_ | ⟨place, rule⟩, c'⟩ <;> cases x <;> cases hrule <;> rfl

private theorem Coherent.resolveUnary_eq (op : UnaryOp) (t : ItemType) :
    (c.resolveUnary op t).map (·.map (·.rule)) id =
      (.ok (UnaryRule.resolve op t), (c.resolve (.unary op t)).2) := by
  have hrule := h.rule_resolve (.unary op t)
  rw [OperatorKey.resolve] at hrule
  unfold resolveUnary
  generalize c.resolve (.unary op t) = q at hrule ⊢
  rcases q with ⟨_ | ⟨place, rule⟩, c'⟩ <;> cases hrule
  rfl

private theorem Coherent.resolveComparison_eq (op : ComparisonOp) (l r : ItemType) :
    (c.resolveComparison op l r).map (·.map (·.rule)) id =
      (ComparisonRule.resolve op l r, (c.resolve (.comparison op l r)).2) := by
  have hrule := h.rule_resolve (.comparison op l r)
  rw [OperatorKey.resolve] at hrule
  unfold resolveComparison
  generalize c.resolve (.comparison op l r) = q at hrule ⊢
  generalize ComparisonRule.resolve op l r = x at hrule ⊢
  rcases q with ⟨_ | ⟨place, rule⟩, c'⟩ <;> cases x <;> cases hrule <;> rfl

omit h in
/-- The result of a function depends on what it computes, and not on its place. -/
private theorem apply_rule {α β : Type} {q : Except Error (Built α) × OperatorCache} {x : Except Error α}
    (hq : q.map (·.map (·.rule)) id = (x, c)) (f : α → Except Error β) :
    (q.1.bind (f ·.rule), q.2) = (x.bind f, c) := by
  obtain ⟨⟨⟩ | g, c'⟩ := q <;> cases hq <;> rfl

/-- An operator is applied as it is resolved without the cache. -/
theorem Coherent.arithmetic_eq (op : ArithmeticOp) (a b : Atomic) : c.arithmetic op a b =
    ((ArithmeticRule.resolve op a.itemType b.itemType).bind (·.apply a b),
      (c.resolve (.arithmetic op a.itemType b.itemType)).2) :=
  apply_rule (h.resolveArithmetic_eq op a.itemType b.itemType) (·.apply a b)

theorem Coherent.unary_eq (op : UnaryOp) (a : Atomic) : c.unary op a =
    ((UnaryRule.resolve op a.itemType).apply a, (c.resolve (.unary op a.itemType)).2) :=
  apply_rule (h.resolveUnary_eq op a.itemType) (·.apply a)

theorem Coherent.compare_eq (op : ComparisonOp) (a b : Atomic) : c.compare op a b =
    ((ComparisonRule.resolve op a.itemType b.itemType).bind (·.apply a b),
      (c.resolve (.comparison op a.itemType b.itemType)).2) :=
  apply_rule (h.resolveComparison_eq op a.itemType b.itemType) (·.apply a b)

end

/-- After requests for keys, each of them that can be resolved has one entry, and no other key has one. The
functions in the entries are those that have been built, and no two are at the same place. -/
structure Holds (c : OperatorCache) (asked : List OperatorKey) : Prop where
  coherent : c.Coherent
  nodup : c.keys.Nodup
  mem_keys_iff : ∀ key, key ∈ c.keys ↔ key ∈ asked ∧ key.resolves = true
  places : c.entries.map (·.2.place) = List.range c.built

theorem Holds.empty : empty.Holds [] where
  coherent := .empty
  nodup := .nil
  mem_keys_iff _ := ⟨fun h => absurd h List.not_mem_nil, fun h => absurd h.1 List.not_mem_nil⟩
  places := rfl

/-- A function that is built for a new key. -/
theorem Holds.insert {op : Operator} (h : c.Holds asked) (hnew : key ∉ c.keys) (hk : key.resolve = .ok op) :
    (c.insert key op).Holds (asked ++ [key]) where
  coherent := h.coherent.insert hk
  nodup := by
    rw [OperatorCache.insert, keys, List.map_append, List.nodup_append]
    refine ⟨h.nodup, List.nodup_singleton _, fun a ha b hb => ?_⟩
    obtain rfl : b = key := by simpa using hb
    exact fun he => hnew (he ▸ ha)
  mem_keys_iff k := by
    have hres : key.resolves = true := OperatorKey.resolves_iff.mpr ⟨op, hk⟩
    have hold := h.mem_keys_iff k
    simp only [OperatorCache.insert, keys, List.map_append, List.map_cons, List.map_nil, List.mem_append,
      List.mem_singleton] at hold ⊢
    rw [hold]
    refine ⟨fun hm => hm.elim (fun hm => ⟨.inl hm.1, hm.2⟩) fun he => ⟨.inr he, he ▸ hres⟩, ?_⟩
    rintro ⟨hm | he, hs⟩
    · exact .inl ⟨hm, hs⟩
    · exact .inr he
  places := by
    rw [OperatorCache.insert, List.range_succ, List.map_append, h.places]
    rfl

/-- One more request. -/
theorem Holds.resolve (h : c.Holds asked) (key : OperatorKey) :
    (c.resolve key).2.Holds (asked ++ [key]) := by
  obtain ⟨f, hf, hr⟩ | ⟨op, hnew, hk, hr⟩ | ⟨e, hnew, hk, hr⟩ := c.resolve_cases key
  -- a key with an entry was asked for before
  · have hmem : key ∈ c.keys := List.mem_map_of_mem hf
    rw [hr]
    refine ⟨h.coherent, h.nodup, fun k => ?_, h.places⟩
    have hkey := (h.mem_keys_iff key).mp hmem
    rw [h.mem_keys_iff, List.mem_append, List.mem_singleton]
    exact ⟨fun hk => ⟨.inl hk.1, hk.2⟩, fun ⟨hk, hs⟩ => ⟨hk.elim id fun he => he ▸ hkey.1, hs⟩⟩
  · rw [hr]
    exact h.insert hnew hk
  · have hres : key.resolves = false := by rw [OperatorKey.resolves, hk]; rfl
    rw [hr]
    refine ⟨h.coherent, h.nodup, fun k => ?_, h.places⟩
    rw [h.mem_keys_iff, List.mem_append, List.mem_singleton]
    refine ⟨fun hm => ⟨.inl hm.1, hm.2⟩, ?_⟩
    rintro ⟨hm | rfl, hs⟩
    · exact ⟨hm, hs⟩
    · rw [hres] at hs
      cases hs

/-- Nothing changes if a key was asked for before, or cannot be resolved. -/
theorem Holds.resolve_snd_eq_self (h : c.Holds asked) (hk : key ∈ asked ∨ key.resolves = false) :
    (c.resolve key).2 = c := by
  obtain ⟨f, -, hr⟩ | ⟨op, hnew, hop, hr⟩ | ⟨e, -, -, hr⟩ := c.resolve_cases key
  · rw [hr]
  · have hres : key.resolves = true := OperatorKey.resolves_iff.mpr ⟨op, hop⟩
    obtain hk | hk := hk
    · exact absurd ((h.mem_keys_iff key).mpr ⟨hk, hres⟩) hnew
    · rw [hres] at hk
      cases hk
  · rw [hr]

/-- The number of entries is the number of different keys that could be resolved. -/
theorem Holds.size_eq (h : c.Holds asked) : c.size = (asked.filter (·.resolves)).dedup.length := by
  have hperm : c.keys.Perm (asked.filter (·.resolves)).dedup := by
    rw [List.perm_ext_iff_of_nodup h.nodup (List.nodup_dedup _)]
    intro key
    rw [h.mem_keys_iff, List.mem_dedup, List.mem_filter]
  rw [← hperm.length_eq, keys, List.length_map, size]

/-- Two functions in the entries are at the same place exactly if they are in the entry of one key. -/
theorem Holds.place_eq_iff (h : c.Holds asked) {k k' : OperatorKey} {f f' : Built Operator}
    (hf : (k, f) ∈ c.entries) (hf' : (k', f') ∈ c.entries) :
    (f.place = f'.place ↔ k = k') ∧ (k = k' → f = f') := by
  have hplaces : (c.entries.map (·.2.place)).Nodup := h.places ▸ List.nodup_range
  have hkey (hk : k = k') : (k, f) = (k', f') := List.inj_on_of_nodup_map h.nodup hf hf' hk
  refine ⟨⟨fun hp => ?_, fun hk => ?_⟩, fun hk => (Prod.mk.inj (hkey hk)).2⟩
  · exact (Prod.mk.inj (List.inj_on_of_nodup_map hplaces hf hf' hp)).1
  · exact congrArg (·.2.place) (hkey hk)

end OperatorCache

/-! ### Requests -/

/-- What a cache is asked for. -/
inductive OperatorRequest where
  | resolveArithmetic (op : ArithmeticOp) (left right : ItemType)
  | resolveUnary (op : UnaryOp) (operand : ItemType)
  | resolveComparison (op : ComparisonOp) (left right : ItemType)
  | arithmetic (op : ArithmeticOp) (a b : Atomic)
  | unary (op : UnaryOp) (a : Atomic)
  | compare (op : ComparisonOp) (a b : Atomic)

/-- What a request is answered with: a function of type `φ` for an operator, or a value. -/
inductive OperatorAnswer (φ : Type) where
  | operator (f : φ)
  | value (v : Atomic)
  | truth (b : Bool)

/-- The answer with another function. -/
def OperatorAnswer.map {φ ψ : Type} (g : φ → ψ) : OperatorAnswer φ → OperatorAnswer ψ
  | operator f => operator (g f)
  | value v => value v
  | truth b => truth b

namespace OperatorRequest

/-- The operator that a request is about, with the types of its operands. -/
def key : OperatorRequest → OperatorKey
  | resolveArithmetic op l r => .arithmetic op l r
  | resolveUnary op t => .unary op t
  | resolveComparison op l r => .comparison op l r
  | arithmetic op a b => .arithmetic op a.itemType b.itemType
  | unary op a => .unary op a.itemType
  | compare op a b => .comparison op a.itemType b.itemType

/-- The answer of a cache, and the cache afterwards. -/
def serve (c : OperatorCache) : OperatorRequest → Except Error (OperatorAnswer (Built Operator)) × OperatorCache
  | resolveArithmetic op l r => (c.resolveArithmetic op l r).map (·.map (.operator <| ·.as .arithmetic)) id
  | resolveUnary op t => (c.resolveUnary op t).map (·.map (.operator <| ·.as .unary)) id
  | resolveComparison op l r => (c.resolveComparison op l r).map (·.map (.operator <| ·.as .comparison)) id
  | arithmetic op a b => (c.arithmetic op a b).map (·.map .value) id
  | unary op a => (c.unary op a).map (·.map .value) id
  | compare op a b => (c.compare op a b).map (·.map .truth) id

/-- The answer without a cache: the operator is resolved, and applied if values are given. -/
def answer : OperatorRequest → Except Error (OperatorAnswer Operator)
  | resolveArithmetic op l r => (ArithmeticRule.resolve op l r).map (.operator <| .arithmetic ·)
  | resolveUnary op t => .ok (.operator (.unary (.resolve op t)))
  | resolveComparison op l r => (ComparisonRule.resolve op l r).map (.operator <| .comparison ·)
  | arithmetic op a b =>
    (ArithmeticRule.resolve op a.itemType b.itemType).bind fun rule => (rule.apply a b).map .value
  | unary op a => ((UnaryRule.resolve op a.itemType).apply a).map .value
  | compare op a b =>
    (ComparisonRule.resolve op a.itemType b.itemType).bind fun rule => (rule.apply a b).map .truth

/-- The answer to a resolution, places apart. -/
private theorem map_rule {α : Type} {c : OperatorCache} {q : Except Error (Built α) × OperatorCache}
    {x : Except Error α} (hq : q.map (·.map (·.rule)) id = (x, c)) (kind : α → Operator) :
    (q.map (·.map (OperatorAnswer.operator <| ·.as kind)) id).map (·.map (·.map (·.rule))) id =
      (x.map (.operator <| kind ·), c) := by
  obtain ⟨⟨⟩ | f, c'⟩ := q <;> cases hq <;> rfl

/-- A value has no place. -/
private theorem map_value {α φ ψ : Type} {x : Except Error α} {f : α → OperatorAnswer φ}
    {g : α → OperatorAnswer ψ} {p : φ → ψ} (h : ∀ v, (f v).map p = g v) :
    (x.map f).map (·.map p) = x.map g := by
  cases x with
  | error e => rfl
  | ok v => exact congrArg Except.ok (h v)

/-- A coherent cache answers as if there were none: places apart, the answers are the same. -/
theorem serve_eq {c : OperatorCache} (h : c.Coherent) (r : OperatorRequest) :
    (r.serve c).map (·.map (·.map (·.rule))) id = (r.answer, (c.resolve r.key).2) := by
  cases r with
  | resolveArithmetic op l r => exact map_rule (h.resolveArithmetic_eq op l r) .arithmetic
  | resolveUnary op t => exact map_rule (h.resolveUnary_eq op t) .unary
  | resolveComparison op l r => exact map_rule (h.resolveComparison_eq op l r) .comparison
  | arithmetic op a b =>
    rw [serve, h.arithmetic_eq, answer]
    cases ArithmeticRule.resolve op a.itemType b.itemType with
    | error e => rfl
    | ok rule => exact Prod.ext (map_value fun _ => rfl) rfl
  | unary op a =>
    rw [serve, h.unary_eq, answer]
    exact Prod.ext (map_value fun _ => rfl) rfl
  | compare op a b =>
    rw [serve, h.compare_eq, answer]
    cases ComparisonRule.resolve op a.itemType b.itemType with
    | error e => rfl
    | ok rule => exact Prod.ext (map_value fun _ => rfl) rfl

private theorem serve_snd {c : OperatorCache} (h : c.Coherent) (r : OperatorRequest) :
    (r.serve c).2 = (c.resolve r.key).2 :=
  congrArg Prod.snd (serve_eq h r)

/-- A function that a cache hands out is in the entry of its key. -/
theorem mem_entries_of_serve {c : OperatorCache} {r : OperatorRequest} {f : Built Operator}
    (hf : (r.serve c).1 = .ok (.operator f)) : (r.key, f) ∈ (r.serve c).2.entries := by
  have hmap {α : Type} {x : Except Error α} {g : α → OperatorAnswer (Built Operator)}
      (hx : x.map g = .ok (.operator f)) : ∃ a, x = .ok a ∧ g a = .operator f := by
    cases x with
    | error e => cases hx
    | ok a => exact ⟨a, rfl, Except.ok.inj hx⟩
  -- nothing but a resolution is answered by a function
  cases r with
  | resolveArithmetic op l r =>
    obtain ⟨f', hf', ⟨⟩⟩ := hmap hf
    exact OperatorCache.mem_entries_of_resolve (OperatorCache.resolve_of_resolveArithmetic (Prod.ext hf' rfl))
  | resolveUnary op t =>
    obtain ⟨f', hf', ⟨⟩⟩ := hmap hf
    exact OperatorCache.mem_entries_of_resolve (OperatorCache.resolve_of_resolveUnary (Prod.ext hf' rfl))
  | resolveComparison op l r =>
    obtain ⟨f', hf', ⟨⟩⟩ := hmap hf
    exact OperatorCache.mem_entries_of_resolve (OperatorCache.resolve_of_resolveComparison (Prod.ext hf' rfl))
  | arithmetic | unary | compare =>
    obtain ⟨v, -, hv⟩ := hmap hf
    cases hv

section

variable {α β : Type} {x : Except Error α}

private theorem map_ne_error {f : α → β} {e : Error} (h : x ≠ .error e) : x.map f ≠ .error e := by
  cases x with
  | ok a => exact nofun
  | error e' => exact fun he => h (congrArg Except.error (Except.error.inj he))

private theorem bind_ne_error {f : α → Except Error β} {e : Error} (h : x ≠ .error e)
    (hf : ∀ a, x = .ok a → f a ≠ .error e) : x.bind f ≠ .error e := by
  cases x with
  | ok a => exact hf a rfl
  | error e' => exact fun he => h (congrArg Except.error (Except.error.inj he))

end

private theorem ne_mismatch_of_meets {α : Type} {ts : List ItemType} {Q : α → Prop} {x : Except Error α}
    (h : Meets (OperatorFailure ts) Q x) : x ≠ .error .operatorEntryMismatch :=
  fun he => (h.of_error he).code_ne (c := .unknown) (by decide) (by decide) rfl

private theorem arithmetic_ne_mismatch (op : ArithmeticOp) (l r : ItemType) :
    ArithmeticRule.resolve op l r ≠ .error .operatorEntryMismatch := by
  unfold ArithmeticRule.resolve
  dsimp only
  split
  · exact nofun
  · split <;> exact nofun

private theorem comparison_ne_mismatch (op : ComparisonOp) (l r : ItemType) :
    ComparisonRule.resolve op l r ≠ .error .operatorEntryMismatch := by
  unfold ComparisonRule.resolve
  split <;> exact nofun

/-- No answer complains about the entries of a cache. -/
theorem answer_ne_mismatch (r : OperatorRequest) : r.answer ≠ .error .operatorEntryMismatch := by
  -- where values are given, it is the types of operators that say which failures there are
  cases r with
  | resolveArithmetic op l r => exact map_ne_error (arithmetic_ne_mismatch op l r)
  | resolveUnary op t => exact nofun
  | resolveComparison op l r => exact map_ne_error (comparison_ne_mismatch op l r)
  | arithmetic op a b =>
    refine bind_ne_error (arithmetic_ne_mismatch op _ _) fun rule hr => map_ne_error ?_
    exact ne_mismatch_of_meets (ArithmeticRule.apply_meets (ArithmeticRule.resolution_of_resolve hr))
  | unary op a => exact map_ne_error (ne_mismatch_of_meets (UnaryRule.apply_meets op a))
  | compare op a b =>
    refine bind_ne_error (comparison_ne_mismatch op _ _) fun rule hr => map_ne_error ?_
    exact ne_mismatch_of_meets (ComparisonRule.apply_meets hr)

end OperatorRequest

namespace OperatorCache

/-- The cache after requests. -/
def after (requests : List OperatorRequest) : OperatorCache :=
  requests.foldl (fun c r => (r.serve c).2) .empty

private theorem after_concat (requests : List OperatorRequest) (r : OperatorRequest) :
    after (requests ++ [r]) = (r.serve (after requests)).2 := by
  simp [after]

/-- The entries after requests are the ones of their keys. -/
theorem after_holds (requests : List OperatorRequest) : (after requests).Holds (requests.map (·.key)) := by
  induction requests using List.reverseRecOn with
  | nil => exact .empty
  | append_singleton requests r ih =>
    rw [after_concat, r.serve_snd ih.coherent, List.map_append]
    exact ih.resolve r.key

private theorem entries_prefix_after (requests later : List OperatorRequest) :
    (after requests).entries <+: (after (requests ++ later)).entries := by
  induction later using List.reverseRecOn with
  | nil => exact ⟨[], by rw [List.append_nil, List.append_nil]⟩
  | append_singleton later r ih =>
    rw [← List.append_assoc, after_concat, r.serve_snd (after_holds _).coherent]
    exact ih.trans (entries_prefix_resolve _ _)

end OperatorCache

/-- **The operator cache is transparent.** Whatever was asked for earlier:

* a request is answered as by an empty cache, and as without a cache, but for the place of a function
  that is handed out; and it is never answered by a complaint about an entry;
* the size of the cache is the number of different keys that could be resolved, and a request changes
  nothing if its key cannot be resolved or was asked for before;
* if a function is handed out, and another one for any later request, the two are at the same place
  exactly if the requests have the same key, and then they are one function. -/
theorem operatorCache_transparent (earlier : List OperatorRequest) (r : OperatorRequest) :
    ((r.serve (.after earlier)).1.map (·.map (·.rule)) = (r.serve .empty).1.map (·.map (·.rule)) ∧
      (r.serve .empty).1.map (·.map (·.rule)) = r.answer ∧
      (r.serve (.after earlier)).1 ≠ .error .operatorEntryMismatch) ∧
    ((OperatorCache.after earlier).size = ((earlier.map (·.key)).filter (·.resolves)).dedup.length ∧
      (r.key.resolves = false ∨ r.key ∈ earlier.map (·.key) →
        (r.serve (.after earlier)).2 = .after earlier)) ∧
    ∀ f, (r.serve (.after earlier)).1 = .ok (.operator f) →
      ∀ (later : List OperatorRequest) (s : OperatorRequest) (g : Built Operator),
        (s.serve (.after (earlier ++ r :: later))).1 = .ok (.operator g) →
          (f.place = g.place ↔ r.key = s.key) ∧ (r.key = s.key → f = g) := by
  have hearlier := OperatorCache.after_holds earlier
  have hrule : _ = r.answer := congrArg Prod.fst (r.serve_eq hearlier.coherent)
  have hempty : _ = r.answer := congrArg Prod.fst (r.serve_eq OperatorCache.Coherent.empty)
  refine ⟨⟨hrule.trans hempty.symm, hempty, fun he => ?_⟩, ⟨hearlier.size_eq, fun h => ?_⟩, ?_⟩
  · refine r.answer_ne_mismatch (hrule.symm.trans ?_)
    simp only [Prod.map_fst, he]
    rfl
  · rw [r.serve_snd hearlier.coherent]
    exact hearlier.resolve_snd_eq_self h.symm
  · intro f hf later s g hg
    -- the cache that the later request leaves behind holds both entries
    have hmem := OperatorRequest.mem_entries_of_serve hf
    have hmem' := OperatorRequest.mem_entries_of_serve hg
    rw [← OperatorCache.after_concat] at hmem hmem'
    have hkept := OperatorCache.entries_prefix_after (earlier ++ [r]) (later ++ [s])
    rw [List.append_assoc, List.singleton_append, ← List.cons_append, ← List.append_assoc] at hkept
    exact (OperatorCache.after_holds _).place_eq_iff (hkept.subset hmem) hmem'

/-- A sum, a sum that cannot be resolved, a negation, and then the first sum again: two functions have been
built, and the first of them is handed out again. -/
theorem operatorCache_transparent_repeated :
    let earlier : List OperatorRequest := [.resolveArithmetic .add .integer .integer,
      .resolveArithmetic .add .boolean .integer, .resolveUnary .minus .integer]
    let r : OperatorRequest := .resolveArithmetic .add .integer .integer
    let f : Built Operator := ⟨0, .arithmetic (.numeric .add .integer)⟩
    (OperatorCache.after earlier).size = 2 ∧ (r.serve (.after earlier)).2 = .after earlier ∧
      (r.serve .empty).1 = .ok (.operator f) ∧
      ∀ g, (r.serve (.after earlier)).1 = .ok (.operator g) → f = g := by
  intro earlier r f
  obtain ⟨-, ⟨hsize, hkept⟩, -⟩ := operatorCache_transparent earlier r
  have hmem : r.key ∈ earlier.map (·.key) := List.mem_cons_self
  have hf : (r.serve .empty).1 = .ok (.operator f) := by rfl
  refine ⟨hsize.trans (by decide +kernel), hkept (.inr hmem), hf, fun g hg => ?_⟩
  exact ((operatorCache_transparent [] r).2.2 f hf earlier.tail r g hg).2 rfl

end LazyXPath
