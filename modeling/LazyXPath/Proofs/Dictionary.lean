import LazyXPath.Dictionary
import LazyXPath.Proofs.KeyClass
import Mathlib.Data.List.Induction
import Mathlib.Data.Set.Card

/-!
# Laws of dictionaries

A dictionary is made by adding entries one after another. An entry whose key is there already replaces the value, but
the key stays the first one and stays in its place. So the dictionary of a list of entries has the keys that are not
the same as any before them, in order, and the value of a key is that of the last entry for it
(`Dictionary.ofEntries_laws`).

Being the same key is symmetric and transitive, and that is all that these laws need. Only the number of entries is the
number of different keys if no key differs from itself: a floating-point number without a decimal is added every time.
-/

namespace LazyXPath.Dictionary

variable {α : Type}

/-! ### One more entry -/

section

variable {key k : Atomic} {value : α} {entries : List (Atomic × α)} {d : Dictionary α}

/-- The keys stay in their places, and a key that is the same as none of them comes last. -/
theorem map_fst_putInto : (putInto key value entries).map (·.1) =
    entries.map (·.1) ++ if entries.any (·.1.sameKey key) then [] else [key] := by
  induction entries with
  | nil => rfl
  | cons p entries ih =>
    obtain ⟨k, v⟩ := p
    cases hk : k.sameKey key with
    | true => simp [putInto, hk]
    | false =>
      rw [putInto, if_neg (by simp [hk]), List.map_cons, ih, List.any_cons, hk]
      rfl

private theorem keys_put : (d.put key value).keys = d.keys ++ if d.keys.any (·.sameKey key) then [] else [key] := by
  rw [keys, put, map_fst_putInto, keys, List.any_map]
  rfl

private theorem find?_putInto : ((putInto key value entries).find? (·.1.sameKey k)).map (·.2) =
    if key.sameKey k then some value else (entries.find? (·.1.sameKey k)).map (·.2) := by
  induction entries with
  | nil => cases hk : key.sameKey k <;> simp [putInto, hk]
  | cons p entries ih =>
    obtain ⟨j, v⟩ := p
    cases hj : j.sameKey key with
    | true =>
      -- the keys are the same as each other, so both or none are the same as the third one
      have hiff : j.sameKey k = key.sameKey k := by
        rw [Bool.eq_iff_iff]
        exact ⟨Atomic.sameKey_trans (Atomic.sameKey_symm hj), Atomic.sameKey_trans hj⟩
      cases hk : key.sameKey k <;> simp [putInto, hj, hiff, hk]
    | false =>
      rw [putInto, if_neg (by simp [hj]), List.find?_cons, List.find?_cons]
      cases hjk : j.sameKey k with
      | true =>
        have hk : key.sameKey k = false := by
          by_contra hk
          have hsame := Atomic.sameKey_trans hjk (Atomic.sameKey_symm (Bool.of_not_eq_false hk))
          simp [hj] at hsame
        simp [hk]
      | false => exact ih

/-- The value of a key after an entry was added. -/
theorem get?_put : (d.put key value).get? k = if key.sameKey k then some value else d.get? k := find?_putInto

end

/-! ### All entries -/

/-- The keys that are not the same as any before them. -/
def firstOccurrences (keys : List Atomic) : List Atomic :=
  (keys.zipIdx.filter fun p => (keys.take p.2).all fun k => !k.sameKey p.1).map (·.1)

section

variable {key k : Atomic} {ks : List Atomic} {entries : List (Atomic × α)}

private theorem firstOccurrences_concat : firstOccurrences (ks ++ [key]) =
    firstOccurrences ks ++ if ks.any (·.sameKey key) then [] else [key] := by
  have hbefore : ks.zipIdx.filter (fun p => ((ks ++ [key]).take p.2).all fun k => !k.sameKey p.1) =
      ks.zipIdx.filter fun p => (ks.take p.2).all fun k => !k.sameKey p.1 := by
    refine List.filter_congr fun p hp => ?_
    rw [List.take_append_of_le_length (List.snd_lt_of_mem_zipIdx hp).le]
  rw [firstOccurrences, List.zipIdx_append, List.filter_append, hbefore, List.map_append]
  congr 1
  cases h : ks.any (·.sameKey key) <;> simp_all

private theorem ofEntries_concat (p : Atomic × α) : ofEntries (entries ++ [p]) =
    (ofEntries entries).put p.1 p.2 := by
  simp [ofEntries]

/-- The value of a key is that of the last entry for it. -/
theorem get?_ofEntries : (ofEntries entries).get? k = (entries.reverse.find? (·.1.sameKey k)).map (·.2) := by
  induction entries using List.reverseRecOn with
  | nil => rfl
  | append_singleton entries p ih =>
    rw [ofEntries_concat, get?_put, ih, List.reverse_concat, List.find?_cons]
    cases p.1.sameKey k <;> rfl

/-- A key is the same as one of the dictionary if it is the same as one of the entries. -/
theorem any_keys_ofEntries :
    (ofEntries entries).keys.any (·.sameKey k) = (entries.map (·.1)).any (·.sameKey k) := by
  have h : ((ofEntries entries).get? k).isSome = _ := congrArg Option.isSome get?_ofEntries
  rw [get?, Option.isSome_map, Option.isSome_map, List.isSome_find?, List.isSome_find?, List.any_reverse] at h
  rw [keys, List.any_map, List.any_map]
  exact h

private theorem keys_ofEntries : (ofEntries entries).keys = firstOccurrences (entries.map (·.1)) := by
  induction entries using List.reverseRecOn with
  | nil => rfl
  | append_singleton entries p ih =>
    rw [ofEntries_concat, keys_put, any_keys_ofEntries, ih, List.map_append, List.map_singleton,
      firstOccurrences_concat]

/-- No two keys of a dictionary are the same. -/
theorem distinct_keys_ofEntries (entries : List (Atomic × α)) :
    (ofEntries entries).keys.Pairwise fun j k => j.sameKey k = false := by
  induction entries using List.reverseRecOn with
  | nil => exact .nil
  | append_singleton entries p ih =>
    rw [ofEntries_concat, keys_put]
    cases h : (ofEntries entries).keys.any (·.sameKey p.1) with
    | true => simpa using ih
    | false => simpa [List.pairwise_append, ih] using h

private theorem mem_of_mem_firstOccurrences (h : k ∈ firstOccurrences ks) : k ∈ ks := by
  obtain ⟨p, hp, rfl⟩ := List.mem_map.mp h
  exact List.fst_mem_of_mem_zipIdx (List.mem_filter.mp hp).1

end

/-! ### Counting keys -/

/-- All keys that are the same as a given one. -/
def sameKeys (k : Atomic) : Set Atomic := {j | k.sameKey j = true}

section

variable {j k : Atomic} {entries : List (Atomic × α)}

private theorem sameKeys_eq (h : j.sameKey k = true) : sameKeys j = sameKeys k :=
  Set.ext fun _ => ⟨Atomic.sameKey_trans (Atomic.sameKey_symm h), Atomic.sameKey_trans h⟩

/-- A dictionary has keys that are the same as those of the entries, and no others. -/
theorem image_sameKeys_ofEntries (hself : ∀ p ∈ entries, p.1.sameKey p.1 = true) :
    sameKeys '' {k | k ∈ (ofEntries entries).keys} = sameKeys '' {k | k ∈ entries.map (·.1)} := by
  refine subset_antisymm (Set.image_mono fun k hk => ?_) ?_
  · rw [Set.mem_ofPred_eq, keys_ofEntries] at hk
    exact mem_of_mem_firstOccurrences hk
  · rintro _ ⟨k, hk, rfl⟩
    have hany : (entries.map (·.1)).any (·.sameKey k) = true := by
      obtain ⟨p, hp, rfl⟩ := List.mem_map.mp hk
      exact List.any_eq_true.mpr ⟨p.1, hk, hself p hp⟩
    rw [← any_keys_ofEntries] at hany
    obtain ⟨j, hj, hjk⟩ := List.any_eq_true.mp hany
    exact ⟨j, hj, sameKeys_eq hjk⟩

/-- If no key differs from itself, there are as many entries as different keys. -/
theorem size_ofEntries (hself : ∀ p ∈ entries, p.1.sameKey p.1 = true) :
    (ofEntries entries).size = (sameKeys '' {k | k ∈ entries.map (·.1)}).ncard := by
  classical
  have hself' : ∀ k ∈ (ofEntries entries).keys, k.sameKey k = true := by
    intro k hk
    rw [keys_ofEntries] at hk
    obtain ⟨p, hp, rfl⟩ := List.mem_map.mp (mem_of_mem_firstOccurrences hk)
    exact hself p hp
  have hdistinct : ((ofEntries entries).keys.map sameKeys).Nodup := by
    refine List.pairwise_map.mpr ((distinct_keys_ofEntries entries).imp_of_mem fun {j k} _ hk hjk heq => ?_)
    have hmem : k ∈ sameKeys j := heq ▸ hself' k hk
    simp [sameKeys, hjk] at hmem
  have hfinite : sameKeys '' {k | k ∈ (ofEntries entries).keys} =
      (((ofEntries entries).keys.map sameKeys).toFinset : Set (Set Atomic)) := by
    ext
    simp
  rw [← image_sameKeys_ofEntries hself, hfinite, Set.ncard_coe_finset, List.toFinset_card_of_nodup hdistinct,
    List.length_map, keys, List.length_map, size]

end

/-! ### The laws -/

/-- **Dictionaries remember the last value of every key.** Being the same key is symmetric and transitive. The keys of
a dictionary are the first occurrences among those of its entries, no two of them are the same, and the value of a key
is that of the last entry whose key is the same. If every key of the entries is the same as itself, then the dictionary
has as many entries as there are different keys. -/
theorem ofEntries_laws :
    (∀ a b : Atomic, a.sameKey b = true → b.sameKey a = true) ∧
    (∀ a b c : Atomic, a.sameKey b = true → b.sameKey c = true → a.sameKey c = true) ∧
    ∀ (α : Type) (entries : List (Atomic × α)),
      (ofEntries entries).keys.Pairwise (fun j k => j.sameKey k = false) ∧
      (ofEntries entries).keys = firstOccurrences (entries.map (·.1)) ∧
      (∀ k, (ofEntries entries).get? k = (entries.reverse.find? fun p => p.1.sameKey k).map (·.2)) ∧
      ((∀ p ∈ entries, p.1.sameKey p.1 = true) →
        (ofEntries entries).size = (sameKeys '' {k | k ∈ entries.map (·.1)}).ncard) :=
  ⟨fun _ _ => Atomic.sameKey_symm, fun _ _ _ => Atomic.sameKey_trans, fun _ entries =>
    ⟨distinct_keys_ofEntries entries, keys_ofEntries, fun _ => get?_ofEntries, size_ofEntries⟩⟩

/-- Numbers of two types and texts of two types are the same keys, and so are numbers that are not a number. -/
theorem ofEntries_laws_mixed :
    let entries : List (Atomic × Nat) := [(.ofInt 1, 0), (.text .untypedAtomic "a", 1), (.double Binary.nan, 2),
      (.decimal ⟨10, 1, by decide, by decide, false, nofun⟩, 3), (.ofString "a", 4), (.double Binary.nan, 5)]
    (∀ p ∈ entries, p.1.sameKey p.1 = true) ∧
    (ofEntries entries).get? (.ofInt 1) = some 3 ∧
    (sameKeys '' {k | k ∈ entries.map (·.1)}).ncard = 3 := by
  intro entries
  obtain ⟨-, -, h⟩ := ofEntries_laws
  obtain ⟨-, -, hget, hsize⟩ := h Nat entries
  have hself : ∀ p ∈ entries, p.1.sameKey p.1 = true := by decide
  exact ⟨hself, (hget _).trans (by decide), (hsize hself).symm.trans (by decide)⟩

end LazyXPath.Dictionary
