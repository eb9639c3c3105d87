import Mathlib.Data.List.Sigma
import Mathlib.Data.List.Sort
import Mathlib.Data.String.Basic

/-!
# Ordered maps

Rust's `BTreeMap`, the container of the KDF list (entry name to entry), of each
entry's group wraps and of a key chain. A map is its entries in strictly
increasing key order; the order is a field, so a map with a repeated key or out
of order cannot be built, and iteration (`iter`, `values`, `keys`) runs in key
order as in Rust.

* `get?_insert`, `get?_erase`, `get?_mapValues` — lookups after each update;
* `mem_values`, `findSome?_eq_some`, `findSome?_eq_none` — iteration read back
  as lookups;
* `ext` — two maps with the same lookups are equal.
-/

namespace Ensync

/-- `BTreeMap<κ, α>`: its entries in strictly increasing key order. -/
structure BTreeMap (κ : Type) [LinearOrder κ] (α : Type) where
  entries : List ((_ : κ) × α)
  sorted : entries.Pairwise (fun a b => a.1 < b.1)

namespace BTreeMap

variable {κ : Type} [LinearOrder κ] {α β : Type}

/-- Insertion into a key-ordered entry list, replacing an entry with the same key. -/
def insertEntries (k : κ) (v : α) : List ((_ : κ) × α) → List ((_ : κ) × α)
  | [] => [⟨k, v⟩]
  | e :: rest =>
    if k < e.1 then ⟨k, v⟩ :: e :: rest
    else if k = e.1 then ⟨k, v⟩ :: rest
    else e :: insertEntries k v rest

theorem mem_insertEntries {k : κ} {v : α} {a : (_ : κ) × α} :
    ∀ {l : List ((_ : κ) × α)}, a ∈ insertEntries k v l → a = ⟨k, v⟩ ∨ a ∈ l
  | [], h => by simpa [insertEntries] using h
  | e :: rest, h => by
    unfold insertEntries at h
    split_ifs at h
    · simpa using h
    · simp only [List.mem_cons] at h ⊢; tauto
    · simp only [List.mem_cons] at h ⊢
      rcases h with h | h
      · exact .inr (.inl h)
      · rcases mem_insertEntries h with h | h <;> tauto

theorem pairwise_insertEntries (k : κ) (v : α) :
    ∀ {l : List ((_ : κ) × α)}, l.Pairwise (fun a b => a.1 < b.1) →
      (insertEntries k v l).Pairwise (fun a b => a.1 < b.1)
  | [], _ => List.pairwise_singleton _ _
  | e :: rest, h => by
    unfold insertEntries
    rw [List.pairwise_cons] at h
    split_ifs with hlt heq
    · refine List.Pairwise.cons (fun a ha => ?_) (List.Pairwise.cons h.1 h.2)
      rcases List.mem_cons.mp ha with rfl | ha
      · exact hlt
      · exact hlt.trans (h.1 a ha)
    · exact List.Pairwise.cons (fun a ha => heq ▸ h.1 a ha) h.2
    · refine List.Pairwise.cons (fun a ha => ?_) (pairwise_insertEntries k v h.2)
      rcases mem_insertEntries ha with rfl | ha
      · exact lt_of_le_of_ne (not_lt.mp hlt) (Ne.symm heq)
      · exact h.1 a ha

theorem dlookup_cons_entry (k a : κ) (b : α) (l : List ((_ : κ) × α)) :
    (⟨a, b⟩ :: l).dlookup k = if k = a then some b else l.dlookup k := by
  by_cases h : k = a
  · subst h; simp [List.dlookup_cons_eq]
  · simp [List.dlookup_cons_ne (⟨a, b⟩ :: l) ⟨a, b⟩ h, h]

theorem dlookup_insertEntries (k k' : κ) (v : α) :
    ∀ l : List ((_ : κ) × α),
      (insertEntries k v l).dlookup k' = if k' = k then some v else l.dlookup k'
  | [] => dlookup_cons_entry _ _ _ _
  | ⟨a, b⟩ :: rest => by
    have ih := dlookup_insertEntries k k' v rest
    unfold insertEntries
    split_ifs with hlt heq <;>
      simp only [dlookup_cons_entry, ih] <;> by_cases h1 : k' = k <;> by_cases h2 : k' = a <;>
      simp_all

theorem dlookup_map_snd (f : α → β) (k : κ) :
    ∀ l : List ((_ : κ) × α),
      (l.map (fun e => (⟨e.1, f e.2⟩ : (_ : κ) × β))).dlookup k = (l.dlookup k).map f
  | [] => rfl
  | ⟨a, b⟩ :: rest => by
    simp only [List.map_cons, dlookup_cons_entry, dlookup_map_snd f k rest]
    split_ifs <;> rfl

theorem nodupKeys (m : BTreeMap κ α) : m.entries.NodupKeys :=
  List.nodupKeys_iff_pairwise.mpr (m.sorted.imp ne_of_lt)

/-- `BTreeMap::new()`. -/
def empty : BTreeMap κ α := ⟨[], List.Pairwise.nil⟩

/-- `get`: the value stored under `k`. -/
def get? (m : BTreeMap κ α) (k : κ) : Option α := m.entries.dlookup k

/-- `contains_key`. -/
def containsKey (m : BTreeMap κ α) (k : κ) : Bool := (m.get? k).isSome

/-- `insert`, replacing the value stored under `k`. -/
def insert (m : BTreeMap κ α) (k : κ) (v : α) : BTreeMap κ α :=
  ⟨insertEntries k v m.entries, pairwise_insertEntries k v m.sorted⟩

/-- The map without the entry under `k`. -/
def erase (m : BTreeMap κ α) (k : κ) : BTreeMap κ α :=
  ⟨m.entries.kerase k, m.sorted.sublist (List.kerase_sublist k _)⟩

/-- `len`. -/
def len (m : BTreeMap κ α) : Nat := m.entries.length

/-- `is_empty`. -/
def isEmpty (m : BTreeMap κ α) : Bool := m.entries.isEmpty

/-- `keys()`, in key order. -/
def keys (m : BTreeMap κ α) : List κ := m.entries.map (·.1)

/-- `values()`, in key order. -/
def values (m : BTreeMap κ α) : List α := m.entries.map (·.2)

/-- The map with `f` applied to every value, as a `values_mut` loop leaves it. -/
def mapValues (f : α → β) (m : BTreeMap κ α) : BTreeMap κ β :=
  ⟨m.entries.map (fun e => ⟨e.1, f e.2⟩), List.pairwise_map.mpr (m.sorted.imp id)⟩

/-- The first `some` that `f` gives over the entries in key order: a `for (k, v) in
&map` loop that returns on its first hit. -/
def findSome? (f : κ → α → Option β) (m : BTreeMap κ α) : Option β :=
  m.entries.findSome? (fun e => f e.1 e.2)

/-- `iter()`: the entries as pairs, in key order. -/
def toList (m : BTreeMap κ α) : List (κ × α) := m.entries.map fun e => (e.1, e.2)

/-- `collect()` into a map: the pairs inserted in turn, a later pair replacing an earlier one
with the same key. -/
def ofList (l : List (κ × α)) : BTreeMap κ α := l.foldl (fun m p => m.insert p.1 p.2) empty

instance [DecidableEq κ] [DecidableEq α] : DecidableEq (BTreeMap κ α) := fun a b =>
  decidable_of_iff (a.entries = b.entries) <| by
    cases a; cases b; simp

/-! ## Lookups after updates -/

@[simp] theorem get?_empty (k : κ) : (empty : BTreeMap κ α).get? k = none := rfl

@[simp] theorem get?_insert (m : BTreeMap κ α) (k k' : κ) (v : α) :
    (m.insert k v).get? k' = if k' = k then some v else m.get? k' :=
  dlookup_insertEntries k k' v m.entries

theorem get?_insert_self (m : BTreeMap κ α) (k : κ) (v : α) :
    (m.insert k v).get? k = some v := by
  simp

theorem get?_insert_eq_some {m : BTreeMap κ α} {k k' : κ} {v v' : α} :
    (m.insert k v).get? k' = some v' ↔
      k' = k ∧ v = v' ∨ k' ≠ k ∧ m.get? k' = some v' := by
  by_cases h : k' = k <;> simp [h]

@[simp] theorem get?_erase (m : BTreeMap κ α) (k k' : κ) :
    (m.erase k).get? k' = if k' = k then none else m.get? k' := by
  unfold get? erase
  split_ifs with h
  · subst h; exact List.dlookup_kerase _ m.nodupKeys
  · exact List.dlookup_kerase_ne h

@[simp] theorem get?_mapValues (f : α → β) (m : BTreeMap κ α) (k : κ) :
    (m.mapValues f).get? k = (m.get? k).map f :=
  dlookup_map_snd f k m.entries

theorem mapValues_mapValues {γ : Type} (f : α → β) (g : β → γ) (m : BTreeMap κ α) :
    (m.mapValues f).mapValues g = m.mapValues (g ∘ f) := by
  unfold mapValues; simp

theorem containsKey_iff (m : BTreeMap κ α) (k : κ) :
    m.containsKey k = true ↔ ∃ v, m.get? k = some v := Option.isSome_iff_exists

theorem get?_eq_some_iff_mem {m : BTreeMap κ α} {k : κ} {v : α} :
    m.get? k = some v ↔ ⟨k, v⟩ ∈ m.entries :=
  ⟨List.of_mem_dlookup, List.mem_dlookup m.nodupKeys⟩

/-! ## Iteration read back as lookups -/

theorem mem_values {m : BTreeMap κ α} {v : α} : v ∈ m.values ↔ ∃ k, m.get? k = some v := by
  simp only [values, List.mem_map, get?_eq_some_iff_mem]
  exact ⟨fun ⟨e, he, hv⟩ => ⟨e.1, hv ▸ he⟩, fun ⟨k, hk⟩ => ⟨_, hk, rfl⟩⟩

theorem mem_keys {m : BTreeMap κ α} {k : κ} : k ∈ m.keys ↔ ∃ v, m.get? k = some v := by
  simp only [keys, List.mem_map, get?_eq_some_iff_mem]
  exact ⟨fun ⟨e, he, hk⟩ => ⟨e.2, hk ▸ he⟩, fun ⟨v, hv⟩ => ⟨_, hv, rfl⟩⟩

theorem any_values {m : BTreeMap κ α} {p : α → Bool} :
    m.values.any p = true ↔ ∃ k v, m.get? k = some v ∧ p v = true := by
  simp only [List.any_eq_true, mem_values]
  exact ⟨fun ⟨v, ⟨k, hk⟩, hp⟩ => ⟨k, v, hk, hp⟩,
    fun ⟨k, v, hk, hp⟩ => ⟨v, ⟨k, hk⟩, hp⟩⟩

theorem isEmpty_iff {m : BTreeMap κ α} : m.isEmpty = true ↔ ∀ k, m.get? k = none := by
  obtain ⟨entries, sorted⟩ := m
  unfold isEmpty get?
  cases entries with
  | nil => simp
  | cons e rest =>
    simp only [List.isEmpty_cons, Bool.false_eq_true, false_iff, not_forall]
    exact ⟨e.1, by cases e; simp [dlookup_cons_entry]⟩

theorem findSome?_eq_some {f : κ → α → Option β} {m : BTreeMap κ α} {b : β}
    (h : m.findSome? f = some b) : ∃ k v, m.get? k = some v ∧ f k v = some b := by
  obtain ⟨e, he, hf⟩ := List.exists_of_findSome?_eq_some h
  exact ⟨e.1, e.2, get?_eq_some_iff_mem.mpr he, hf⟩

theorem findSome?_eq_none {f : κ → α → Option β} {m : BTreeMap κ α} :
    m.findSome? f = none ↔ ∀ k v, m.get? k = some v → f k v = none := by
  simp only [findSome?, List.findSome?_eq_none_iff, get?_eq_some_iff_mem]
  exact ⟨fun h k v hk => h _ hk, fun h e he => h e.1 e.2 he⟩

/-! ## Extensionality and sizes -/

theorem ext {m m' : BTreeMap κ α} (h : ∀ k, m.get? k = m'.get? k) : m = m' := by
  have hp : m.entries.Perm m'.entries :=
    List.lookup_ext m.nodupKeys m'.nodupKeys fun k v => by
      rw [show m.entries.dlookup k = m'.entries.dlookup k from h k]
  haveI : IsAntisymm ((_ : κ) × α) (fun a b => a.1 < b.1) :=
    ⟨fun _ _ h h' => absurd (h.trans h') (lt_irrefl _)⟩
  cases m; cases m'
  simpa using List.eq_of_perm_of_sorted hp ‹_› ‹_›

theorem get?_foldl_insert :
    ∀ (l : List ((_ : κ) × α)) (acc : BTreeMap κ α) (k : κ), l.NodupKeys →
      ((l.map fun e => (e.1, e.2)).foldl (fun m p => m.insert p.1 p.2) acc).get? k =
        (l.dlookup k).or (acc.get? k)
  | [], _, _, _ => rfl
  | ⟨a, b⟩ :: l, acc, k, h => by
    rw [List.nodupKeys_cons] at h
    simp only [List.map_cons, List.foldl_cons]
    rw [get?_foldl_insert l _ k h.2, get?_insert, dlookup_cons_entry]
    by_cases hk : k = a
    · subst hk; simp [List.dlookup_eq_none.mpr h.1]
    · simp [hk]

/-- Collecting a map's pairs gives the map back. -/
theorem ofList_toList (m : BTreeMap κ α) : ofList m.toList = m :=
  ext fun k => by
    rw [ofList, toList, get?_foldl_insert _ _ _ m.nodupKeys, get?_empty, Option.or_none]; rfl

end BTreeMap

end Ensync
