import Std.Data.ExtTreeMap
import ConfinedLisp.Integer

/-!
# Tables

A table is an ordered array whose entries have an integer or a name as key. Entries keep the order in
which their keys arrived. An entry without a key of its own takes the integer after the largest one
so far. Beside its entries a table keeps an index, in which the position of a key is looked up without
going through the entries. `Table.Indexed` says that the index is right; inserting keeps it so.
-/

namespace ConfinedLisp

/-- The key of a table entry. -/
inductive Key where
  | index (n : Int64)
  | name (s : String)
deriving DecidableEq, Repr

namespace Key

/-- The key that a text stands for: the integer of which it is the canonical text, or a name. -/
def ofText (s : String) : Key :=
  match Integer.ofCanonicalText? s with
  | some n => .index n
  | none => .name s

/-- The order in which an index keeps keys: integers come before names. -/
protected def compare : Key → Key → Ordering
  | .index m, .index n => compare m n
  | .index _, .name _ => .lt
  | .name _, .index _ => .gt
  | .name s, .name t => compare s t

instance : Ord Key := ⟨Key.compare⟩

instance : Std.TransOrd Key where
  eq_swap {a b} := by
    cases a with
    | index m =>
      cases b with
      | index n => exact Std.OrientedOrd.eq_swap (α := Int64)
      | name t => rfl
    | name s =>
      cases b with
      | index n => rfl
      | name t => exact Std.OrientedOrd.eq_swap (α := String)
  isLE_trans {a b c} hab hbc := by
    cases a with
    | index m =>
      cases b with
      | index n =>
        cases c with
        | index k => exact Std.TransOrd.isLE_trans (α := Int64) hab hbc
        | name t => rfl
      | name t =>
        cases c with
        | index k => cases hbc
        | name u => rfl
    | name s =>
      cases b with
      | index n => cases hab
      | name t =>
        cases c with
        | index k => cases hbc
        | name u => exact Std.TransOrd.isLE_trans (α := String) hab hbc

instance : Std.LawfulEqOrd Key where
  eq_of_compare {a b} h := by
    cases a with
    | index m =>
      cases b with
      | index n => exact congrArg Key.index (Std.LawfulEqOrd.eq_of_compare (α := Int64) h)
      | name t => cases h
    | name s =>
      cases b with
      | index n => cases h
      | name t => exact congrArg Key.name (Std.LawfulEqOrd.eq_of_compare (α := String) h)

end Key

/-- An ordered table: its entries in order, an index with the position of each key, and the key of the
next entry that brings none. -/
structure Table (α : Type) where
  slots : Array (Key × α)
  positions : Std.ExtTreeMap Key Nat
  next : Int64

namespace Table

variable {α : Type}

/-- The table without entries. -/
def empty : Table α := ⟨#[], ∅, 0⟩

instance : Inhabited (Table α) := ⟨empty⟩

/-- The entries in order. -/
def entries (t : Table α) : List (Key × α) := t.slots.toList

/-- The number of entries. -/
def size (t : Table α) : Nat := t.slots.size

/-- The keys in order. -/
def keys (t : Table α) : List Key := t.entries.map Prod.fst

/-- The values in order. -/
def values (t : Table α) : List α := t.entries.map Prod.snd

/-- The key at a position. -/
def keyAt? (t : Table α) (i : Nat) : Option Key := t.slots[i]?.map Prod.fst

/-- The position of a key, by the index. -/
def position? (t : Table α) (key : Key) : Option Nat := t.positions[key]?

/-- The value of a key: that of the entry at its position. -/
def get? (t : Table α) (key : Key) : Option α :=
  (t.position? key).bind fun i => t.slots[i]?.map Prod.snd

/-- Whether a key is present, by the index alone. -/
def contains (t : Table α) (key : Key) : Bool := t.positions.contains key

/-- The integer after `n`, or `n` itself if it is the greatest. -/
def succIndex (n : Int64) : Int64 := Integer.saturate (n.toInt + 1)

/-- The next free index once `key` is in use. -/
def nextAfter (next : Int64) : Key → Int64
  | .index n => if next ≤ n then succIndex n else next
  | .name _ => next

/-- Gives `key` the value `v`, in place if the key is present. Otherwise the entry comes at the end, and
its position into the index. -/
def insert (t : Table α) (key : Key) (v : α) : Table α :=
  match t.position? key with
  | some i => ⟨t.slots.setIfInBounds i (key, v), t.positions, nextAfter t.next key⟩
  | none => ⟨t.slots.push (key, v), t.positions.insert key t.size, nextAfter t.next key⟩

/-- Adds a value under the next index. -/
def push (t : Table α) (v : α) : Table α := t.insert (.index t.next) v

/-- The table with the given values under consecutive indices from zero. -/
def ofValues (vs : List α) : Table α := vs.foldl push empty

/-- Whether the keys are `i`, `i + 1` and so on, in order. -/
def sequentialFrom (i : Nat) : List Key → Bool
  | [] => true
  | key :: rest => key = .index (Int64.ofNat i) && sequentialFrom (i + 1) rest

/-- Whether the keys are exactly the indices from zero on, in order. -/
def isSequential (t : Table α) : Bool := sequentialFrom 0 t.keys

/-- Adds an entry: a named one keeps its name, any other one takes the next free index. -/
def absorbEntry (t : Table α) : Key × α → Table α
  | (.index _, v) => t.push v
  | (.name s, v) => t.insert (.name s) v

/-- Adds entries in turn, renumbering those with an integer key. -/
def absorb (t : Table α) (entries : List (Key × α)) : Table α := entries.foldl absorbEntry t

/-- All entries of some tables, renumbered in order; a later entry of the same name replaces the value
of the earlier one. -/
def merge (tables : List (Table α)) : Table α :=
  tables.foldl (fun acc t => acc.absorb t.entries) empty

/-- The entries from position `begin` up to position `stop`, renumbered. -/
def slice (t : Table α) (begin stop : Nat) : Table α :=
  empty.absorb ((t.entries.drop begin).take (stop - begin))

/-! ### Reading -/

/-- The key at a position is that of the entry there. -/
theorem keyAt?_eq_getElem?_keys (t : Table α) (i : Nat) : t.keyAt? i = t.keys[i]? := by
  simp [keyAt?, keys, entries]

theorem contains_eq_isSome_position? (t : Table α) (key : Key) :
    t.contains key = (t.position? key).isSome := by
  simp [contains, position?]

/-- The value at a position that is found. -/
theorem get?_of_position? {t : Table α} {key : Key} {i : Nat} (h : t.position? key = some i) :
    t.get? key = t.values[i]? := by
  simp [get?, h, values, entries]

/-- Only an absent key comes into the index, with the position after all others. -/
theorem position?_insert (t : Table α) (key : Key) (v : α) (other : Key) :
    (t.insert key v).position? other =
      if t.position? key = none ∧ key = other then some t.size else t.position? other := by
  cases hfound : t.position? key with
  | some i =>
    rw [insert, hfound]
    simp [position?]
  | none =>
    rw [insert, hfound]
    simp [position?, Std.ExtTreeMap.getElem?_insert]

/-! ### The index -/

/-- The index is right: it has each key with the position where the key stands, and no other key. -/
def Indexed (t : Table α) : Prop := ∀ key i, t.position? key = some i ↔ t.keyAt? i = some key

theorem indexed_empty : (empty : Table α).Indexed := by
  intro key i
  simp [position?, keyAt?, empty]

namespace Indexed

variable {t : Table α} {key : Key} {i : Nat}

theorem position?_eq_some_iff (h : t.Indexed) : t.position? key = some i ↔ t.keys[i]? = some key := by
  rw [h key i, keyAt?_eq_getElem?_keys]

/-- A key has no position exactly when no entry has it. -/
theorem position?_eq_none_iff (h : t.Indexed) : t.position? key = none ↔ key ∉ t.keys := by
  rw [Option.eq_none_iff_forall_ne_some, List.mem_iff_getElem?, not_exists]
  exact forall_congr' fun i => not_congr h.position?_eq_some_iff

theorem contains_iff (h : t.Indexed) : t.contains key = true ↔ key ∈ t.keys := by
  rw [contains_eq_isSome_position?, Option.isSome_iff_ne_none, ne_eq, h.position?_eq_none_iff,
    Decidable.not_not]

/-- No key occurs twice: the index has one position for it. -/
theorem distinct (h : t.Indexed) : t.keys.Nodup := by
  rw [List.nodup_iff_pairwise_ne, List.pairwise_iff_getElem]
  intro i j hi hj hlt hsame
  have hfirst := h.position?_eq_some_iff.2 (List.getElem?_eq_getElem hi)
  have hsecond := h.position?_eq_some_iff.2 (List.getElem?_eq_getElem hj)
  rw [hsame, hsecond] at hfirst
  have := Option.some.inj hfirst
  omega

/-- The value of a key is that of the entry with the key. -/
theorem get?_eq_some_iff (h : t.Indexed) {v : α} : t.get? key = some v ↔ (key, v) ∈ t.entries := by
  have hentry : ∀ i : Nat, t.slots[i]? = t.entries[i]? := fun i => by simp [entries]
  unfold get?
  rw [Option.bind_eq_some_iff]
  constructor
  · rintro ⟨i, hi, hv⟩
    have hkey := (h key i).1 hi
    obtain ⟨slot, hslot, rfl⟩ := Option.map_eq_some_iff.1 hv
    simp only [keyAt?, hslot, Option.map_some, Option.some.injEq] at hkey
    rw [hentry] at hslot
    exact hkey ▸ List.mem_of_getElem? hslot
  · intro hmem
    obtain ⟨i, hi⟩ := List.mem_iff_getElem?.1 hmem
    rw [← hentry] at hi
    refine ⟨i, (h key i).2 ?_, ?_⟩
    · simp [keyAt?, hi]
    · simp [hi]

/-- The keys determine the index. -/
theorem positions_eq {u : Table α} (h : t.Indexed) (hu : u.Indexed) (hkeys : t.keys = u.keys) :
    t.positions = u.positions := by
  apply Std.ExtTreeMap.ext_getElem?
  intro key
  apply Option.ext
  intro i
  have hiff : t.position? key = some i ↔ u.position? key = some i := by
    rw [h.position?_eq_some_iff, hu.position?_eq_some_iff, hkeys]
  exact hiff

/-! ### Inserting -/

/-- A key in use gets its new value where it stands. -/
theorem entries_insert_of_mem (h : t.Indexed) (v : α) (hkey : key ∈ t.keys) :
    (t.insert key v).entries = t.entries.map fun e => if e.1 = key then (key, v) else e := by
  cases hfound : t.position? key with
  | none => exact absurd hkey (h.position?_eq_none_iff.1 hfound)
  | some i =>
    have hset : (t.insert key v).entries = t.entries.set i (key, v) := by
      simp [Table.insert, hfound, entries]
    rw [hset]
    apply List.ext_getElem?
    intro j
    rw [List.getElem?_map, List.getElem?_set]
    cases hj : t.entries[j]? with
    | none =>
      have hle := List.getElem?_eq_none_iff.1 hj
      simp only [Option.map_none, ite_eq_right_iff]
      rintro rfl hentry
      omega
    | some e =>
      have hej : t.position? e.1 = some j := h.position?_eq_some_iff.2 (by simp [keys, hj])
      by_cases hij : i = j
      · subst hij
        have hentry : i < t.entries.length := (List.getElem?_eq_some_iff.1 hj).1
        have hkeyAt : t.keys[i]? = some key := h.position?_eq_some_iff.1 hfound
        have hsame : e.1 = key := by simpa [keys, hj] using hkeyAt
        simp [hentry, hsame]
      · have hother : e.1 ≠ key := by
          rintro rfl
          exact hij (Option.some.inj (hfound.symm.trans hej))
        simp [hij, hother]

/-- A new key stands with its value after all entries. -/
theorem entries_insert_of_notMem (h : t.Indexed) (v : α) (hkey : key ∉ t.keys) :
    (t.insert key v).entries = t.entries ++ [(key, v)] := by
  simp [Table.insert, h.position?_eq_none_iff.2 hkey, entries]

/-- Inserting a present key keeps the keys and their order. -/
theorem keys_insert_of_mem (h : t.Indexed) (v : α) (hkey : key ∈ t.keys) :
    (t.insert key v).keys = t.keys := by
  rw [keys, h.entries_insert_of_mem v hkey, List.map_map]
  apply List.map_congr_left
  intro e he
  by_cases hsame : e.1 = key <;> simp [hsame]

/-- Inserting an absent key adds it after all others. -/
theorem keys_insert_of_notMem (h : t.Indexed) (v : α) (hkey : key ∉ t.keys) :
    (t.insert key v).keys = t.keys ++ [key] := by
  simp [keys, h.entries_insert_of_notMem v hkey]

/-- Inserting keeps the index right. -/
theorem insert (h : t.Indexed) (key : Key) (v : α) : (t.insert key v).Indexed := by
  intro other i
  rw [keyAt?_eq_getElem?_keys, position?_insert]
  by_cases hkey : key ∈ t.keys
  · rw [h.keys_insert_of_mem v hkey, if_neg fun hnew => h.position?_eq_none_iff.1 hnew.1 hkey]
    exact h.position?_eq_some_iff
  · have hsize : t.size = t.keys.length := by simp [size, keys, entries]
    rw [h.keys_insert_of_notMem v hkey, hsize]
    by_cases hsame : key = other
    · subst hsame
      rw [if_pos ⟨h.position?_eq_none_iff.2 hkey, rfl⟩, Option.some.injEq]
      constructor
      · rintro rfl
        simp
      · intro hi
        have hle : t.keys.length ≤ i := by
          apply Nat.le_of_not_lt
          intro hlt
          rw [List.getElem?_append_left hlt] at hi
          exact hkey (List.mem_of_getElem? hi)
        have hlt := (List.getElem?_eq_some_iff.1 hi).1
        simp only [List.length_append, List.length_singleton] at hlt
        omega
    · rw [if_neg fun hnew => hsame hnew.2, h.position?_eq_some_iff, List.getElem?_append]
      split
      · rfl
      · next hle =>
        rw [List.getElem?_eq_none (Nat.le_of_not_lt hle)]
        simp only [reduceCtorEq, false_iff]
        intro hlast
        exact hsame (List.mem_singleton.1 (List.mem_of_getElem? hlast)).symm

theorem mem_entries_insert (h : t.Indexed) {v : α} {e : Key × α} :
    e ∈ (t.insert key v).entries ↔ e = (key, v) ∨ e ∈ t.entries ∧ e.1 ≠ key := by
  by_cases hkey : key ∈ t.keys
  · rw [h.entries_insert_of_mem v hkey, List.mem_map]
    constructor
    · rintro ⟨e', he', rfl⟩
      by_cases hsame : e'.1 = key
      · exact Or.inl (if_pos hsame)
      · rw [if_neg hsame]
        exact Or.inr ⟨he', hsame⟩
    · rintro (rfl | ⟨he, hother⟩)
      · obtain ⟨e, he, rfl⟩ := List.mem_map.1 hkey
        exact ⟨e, he, if_pos rfl⟩
      · exact ⟨e, he, if_neg hother⟩
  · rw [h.entries_insert_of_notMem v hkey, List.mem_append, List.mem_singleton]
    constructor
    · rintro (he | rfl)
      · exact Or.inr ⟨he, fun hsame => hkey (hsame ▸ List.mem_map_of_mem he)⟩
      · exact Or.inl rfl
    · rintro (rfl | ⟨he, -⟩)
      · exact Or.inr rfl
      · exact Or.inl he

/-- An inserted key has its new value. -/
theorem get?_insert_self (h : t.Indexed) (key : Key) (v : α) : (t.insert key v).get? key = some v :=
  (h.insert key v).get?_eq_some_iff.2 (h.mem_entries_insert.2 (Or.inl rfl))

/-- Inserting one key leaves every other key's value as it was. -/
theorem get?_insert_of_ne (h : t.Indexed) {other : Key} (hne : other ≠ key) (v : α) :
    (t.insert key v).get? other = t.get? other := by
  apply Option.ext
  intro w
  rw [(h.insert key v).get?_eq_some_iff, h.get?_eq_some_iff, h.mem_entries_insert]
  simp [hne]

end Indexed

end Table

end ConfinedLisp
