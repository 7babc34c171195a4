import ConfinedLisp.Proofs.Appending

/-!
# Merging and slicing tables

Merging goes through the entries of some tables in order. An entry with an integer for a key gets the
next number, and one with a name takes the place of an earlier entry of that name. Renumbering entries
that have been renumbered changes nothing. So it does not matter in which groups tables are merged, and
the two parts into which a table is cut make up the whole again.

## Main definitions

- `Table.OutOfReach`: a key whose value no absorbed entry changes.
- `Table.Renumbered`: the integers among the keys count up from zero, in order.

## Main results

- `Table.Sound.absorb_insert`: a value that is replaced later might have been so from the start.
- `Table.Renumbered.absorb_absorbEntry`: one entry more, renumbered before or not.
- `Table.Sound.absorb_renumber`: renumbering twice is renumbering once.
- `Table.merge_merge`, `Table.merge_slices`: merging in groups, and merging the parts of a table.
- `HostFunction.merge_regroups_and_joins_slices`: the same for the functions of the host.
-/

namespace ConfinedLisp

/-- Whether a key is an integer. -/
def Key.isIndex : Key → Bool
  | .index _ => true
  | .name _ => false

namespace Table

variable {α : Type} {t u : Table α} {key other : Key} {v : α}

/-! ### Insertions at two keys -/

/-- Entries that do not have a key are not touched where its value is replaced. -/
theorem map_replace_of_notMem {es : List (Key × α)} (h : key ∉ es.map Prod.fst) :
    (es.map fun e => if e.1 = key then (key, v) else e) = es := by
  refine Eq.trans (List.map_congr_left ?_) (List.map_id' es)
  intro e he
  have hne : e.1 ≠ key := fun hsame => h (hsame ▸ List.mem_map_of_mem he)
  exact if_neg hne

theorem Indexed.mem_keys_insert_self (h : t.Indexed) (key : Key) (v : α) :
    key ∈ (t.insert key v).keys :=
  List.mem_map.2 ⟨(key, v), h.mem_entries_insert.2 (Or.inl rfl), rfl⟩

/-- A key in use does not move the next index. -/
theorem Sound.nextAfter_of_mem (h : t.Sound) (hkey : key ∈ t.keys) : nextAfter t.next key = t.next := by
  rw [← Int64.toInt_inj, toInt_nextAfter h.next_eq, largerIndex_of_mem hkey, h.next_eq]

/-- The second of two values for one key stays. -/
theorem Sound.insert_insert (h : t.Sound) (key : Key) (v w : α) :
    (t.insert key w).insert key v = t.insert key v := by
  have hinserted := h.insert key w
  apply (hinserted.insert key v).ext (h.insert key v)
  rw [hinserted.indexed.entries_insert_of_mem v (h.indexed.mem_keys_insert_self key w)]
  by_cases hkey : key ∈ t.keys
  · rw [h.indexed.entries_insert_of_mem w hkey, h.indexed.entries_insert_of_mem v hkey, List.map_map]
    apply List.map_congr_left
    intro e he
    by_cases hsame : e.1 = key <;> simp [hsame]
  · rw [h.indexed.entries_insert_of_notMem w hkey, h.indexed.entries_insert_of_notMem v hkey,
      List.map_append]
    congr 1
    · exact map_replace_of_notMem hkey
    · simp

/-- A value for a key in use, and one for another key, in either order. -/
theorem Sound.insert_comm (h : t.Sound) (hkey : key ∈ t.keys) (hne : other ≠ key) (v w : α) :
    (t.insert other w).insert key v = (t.insert key v).insert other w := by
  have hkeys : (t.insert key v).keys = t.keys := h.indexed.keys_insert_of_mem v hkey
  have hmem : key ∈ (t.insert other w).keys :=
    (h.indexed.keys_isPrefix_insert other w).subset hkey
  have hfirst := h.insert other w
  have hsecond := h.insert key v
  apply (hfirst.insert key v).ext (hsecond.insert other w)
  rw [hfirst.indexed.entries_insert_of_mem v hmem]
  by_cases hother : other ∈ t.keys
  · rw [h.indexed.entries_insert_of_mem w hother,
      hsecond.indexed.entries_insert_of_mem w (hkeys ▸ hother),
      h.indexed.entries_insert_of_mem v hkey, List.map_map, List.map_map]
    apply List.map_congr_left
    intro e he
    by_cases hsame : e.1 = key
    · simp [hsame, hne.symm]
    · by_cases hsame' : e.1 = other
      · simp [hsame', hne]
      · simp [hsame, hsame']
  · rw [h.indexed.entries_insert_of_notMem w hother,
      hsecond.indexed.entries_insert_of_notMem w (hkeys ▸ hother),
      h.indexed.entries_insert_of_mem v hkey, List.map_append]
    simp [hne]

/-- The entries before and after that of a key in use, and the ones after its value is replaced. -/
theorem Sound.entries_split (h : t.Sound) (hkey : key ∈ t.keys) :
    ∃ front w back, t.entries = front ++ (key, w) :: back ∧ key ∉ back.map Prod.fst ∧
      ∀ v, (t.insert key v).entries = front ++ (key, v) :: back := by
  obtain ⟨⟨key', w⟩, hmem, rfl⟩ := List.mem_map.1 hkey
  obtain ⟨front, back, hsplit⟩ := List.append_of_mem hmem
  have hdistinct := h.distinct
  rw [keys, hsplit, List.map_append, List.map_cons, List.nodup_append] at hdistinct
  obtain ⟨-, hback, hfront⟩ := hdistinct
  have hnotBack := (List.nodup_cons.1 hback).1
  have hnotFront : key' ∉ front.map Prod.fst := fun hin => hfront _ hin _ List.mem_cons_self rfl
  refine ⟨front, w, back, hsplit, hnotBack, ?_⟩
  intro v
  rw [h.indexed.entries_insert_of_mem v hkey, hsplit, List.map_append, List.map_cons,
    map_replace_of_notMem hnotFront, map_replace_of_notMem hnotBack, if_pos rfl]

/-! ### Absorbing entries -/

theorem Sound.absorbEntry (h : t.Sound) (e : Key × α) : (t.absorbEntry e).Sound := by
  obtain ⟨key, v⟩ := e
  cases key with
  | index n => exact h.push v
  | name s => exact h.insert (.name s) v

theorem Sound.absorb (h : t.Sound) (es : List (Key × α)) : (t.absorb es).Sound := by
  induction es generalizing t with
  | nil => exact h
  | cons e es ih => exact ih (h.absorbEntry e)

theorem absorb_append (t : Table α) (es es' : List (Key × α)) :
    t.absorb (es ++ es') = (t.absorb es).absorb es' :=
  List.foldl_append

/-- An entry that is absorbed is inserted at some key: its own name, or the next index. -/
theorem absorbEntry_eq_insert (t : Table α) (e : Key × α) :
    t.absorbEntry e = t.insert (if e.1.isIndex then .index t.next else e.1) e.2 := by
  obtain ⟨key, v⟩ := e
  cases key <;> rfl

/-- A key that no absorbed entry is inserted at, once it is in use. -/
def OutOfReach (key : Key) (es : List (Key × α)) : Prop :=
  ∀ e ∈ es, e.1 ≠ key ∧ (e.1.isIndex = true → key.isIndex = false)

/-- Replacing a value before an entry is absorbed or after. -/
theorem Sound.absorbEntry_insert (h : t.Sound) (hkey : key ∈ t.keys) {e : Key × α}
    (hne : e.1 ≠ key) (hindex : e.1.isIndex = true → key.isIndex = false) (v : α) :
    (t.absorbEntry e).insert key v = (t.insert key v).absorbEntry e := by
  rw [absorbEntry_eq_insert, absorbEntry_eq_insert, next_insert, h.nextAfter_of_mem hkey]
  apply h.insert_comm hkey
  by_cases hi : e.1.isIndex = true
  · rw [if_pos hi]
    rintro rfl
    cases hindex hi
  · rw [if_neg hi]
    exact hne

/-- A value that is replaced after some entries are absorbed may as well be replaced before. -/
theorem Sound.absorb_insert (h : t.Sound) (hkey : key ∈ t.keys) {es : List (Key × α)}
    (hes : OutOfReach key es) (v : α) : (t.absorb es).insert key v = (t.insert key v).absorb es := by
  induction es generalizing t with
  | nil => rfl
  | cons e es ih =>
    obtain ⟨hne, hindex⟩ := hes e List.mem_cons_self
    have hrest : OutOfReach key es := fun e' he' => hes e' (List.mem_cons_of_mem _ he')
    have hkey' : key ∈ (t.absorbEntry e).keys := by
      rw [absorbEntry_eq_insert]
      exact (h.indexed.keys_isPrefix_insert _ _).subset hkey
    calc ((t.absorbEntry e).absorb es).insert key v
        = ((t.absorbEntry e).insert key v).absorb es := ih (h.absorbEntry e) hkey' hrest
      _ = ((t.insert key v).absorbEntry e).absorb es := by
        rw [h.absorbEntry_insert hkey hne hindex]

/-- Of two values for one key, the first leaves no trace, also with entries absorbed in between. -/
theorem Sound.insert_absorb_insert (h : t.Sound) {es : List (Key × α)} (hes : OutOfReach key es)
    (v w : α) : ((t.insert key w).absorb es).insert key v = (t.insert key v).absorb es := by
  rw [(h.insert key w).absorb_insert (h.indexed.mem_keys_insert_self key w) hes, h.insert_insert]

/-! ### Tables whose integers count up -/

/-- The integers among some keys, in order. -/
def indices (keys : List Key) : List Key := keys.filter Key.isIndex

/-- How many integers there are to count with from zero. -/
def indexCount : Nat := (Integer.greatest + 1).toNat

/-- The integers among the keys are the first `n` ones from zero, in order, or all there are. -/
def Renumbered (t : Table α) (n : Nat) : Prop := indices t.keys = firstIndices (min n indexCount)

theorem mem_indices {keys : List Key} {n : Int64} : .index n ∈ indices keys ↔ .index n ∈ keys := by
  simp [indices, Key.isIndex]

theorem indices_append (keys keys' : List Key) :
    indices (keys ++ keys') = indices keys ++ indices keys' :=
  List.filter_append ..

theorem largestIndex_indices (keys : List Key) : largestIndex (indices keys) = largestIndex keys := by
  unfold largestIndex
  generalize (-1 : Int) = m
  induction keys generalizing m with
  | nil => rfl
  | cons key keys ih =>
    cases key with
    | index n => exact ih _
    | name s => exact ih _

/-- The greatest integer comes last, after all others. -/
theorem firstIndices_split {n : Nat} (hn : n ≤ indexCount) {front back : List Key}
    (h : firstIndices n = front ++ .index Int64.maxValue :: back) :
    (front.length : Int) = Integer.greatest ∧ n = indexCount ∧ back = [] := by
  have hcount : (indexCount : Int) = Integer.greatest + 1 := rfl
  have hlength : n = front.length + (back.length + 1) := by
    have hsame := congrArg List.length h
    simpa [firstIndices] using hsame
  have hat : Key.index (Int64.ofNat front.length) = .index Int64.maxValue := by
    have hget : (firstIndices n)[front.length]? = some (.index Int64.maxValue) := by
      rw [h]
      simp
    have hin : front.length < n := by omega
    simpa [firstIndices, hin] using hget
  have hgreatest : (front.length : Int) = Integer.greatest := by
    rw [← toInt_ofNat_of_le (by omega), Key.index.inj hat]
    rfl
  exact ⟨hgreatest, by omega, List.eq_nil_of_length_eq_zero (by omega)⟩

theorem renumbered_empty : (empty : Table α).Renumbered 0 := rfl

theorem Renumbered.insert_name {n : Nat} (hu : u.Renumbered n) (h : u.Sound) (s : String) (v : α) :
    (u.insert (.name s) v).Renumbered n := by
  rw [Renumbered] at hu ⊢
  by_cases hs : .name s ∈ u.keys
  · rw [h.indexed.keys_insert_of_mem v hs, hu]
  · rw [h.indexed.keys_insert_of_notMem v hs, indices_append, hu]
    exact List.append_nil _

theorem Renumbered.push {n : Nat} (hu : u.Renumbered n) (h : u.Sound) (v : α) :
    (u.push v).Renumbered (n + 1) := by
  have hcount : (indexCount : Int) = Integer.greatest + 1 := rfl
  have hle : min n indexCount ≤ indexCount := Nat.min_le_right ..
  rw [Renumbered] at hu ⊢
  rw [Table.push]
  by_cases hmax : .index Int64.maxValue ∈ u.keys
  · -- No integer is left, and the count stays as it is.
    obtain ⟨front, back, hsplit⟩ := List.append_of_mem (mem_indices.2 hmax)
    have hall := (firstIndices_split hle (hu.symm.trans hsplit)).2.1
    rw [h.next_of_mem hmax, h.indexed.keys_insert_of_mem v hmax, hu]
    congr 1
    omega
  · have hnext : u.next.toInt = (min n indexCount : Nat) := by
      rw [h.next_of_notMem hmax, ← largestIndex_indices, hu, largestIndex_firstIndices (by omega)]
      omega
    have hlt : u.next.toInt ≤ Integer.greatest := (Integer.inRange_toInt u.next).2
    have hmin : min n indexCount = n := by omega
    have hmin' : min (n + 1) indexCount = n + 1 := by omega
    have hkey : u.next = Int64.ofNat n := by
      rw [← Int64.toInt_inj, toInt_ofNat_of_le (by omega), hnext, hmin]
    have hfree : .index u.next ∉ u.keys := fun hmem =>
      Int64.lt_irrefl ((h.push_of_notMem hmax v).2 _ hmem)
    rw [h.indexed.keys_insert_of_notMem v hfree, indices_append, hu, hkey, hmin, hmin',
      firstIndices_succ]
    rfl

theorem Renumbered.absorbEntry {n : Nat} (hu : u.Renumbered n) (h : u.Sound) (e : Key × α) :
    (u.absorbEntry e).Renumbered (n + (indices [e.1]).length) := by
  obtain ⟨key, v⟩ := e
  cases key with
  | name s => exact hu.insert_name h s v
  | index i => exact hu.push h v

theorem length_indices_cons (key : Key) (keys : List Key) :
    (indices (key :: keys)).length = (indices [key]).length + (indices keys).length := by
  rw [← List.length_append, ← indices_append]
  rfl

theorem Renumbered.absorb {n : Nat} (hu : u.Renumbered n) (h : u.Sound) (es : List (Key × α)) :
    (u.absorb es).Renumbered (n + (indices (es.map Prod.fst)).length) := by
  induction es generalizing u n with
  | nil => exact hu
  | cons e es ih =>
    rw [List.map_cons, length_indices_cons, ← Nat.add_assoc]
    exact ih (hu.absorbEntry h e) (h.absorbEntry e)

/-! ### Renumbering what has been renumbered -/

theorem Sound.next_nonneg (h : t.Sound) : 0 ≤ t.next.toInt := by
  have hle := (le_foldl_largerIndex t.keys (-1)).1
  have hgreatest : (0 : Int) ≤ Integer.greatest := by decide
  have hnext := h.next_eq
  rw [largestIndex] at hnext
  omega

theorem toInt_next_absorbEntry (t : Table α) (e : Key × α) :
    (t.absorbEntry e).next.toInt =
      min Integer.greatest (t.next.toInt + (indices [e.1]).length) := by
  obtain ⟨key, v⟩ := e
  have hle := (Integer.inRange_toInt t.next).2
  cases key with
  | name s =>
    have hnext : (t.absorbEntry (.name s, v)).next = t.next := next_insert t (.name s) v
    have hcount : (indices [Key.name s]).length = 0 := rfl
    rw [hnext, hcount]
    omega
  | index i =>
    have hnext : (t.absorbEntry (.index i, v)).next = succIndex t.next := by
      rw [absorbEntry, push, next_insert, nextAfter, if_pos (Int64.le_refl _)]
    rw [hnext, toInt_succIndex]
    rfl

/-- Each absorbed entry with an integer moves the next index on, up to the greatest integer. -/
theorem toInt_next_absorb (t : Table α) (es : List (Key × α)) :
    (t.absorb es).next.toInt =
      min Integer.greatest (t.next.toInt + (indices (es.map Prod.fst)).length) := by
  induction es generalizing t with
  | nil =>
    have hle := (Integer.inRange_toInt t.next).2
    have hcount : (indices (([] : List (Key × α)).map Prod.fst)).length = 0 := rfl
    have hsame : t.absorb [] = t := rfl
    rw [hsame, hcount]
    omega
  | cons e es ih =>
    have hstep := t.toInt_next_absorbEntry e
    have hrest : t.absorb (e :: es) = (t.absorbEntry e).absorb es := rfl
    rw [hrest, ih, List.map_cons, length_indices_cons, hstep]
    omega

/-- Where there is no index left, pushing replaces the value of the greatest integer, also after more
entries are absorbed. -/
theorem absorb_push_of_greatest (hnext : t.next = Int64.maxValue) (es : List (Key × α)) (v : α) :
    (t.absorb es).push v = (t.absorb es).insert (.index Int64.maxValue) v := by
  have hlast : (t.absorb es).next = Int64.maxValue := by
    have habsorb := t.toInt_next_absorb es
    have hgreatest : t.next.toInt = Integer.greatest := congrArg Int64.toInt hnext
    have htop : (t.absorb es).next.toInt = Integer.greatest := by omega
    exact Int64.toInt_inj.1 htop
  rw [push, hlast]

/-- The entries up to a key that is the greatest integer have used up all the others. -/
theorem Renumbered.greatest_last {n : Nat} (hu : u.Renumbered n) {front back : List (Key × α)} {w : α}
    (h : u.entries = front ++ (.index Int64.maxValue, w) :: back) (ht : t.Sound) :
    (t.absorb front).next = Int64.maxValue ∧ indices (back.map Prod.fst) = [] := by
  rw [Renumbered, keys, h, List.map_append, indices_append] at hu
  obtain ⟨hfront, -, hback⟩ := firstIndices_split (Nat.min_le_right ..) hu.symm
  refine ⟨?_, hback⟩
  have hnonneg := ht.next_nonneg
  have hnext := t.toInt_next_absorb front
  have htop : (t.absorb front).next.toInt = Integer.greatest := by omega
  exact Int64.toInt_inj.1 htop

/-- Replacing a value among some entries is replacing it once they are absorbed. -/
theorem Sound.absorb_replace (ht : t.Sound) {front back : List (Key × α)}
    (hfront : ∀ x, (t.absorb front).absorbEntry (key, x) = (t.absorb front).insert key x)
    (hback : OutOfReach key back) (v w : α) :
    t.absorb (front ++ (key, v) :: back) = (t.absorb (front ++ (key, w) :: back)).insert key v := by
  have hmiddle : ∀ x, t.absorb (front ++ (key, x) :: back) =
      ((t.absorb front).insert key x).absorb back := by
    intro x
    rw [absorb_append, ← hfront]
    rfl
  rw [hmiddle, hmiddle, (ht.absorb front).insert_absorb_insert hback]

/-- One more entry may be renumbered on its own before it is absorbed with the others. -/
theorem Renumbered.absorb_absorbEntry {n : Nat} (hu : u.Renumbered n) (h : u.Sound) (ht : t.Sound)
    (e : Key × α) : t.absorb (u.absorbEntry e).entries = (t.absorb u.entries).absorbEntry e := by
  obtain ⟨key, v⟩ := e
  -- An entry that is new to `u` comes last. One that is not changes a value in the middle, and then
  -- the entries after it must not reach that key.
  cases key with
  | name s =>
    by_cases hs : .name s ∈ u.keys
    · obtain ⟨front, w, back, hsplit, hback, hreplace⟩ := h.entries_split hs
      have hreach : OutOfReach (.name s) back :=
        fun e he => ⟨fun hsame => hback (hsame ▸ List.mem_map_of_mem he), fun _ => rfl⟩
      rw [Table.absorbEntry, hreplace, hsplit]
      exact ht.absorb_replace (fun _ => rfl) hreach v w
    · rw [Table.absorbEntry, h.indexed.entries_insert_of_notMem v hs, absorb_append]
      rfl
  | index i =>
    by_cases hmax : .index Int64.maxValue ∈ u.keys
    · obtain ⟨front, w, back, hsplit, hback, hreplace⟩ := h.entries_split hmax
      obtain ⟨hnext, hnames⟩ := hu.greatest_last hsplit ht
      have hreach : OutOfReach (.index Int64.maxValue) back := by
        intro e he
        refine ⟨fun hsame => hback (hsame ▸ List.mem_map_of_mem he), fun hi => ?_⟩
        have hin : e.1 ∈ indices (back.map Prod.fst) :=
          List.mem_filter.2 ⟨List.mem_map_of_mem he, hi⟩
        rw [hnames] at hin
        cases hin
      have hpush := absorb_push_of_greatest hnext
      have hfirst : ∀ x, (t.absorb front).absorbEntry (.index Int64.maxValue, x) =
          (t.absorb front).insert (.index Int64.maxValue) x := hpush []
      have hlast : (t.absorb u.entries).push v =
          (t.absorb u.entries).insert (.index Int64.maxValue) v := by
        rw [hsplit, absorb_append]
        exact hpush _ v
      rw [Table.absorbEntry, Table.push, h.next_of_mem hmax, hreplace, Table.absorbEntry, hlast, hsplit]
      exact ht.absorb_replace hfirst hreach v w
    · rw [Table.absorbEntry, (h.push_of_notMem hmax v).1, absorb_append]
      rfl

/-- Renumbering some entries first changes nothing about absorbing them. -/
theorem Sound.absorb_entries_absorb {n : Nat} (ht : t.Sound) (hu : u.Renumbered n) (h : u.Sound)
    (es : List (Key × α)) : t.absorb (u.absorb es).entries = (t.absorb u.entries).absorb es := by
  induction es generalizing u n with
  | nil => rfl
  | cons e es ih =>
    calc t.absorb ((u.absorbEntry e).absorb es).entries
        = (t.absorb (u.absorbEntry e).entries).absorb es := ih (hu.absorbEntry h e) (h.absorbEntry e)
      _ = ((t.absorb u.entries).absorbEntry e).absorb es := by rw [hu.absorb_absorbEntry h ht]

theorem Sound.absorb_renumber (ht : t.Sound) (es : List (Key × α)) :
    t.absorb (empty.absorb es).entries = t.absorb es :=
  ht.absorb_entries_absorb renumbered_empty sound_empty es

/-! ### Merging and slicing -/

/-- A merge renumbers the entries of all tables, one table after another. -/
theorem merge_eq_absorb (tables : List (Table α)) :
    merge tables = empty.absorb (tables.flatMap entries) := by
  rw [merge, absorb, List.foldl_flatMap]
  rfl

/-- A merge counts the entries with integers of all its tables. -/
theorem renumbered_merge (tables : List (Table α)) :
    (merge tables).Renumbered (indices (tables.flatMap keys)).length := by
  have hkeys : (tables.flatMap entries).map Prod.fst = tables.flatMap keys := List.map_flatMap ..
  have habsorb := renumbered_empty.absorb sound_empty (tables.flatMap entries)
  rwa [← merge_eq_absorb, hkeys, Nat.zero_add] at habsorb

/-- Tables in the middle of a merge may be merged first. -/
theorem merge_merge (before group after : List (Table α)) :
    merge (before ++ merge group :: after) = merge (before ++ (group ++ after)) := by
  have hrenumber := (sound_empty.absorb (before.flatMap entries)).absorb_renumber
    (group.flatMap entries)
  simp only [merge_eq_absorb, List.flatMap_append, List.flatMap_cons, absorb_append] at hrenumber ⊢
  rw [hrenumber]

/-- Two slices that meet make up the entries they were taken from. -/
theorem merge_slices (t : Table α) (i : Nat) :
    merge [t.slice 0 i, t.slice i t.size] = merge [t] := by
  have hsize : t.entries.length = t.size := by simp [entries, size]
  have hback : (t.entries.drop i).take (t.size - i) = t.entries.drop i := by
    rw [← hsize, ← List.length_drop, List.take_length]
  simp only [merge_eq_absorb, List.flatMap_cons, List.flatMap_nil, List.append_nil, absorb_append,
    slice, List.drop_zero, Nat.sub_zero, hback]
  rw [sound_empty.absorb_renumber, (sound_empty.absorb _).absorb_renumber, ← absorb_append,
    List.take_append_drop]

end Table

/-! ### The functions of the host -/

/-- The first `k` elements end at the position where the rest begins. -/
theorem Span.of_meets (size : Nat) (k : Int64) :
    ∃ i, Span.of size 0 (some k) = ⟨0, i⟩ ∧ Span.of size k none = ⟨i, size⟩ := by
  have hstart : Span.position size 0 = 0 := by
    have hzero : (0 : Int64).toInt = 0 := rfl
    rw [Span.position, hzero, if_neg (Int.lt_irrefl 0)]
    omega
  have hend : Span.ending size 0 (some k) = Span.position size k := by
    rw [Span.ending, Span.position, Int.zero_add]
  refine ⟨(Span.position size k).toNat, ?_, ?_⟩
  · rw [Span.of_eq, hstart, hend]
    rfl
  · rw [Span.of_eq]
    rfl

/-- The table that a value stands for in a merge: a list is the one with its items. -/
def Value.asTable : Value → Table Value
  | .array t => t
  | .list _ items => Table.ofValues items
  | _ => Table.empty

namespace Host

theorem operandsTable_eq {v : Value} (h : v.kind = .array ∨ v.kind = .list) (callee : String) :
    Operands.table callee v = .ok v.asTable := by
  cases v <;> simp [Value.kind, Operands.table, Value.asTable] at h ⊢

theorem mapM_table_eq {args : List Value} (h : ∀ v ∈ args, v.kind = .array ∨ v.kind = .list) :
    args.mapM (Operands.table "array_merge") = .ok (args.map Value.asTable) := by
  induction args with
  | nil => rfl
  | cons v args ih =>
    rw [List.mapM_cons, operandsTable_eq (h v List.mem_cons_self),
      ih fun w hw => h w (List.mem_cons_of_mem _ hw)]
    rfl

theorem run_arrayMerge {args : List Value} (h : ∀ v ∈ args, v.kind = .array ∨ v.kind = .list)
    (s : Store) : HostFunction.arrayMerge.run args s =
      (.ok (.array (Table.merge (args.map Value.asTable))), s) := by
  rw [HostFunction.run, arrayMerge, mapM_table_eq h]
  rfl

/-- Where the span is known, slicing gives the part of the table in it. -/
theorem run_arraySlice {v : Value} (h : v.kind = .array ∨ v.kind = .list) {rest : List Value}
    {span : Span} (hcount : Operands.count "array_slice" (.between 2 3) (v :: rest) = .ok ())
    (hspan : spanOf "array_slice" v.asTable.size (v :: rest) = .ok span) (s : Store) :
    HostFunction.arraySlice.run (v :: rest) s =
      (.ok (.array (v.asTable.slice span.begin span.stop)), s) := by
  have htable : Operands.table "array_slice" ((v :: rest).headD .nil) = .ok v.asTable :=
    operandsTable_eq h _
  rw [HostFunction.run, arraySlice, hcount, htable]
  change Eval.ofExcept (spanOf "array_slice" v.asTable.size (v :: rest) >>= _) s = _
  rw [hspan]
  rfl

/-- The first `k` entries and the rest are the slices at one position. -/
theorem run_arraySlice_at {v : Value} (h : v.kind = .array ∨ v.kind = .list) (k : Int64) (s : Store) :
    ∃ i, HostFunction.arraySlice.run [v, .int 0, .int k] s = (.ok (.array (v.asTable.slice 0 i)), s) ∧
      HostFunction.arraySlice.run [v, .int k] s =
        (.ok (.array (v.asTable.slice i v.asTable.size)), s) := by
  obtain ⟨i, hfirst, hrest⟩ := Span.of_meets v.asTable.size k
  have hspan : spanOf "array_slice" v.asTable.size [v, .int 0, .int k] = .ok ⟨0, i⟩ :=
    congrArg Except.ok hfirst
  have hspan' : spanOf "array_slice" v.asTable.size [v, .int k] = .ok ⟨i, v.asTable.size⟩ :=
    congrArg Except.ok hrest
  exact ⟨i, run_arraySlice h rfl hspan s, run_arraySlice h rfl hspan' s⟩

end Host

/-- It does not matter in which groups three tables or lists are merged, and in the result the integers
count up from zero, one for each of theirs. Cutting a table or list anywhere and merging the two parts
gives what merging it alone does, whichever integer says where to cut. -/
theorem HostFunction.merge_regroups_and_joins_slices {a b c : Value}
    (ha : a.kind = .array ∨ a.kind = .list) (hb : b.kind = .array ∨ b.kind = .list)
    (hc : c.kind = .array ∨ c.kind = .list) (s : Store) :
    (∃ all ab bc : Table Value,
      arrayMerge.run [a, b, c] s = (.ok (.array all), s) ∧
      arrayMerge.run [a, b] s = (.ok (.array ab), s) ∧
      arrayMerge.run [.array ab, c] s = (.ok (.array all), s) ∧
      arrayMerge.run [b, c] s = (.ok (.array bc), s) ∧
      arrayMerge.run [a, .array bc] s = (.ok (.array all), s) ∧
      all.Renumbered
        (Table.indices (a.asTable.keys ++ b.asTable.keys ++ c.asTable.keys)).length) ∧
    ∀ k : Int64, ∃ whole front back : Table Value,
      arrayMerge.run [a] s = (.ok (.array whole), s) ∧
      arraySlice.run [a, .int 0, .int k] s = (.ok (.array front), s) ∧
      arraySlice.run [a, .int k] s = (.ok (.array back), s) ∧
      arrayMerge.run [.array front, .array back] s = (.ok (.array whole), s) := by
  have htable : ∀ t : Table Value, (Value.array t).kind = .array ∨ (Value.array t).kind = .list :=
    fun _ => Or.inl rfl
  constructor
  · have hleft := Table.merge_merge [] [a.asTable, b.asTable] [c.asTable]
    have hright := Table.merge_merge [a.asTable] [b.asTable, c.asTable] []
    have hcount := Table.renumbered_merge [a.asTable, b.asTable, c.asTable]
    refine ⟨_, _, _, Host.run_arrayMerge (by simp [ha, hb, hc]) s,
      Host.run_arrayMerge (by simp [ha, hb]) s, ?_, Host.run_arrayMerge (by simp [hb, hc]) s, ?_, ?_⟩
    · rw [Host.run_arrayMerge (by simp [htable, hc])]
      exact congrArg (fun t => (Except.ok (Value.array t), s)) hleft
    · rw [Host.run_arrayMerge (by simp [htable, ha])]
      exact congrArg (fun t => (Except.ok (Value.array t), s)) hright
    · simpa using hcount
  · intro k
    obtain ⟨i, hfront, hback⟩ := Host.run_arraySlice_at ha k s
    refine ⟨_, _, _, Host.run_arrayMerge (by simp [ha]) s, hfront, hback, ?_⟩
    rw [Host.run_arrayMerge (by simp [htable])]
    exact congrArg (fun t => (Except.ok (Value.array t), s)) (a.asTable.merge_slices i)

/-- Two tables that share a name, with a list between them: the integers are counted anew. One table is
cut where the least integer says. -/
theorem HostFunction.merge_regroups_and_joins_slices_shared_name :
    let a : Value := .array ((Table.empty.insert (.index (-5)) (.int 1)).insert (.name "x") (.int 2))
    let b : Value := .list 0 [.int 3]
    let c : Value := .array ((Table.empty.insert (.name "x") (.int 4)).insert (.index 9) (.int 5))
    (a.kind = .array ∧ b.kind = .list ∧ c.kind = .array) ∧
    (∃ all ab, arrayMerge.run [a, b, c] .empty = (.ok (.array all), .empty) ∧
      arrayMerge.run [a, b] .empty = (.ok (.array ab), .empty) ∧
      arrayMerge.run [.array ab, c] .empty = (.ok (.array all), .empty) ∧
      Table.indices all.keys = [.index 0, .index 1, .index 2]) ∧
    ∃ whole front back, arrayMerge.run [a] .empty = (.ok (.array whole), .empty) ∧
      arraySlice.run [a, .int 0, .int Int64.minValue] .empty = (.ok (.array front), .empty) ∧
      arraySlice.run [a, .int Int64.minValue] .empty = (.ok (.array back), .empty) ∧
      arrayMerge.run [.array front, .array back] .empty = (.ok (.array whole), .empty) := by
  intro a b c
  obtain ⟨⟨all, ab, _, hall, hab, hgroup, -, -, hcount⟩, hslices⟩ :=
    merge_regroups_and_joins_slices (a := a) (b := b) (c := c) (.inl rfl) (.inr rfl) (.inl rfl) .empty
  have hthree : (Table.indices (a.asTable.keys ++ b.asTable.keys ++ c.asTable.keys)).length = 3 := by
    decide +kernel
  rw [hthree] at hcount
  exact ⟨⟨rfl, rfl, rfl⟩, ⟨all, ab, hall, hab, hgroup, hcount⟩, hslices Int64.minValue⟩

end ConfinedLisp
