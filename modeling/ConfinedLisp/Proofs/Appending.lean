import ConfinedLisp.Proofs.KeyTexts

/-!
# Entries without a key

An entry that brings no key takes the index after the largest one, and stands after all others. There
is no index after the greatest integer. In a table that has this one as a key, an entry without a key
takes the place of the entry with it.

## Main results

- `Table.Sound.push_of_notMem`, `Table.Sound.push_of_mem`: the two cases.
- `Table.push_appends_unless_greatest`: what pushing does to a table that programs can make.
- `Table.ofValues_spec`: values that are pushed one after another are numbered from zero.
-/

namespace ConfinedLisp

namespace Table

variable {α : Type} {t : Table α} {key : Key}

/-! ### The next index -/

theorem foldl_largerIndex_eq_or_mem (keys : List Key) (m : Int) :
    keys.foldl largerIndex m = m ∨
      ∃ n : Int64, .index n ∈ keys ∧ n.toInt = keys.foldl largerIndex m := by
  induction keys generalizing m with
  | nil => exact Or.inl rfl
  | cons key keys ih =>
    rw [List.foldl_cons]
    rcases ih (largerIndex m key) with hstart | ⟨n, hn, hlargest⟩
    · rw [hstart]
      cases key with
      | name s => exact Or.inl rfl
      | index n =>
        by_cases hle : n.toInt ≤ m
        · exact Or.inl (by simp only [largerIndex]; omega)
        · exact Or.inr ⟨n, by simp, by simp only [largerIndex]; omega⟩
    · exact Or.inr ⟨n, List.mem_cons_of_mem _ hn, hlargest⟩

/-- The largest index is that of a key, if there is one that counts. -/
theorem largestIndex_eq_or_mem (keys : List Key) :
    largestIndex keys = -1 ∨ ∃ n : Int64, .index n ∈ keys ∧ n.toInt = largestIndex keys :=
  foldl_largerIndex_eq_or_mem keys (-1)

theorem toInt_ofNat_of_le {n : Nat} (h : (n : Int) ≤ Integer.greatest) : (Int64.ofNat n).toInt = n := by
  rw [Int64.toInt_ofNat_of_lt]
  simp only [Integer.greatest] at h
  omega

theorem firstIndices_succ (n : Nat) :
    firstIndices (n + 1) = firstIndices n ++ [.index (Int64.ofNat n)] := by
  simp [firstIndices, List.range_succ]

theorem largestIndex_firstIndices {n : Nat} (h : (n : Int) ≤ Integer.greatest + 1) :
    largestIndex (firstIndices n) = n - 1 := by
  induction n with
  | zero => rfl
  | succ n ih =>
    rw [firstIndices_succ, largestIndex_append, ih (by omega), largerIndex,
      toInt_ofNat_of_le (by omega)]
    omega

namespace Sound

/-- If the greatest integer is no key, the next index is the one after the largest. -/
theorem next_of_notMem (h : t.Sound) (hmax : .index Int64.maxValue ∉ t.keys) :
    t.next.toInt = 1 + largestIndex t.keys := by
  have hnext := h.next_eq
  rcases largestIndex_eq_or_mem t.keys with hnone | ⟨n, hn, hlargest⟩
  · have : (0 : Int) ≤ Integer.greatest := by decide
    omega
  · have hle := (Integer.inRange_toInt n).2
    have hne : n.toInt ≠ Integer.greatest := by
      intro htop
      have : n = Int64.maxValue := Int64.toInt_inj.1 htop
      exact hmax (this ▸ hn)
    omega

theorem next_of_mem (h : t.Sound) (hmax : .index Int64.maxValue ∈ t.keys) :
    t.next = Int64.maxValue := by
  have hle : Integer.greatest ≤ largestIndex t.keys := le_largestIndex hmax
  have hnext : t.next.toInt = Integer.greatest := by
    have := h.next_eq
    omega
  exact Int64.toInt_inj.1 hnext

/-- As long as the greatest integer is no key, a pushed value comes last, under an index larger than
all others. -/
theorem push_of_notMem (h : t.Sound) (hmax : .index Int64.maxValue ∉ t.keys) (v : α) :
    (t.push v).entries = t.entries ++ [(.index t.next, v)] ∧ ∀ n, .index n ∈ t.keys → n < t.next := by
  have hlarger : ∀ n, .index n ∈ t.keys → n < t.next := by
    intro n hn
    have hle := le_largestIndex hn
    have hnext := h.next_of_notMem hmax
    rw [Int64.lt_iff_toInt_lt]
    omega
  refine ⟨?_, hlarger⟩
  exact h.indexed.entries_insert_of_notMem v fun hmem => Int64.lt_irrefl (hlarger _ hmem)

/-- Once the greatest integer is a key, a pushed value becomes the value of that key. -/
theorem push_of_mem (h : t.Sound) (hmax : .index Int64.maxValue ∈ t.keys) (v : α) :
    (t.push v).entries =
      t.entries.map fun e => if e.1 = .index Int64.maxValue then (.index Int64.maxValue, v) else e := by
  rw [Table.push, h.next_of_mem hmax]
  exact h.indexed.entries_insert_of_mem v hmax

end Sound

/-- Pushing a value onto a table that came about by inserting and pushing adds one entry and leaves
those that there are as they are. The value stands last, under an index larger than every integer
among the keys. This is so unless the greatest integer is a key. There is no larger one, and the value
takes the place of that of this key instead: no entry is added, and no other one changes. -/
theorem push_appends_unless_greatest (h : t.Built) (v : α) :
    (.index Int64.maxValue ∉ t.keys →
      (t.push v).size = t.size + 1 ∧ (t.push v).entries = t.entries ++ [(.index t.next, v)] ∧
        ∀ n, .index n ∈ t.keys → n < t.next) ∧
    (.index Int64.maxValue ∈ t.keys →
      (t.push v).size = t.size ∧ (t.push v).entries =
        t.entries.map fun e =>
          if e.1 = .index Int64.maxValue then (.index Int64.maxValue, v) else e) := by
  have hsize : ∀ u : Table α, u.size = u.entries.length := fun u => by simp [size, entries]
  refine ⟨fun hmax => ?_, fun hmax => ?_⟩
  · obtain ⟨hentries, hlarger⟩ := h.sound.push_of_notMem hmax v
    refine ⟨?_, hentries, hlarger⟩
    rw [hsize, hsize, hentries, List.length_append, List.length_singleton]
  · have hentries := h.sound.push_of_mem hmax v
    refine ⟨?_, hentries⟩
    rw [hsize, hsize, hentries, List.length_map]

/-- A value after a negative index and a name goes under zero. With the greatest integer for a key, the
value of that key is lost. -/
theorem push_appends_unless_greatest_twice :
    let t : Table Value := (empty.insert (.index (-7)) (.int 1)).insert (.name "a") (.int 2)
    let u : Table Value := (t.insert (.index Int64.maxValue) (.int 3)).insert (.name "b") (.int 4)
    t.Built ∧ .index Int64.maxValue ∉ t.keys ∧ u.Built ∧ .index Int64.maxValue ∈ u.keys ∧
      (t.push .nil).entries = t.entries ++ [(.index t.next, .nil)] ∧ t.next = 0 ∧
      (u.push .nil).entries =
        u.entries.map fun e =>
          if e.1 = .index Int64.maxValue then (.index Int64.maxValue, .nil) else e := by
  intro t u
  have ht : t.Built := .insert _ _ (.insert _ _ .empty)
  have hu : u.Built := .insert _ _ (.insert _ _ ht)
  have hfree : .index Int64.maxValue ∉ t.keys := by decide +kernel
  have htaken : .index Int64.maxValue ∈ u.keys := by decide +kernel
  exact ⟨ht, hfree, hu, htaken, ((push_appends_unless_greatest ht .nil).1 hfree).2.1,
    by decide +kernel, ((push_appends_unless_greatest hu .nil).2 htaken).2⟩

/-- Pushing onto a table of one entry, with the greatest integer for a key, leaves one entry. -/
theorem push_after_greatest_overwrites :
    let t : Table Value := empty.insert (.index Int64.maxValue) (.int 1)
    t.Built ∧ (t.push (.int 2)).size ≠ t.size + 1 ∧ (t.push (.int 2)).keys = t.keys :=
  ⟨.insert _ _ .empty, by decide +kernel, by decide +kernel⟩

/-! ### Values in a row -/

/-- Values that are pushed onto a table numbered from zero go on with the numbers. -/
theorem foldl_push_spec (vs : List α) {t : Table α} {n : Nat} (h : t.Built)
    (hkeys : t.keys = firstIndices n) (hn : ((n + vs.length : Nat) : Int) ≤ Integer.greatest + 1) :
    (vs.foldl push t).keys = firstIndices (n + vs.length) ∧
      (vs.foldl push t).values = t.values ++ vs := by
  induction vs generalizing t n with
  | nil => exact ⟨hkeys, by simp⟩
  | cons v vs ih =>
    rw [List.length_cons] at hn
    have hlargest : largestIndex t.keys = n - 1 := hkeys ▸ largestIndex_firstIndices (by omega)
    have hmax : .index Int64.maxValue ∉ t.keys := by
      intro hmem
      have hle : Integer.greatest ≤ largestIndex t.keys := le_largestIndex hmem
      omega
    have hnext : t.next = Int64.ofNat n := by
      have hint := h.sound.next_of_notMem hmax
      rw [← Int64.toInt_inj, toInt_ofNat_of_le (by omega)]
      omega
    obtain ⟨hentries, -⟩ := h.sound.push_of_notMem hmax v
    have hstep : (t.push v).keys = firstIndices (n + 1) := by
      rw [keys, hentries, List.map_append, ← keys, hkeys, hnext, firstIndices_succ]
      rfl
    obtain ⟨hall, hvalues⟩ := ih (h.push v) hstep (by omega)
    rw [List.foldl_cons]
    refine ⟨?_, ?_⟩
    · rw [hall, List.length_cons]
      congr 1
      omega
    · rw [hvalues, values, hentries, List.map_append, ← values]
      simp

/-- Values in a row are numbered from zero, if there are numbers for all. -/
theorem ofValues_spec {vs : List α} (h : (vs.length : Int) ≤ Integer.greatest + 1) :
    (ofValues vs).keys = firstIndices vs.length ∧ (ofValues vs).values = vs := by
  obtain ⟨hkeys, hvalues⟩ := foldl_push_spec vs (t := empty) (n := 0) .empty rfl (by simpa using h)
  rw [Nat.zero_add] at hkeys
  exact ⟨hkeys, hvalues⟩

end Table

end ConfinedLisp
