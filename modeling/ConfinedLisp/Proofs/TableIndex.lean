import ConfinedLisp.Proofs.Realm

/-!
# The representation of tables

A table is read in three ways: by going through its entries, by looking a key up in its index, and by
taking the next free index. The three agree as long as the index has the position of each key, and of no
other, and the next index is the one after the largest. Tables are made by inserting alone, also where
values are pushed, and inserting keeps this so.

## Main definitions

- `Table.Made`: the tables that programs make.
- `Table.Sound`: the index is right, and the next index is the one after the largest.

## Main results

- `Table.Sound.insert`, `Table.Sound.push`: what one step keeps.
- `Table.Sound.ext`: the entries determine the table.
- `Table.Built.sound`, `Table.Made.built`: what every table that can be made is like.
- `Table.entries_agree_with_index`: what follows for reading and inserting.
-/

namespace ConfinedLisp

namespace Table

variable {α : Type} {t : Table α} {key : Key}

/-- The larger one of a number and a key, if the key is an integer. -/
def largerIndex (m : Int) : Key → Int
  | .index n => max m n.toInt
  | .name _ => m

/-- The largest of the keys that are integers; -1 if none is larger than that. -/
def largestIndex (keys : List Key) : Int := keys.foldl largerIndex (-1)

/-- The index is right, and the next index is the one after the largest, if there is such a one. -/
structure Sound (t : Table α) : Prop where
  indexed : t.Indexed
  next_eq : t.next.toInt = min Integer.greatest (1 + largestIndex t.keys)

/-! ### The largest index -/

theorem le_foldl_largerIndex (keys : List Key) (m : Int) :
    m ≤ keys.foldl largerIndex m ∧ ∀ n, .index n ∈ keys → n.toInt ≤ keys.foldl largerIndex m := by
  induction keys generalizing m with
  | nil => simp
  | cons key keys ih =>
    obtain ⟨hstart, hkeys⟩ := ih (largerIndex m key)
    have hstep : m ≤ largerIndex m key ∧ ∀ n, key = .index n → n.toInt ≤ largerIndex m key := by
      cases key with
      | name s => exact ⟨Int.le_refl m, fun n hn => by cases hn⟩
      | index i =>
        refine ⟨Int.le_max_left .., fun n hn => ?_⟩
        cases hn
        exact Int.le_max_right ..
    rw [List.foldl_cons]
    refine ⟨by omega, ?_⟩
    intro n hn
    rcases List.mem_cons.1 hn with hn | hn
    · have := hstep.2 n hn.symm
      omega
    · exact hkeys n hn

/-- Every integer key is at most the largest one. -/
theorem le_largestIndex {keys : List Key} {n : Int64} (h : .index n ∈ keys) :
    n.toInt ≤ largestIndex keys :=
  (le_foldl_largerIndex keys (-1)).2 n h

theorem largestIndex_append (keys : List Key) (key : Key) :
    largestIndex (keys ++ [key]) = largerIndex (largestIndex keys) key := by
  simp [largestIndex]

/-- The integer after a machine integer, or the greatest one. -/
theorem toInt_succIndex (n : Int64) : (succIndex n).toInt = min Integer.greatest (n.toInt + 1) := by
  have hrange := Integer.inRange_toInt n
  obtain ⟨hleast, hgreatest⟩ := hrange
  unfold succIndex Integer.saturate
  by_cases htop : Integer.greatest < n.toInt + 1
  · rw [if_neg (by omega), if_pos htop]
    have : Int64.maxValue.toInt = Integer.greatest := rfl
    omega
  · rw [if_neg (by omega), if_neg htop, Integer.toInt_ofInt ⟨by omega, by omega⟩]
    omega

/-- The next index stays after the largest one when a key comes into use, also if it was in use. -/
theorem toInt_nextAfter {next : Int64} {m : Int}
    (hnext : next.toInt = min Integer.greatest (1 + m)) (key : Key) :
    (nextAfter next key).toInt = min Integer.greatest (1 + largerIndex m key) := by
  cases key with
  | name s => exact hnext
  | index n =>
    have hn := (Integer.inRange_toInt n).2
    rw [nextAfter, largerIndex]
    by_cases hle : next ≤ n
    · rw [if_pos hle, toInt_succIndex]
      rw [Int64.le_iff_toInt_le] at hle
      omega
    · rw [if_neg hle]
      rw [Int64.le_iff_toInt_le] at hle
      omega

/-! ### What one step keeps -/

theorem largerIndex_of_mem {keys : List Key} (h : key ∈ keys) :
    largerIndex (largestIndex keys) key = largestIndex keys := by
  cases key with
  | name s => rfl
  | index n =>
    have := le_largestIndex h
    simp only [largerIndex]
    omega

theorem next_insert (t : Table α) (key : Key) (v : α) :
    (t.insert key v).next = nextAfter t.next key := by
  unfold insert
  split <;> rfl

theorem sound_empty : (empty : Table α).Sound := ⟨indexed_empty, rfl⟩

namespace Sound

theorem distinct (h : t.Sound) : t.keys.Nodup := h.indexed.distinct

theorem insert (h : t.Sound) (key : Key) (v : α) : (t.insert key v).Sound := by
  refine ⟨h.indexed.insert key v, ?_⟩
  by_cases hmem : key ∈ t.keys
  · rw [next_insert, h.indexed.keys_insert_of_mem v hmem, toInt_nextAfter h.next_eq,
      largerIndex_of_mem hmem]
  · rw [next_insert, h.indexed.keys_insert_of_notMem v hmem, largestIndex_append]
    exact toInt_nextAfter h.next_eq key

theorem push (h : t.Sound) (v : α) : (t.push v).Sound := h.insert _ v

/-- The next index is free, unless it is the greatest one. -/
theorem next_free (h : t.Sound) (hnext : t.next ≠ Int64.maxValue) : .index t.next ∉ t.keys := by
  intro hmem
  have hle := le_largestIndex hmem
  have heq := h.next_eq
  have htop : t.next.toInt ≠ Integer.greatest := fun htop => hnext (Int64.toInt_inj.1 htop)
  omega

/-- The entries determine the index and the next index. -/
theorem ext {u : Table α} (h : t.Sound) (hu : u.Sound) (hentries : t.entries = u.entries) : t = u := by
  have hkeys : t.keys = u.keys := congrArg (List.map Prod.fst) hentries
  have hpositions := h.indexed.positions_eq hu.indexed hkeys
  have hnext : t.next = u.next := Int64.toInt_inj.1 (by rw [h.next_eq, hu.next_eq, hkeys])
  cases t
  cases u
  exact Table.mk.injEq .. ▸ ⟨Array.toList_inj.1 hentries, hpositions, hnext⟩

end Sound

/-- Every table that is built is sound. -/
theorem Built.sound (h : t.Built) : t.Sound := by
  induction h with
  | empty => exact sound_empty
  | insert key v _ ih => exact ih.insert key v

/-! ### What inserting does to the keys -/

/-- Inserting keeps the keys where they are, and adds at most one after them. -/
theorem Indexed.keys_isPrefix_insert (h : t.Indexed) (key : Key) (v : α) :
    t.keys <+: (t.insert key v).keys := by
  by_cases hmem : key ∈ t.keys
  · exact ⟨[], by rw [h.keys_insert_of_mem v hmem, List.append_nil]⟩
  · rw [h.keys_insert_of_notMem v hmem]
    exact List.prefix_append ..

theorem size_eq_length_keys (t : Table α) : t.size = t.keys.length := by
  simp [size, keys, entries]

theorem Indexed.size_insert (h : t.Indexed) (key : Key) (v : α) :
    (t.insert key v).size = if t.contains key then t.size else t.size + 1 := by
  rw [size_eq_length_keys, size_eq_length_keys]
  by_cases hmem : key ∈ t.keys
  · rw [if_pos (h.contains_iff.2 hmem), h.keys_insert_of_mem v hmem]
  · rw [if_neg fun hfound => hmem (h.contains_iff.1 hfound), h.keys_insert_of_notMem v hmem]
    simp

end Table

/-! ### Tables that programs make -/

/-- If a value is a table, it was built. -/
def Value.Tidy (v : Value) : Prop := ∀ t, v = .array t → t.Built

theorem Value.tidy_of_kind {v : Value} (h : v.kind ≠ .array) : v.Tidy := by
  rintro t rfl
  exact absurd rfl h

theorem Table.Built.tidy {t : Table Value} (h : t.Built) : (Value.array t).Tidy := by
  intro t' ht
  cases ht
  exact h

namespace Host

/-- What an argument is does not matter to a function that makes a table of its own. -/
theorem table_yields_any (callee : String) (v : Value) :
    Yields (fun _ => True) (Operands.table callee v) := by
  cases v <;> trivial

theorem single_yields_any (name : String) (args : List Value) :
    Yields (fun _ => True) (single name args) :=
  (Operands.count_yields _ _ _).bind fun _ _ => trivial

theorem arrayMerge_tidy (args : List Value) : Yields Value.Tidy (arrayMerge args) :=
  (Yields.mapM fun v _ => table_yields_any _ v).bind fun tables _ => (Table.Built.merge tables).tidy

theorem arraySlice_tidy (args : List Value) : Yields Value.Tidy (arraySlice args) := by
  refine (Operands.count_yields _ _ _).bind fun _ _ => ?_
  refine (table_yields_any _ _).bind fun t _ => ?_
  exact (spanOf_yields _ _ _).bind fun _ _ => (Table.Built.slice t _ _).tidy

theorem arrayKeys_tidy (args : List Value) : Yields Value.Tidy (arrayKeys args) := by
  refine (single_yields_any _ _).bind fun v _ => ?_
  exact (table_yields_any _ _).bind fun t _ => (Table.Built.ofValues _).tidy

theorem arrayValues_tidy (args : List Value) : Yields Value.Tidy (arrayValues args) := by
  refine (single_yields_any _ _).bind fun v _ => ?_
  exact (table_yields_any _ _).bind fun t _ => (Table.Built.ofValues _).tidy

end Host

namespace Eval

variable {α β : Type}

/-- Two computations in a row give something exactly if both give something. -/
theorem bind_eq_ok_iff {x : Eval α} {f : α → Eval β} {s s' : Store} {b : β} :
    x.bind f s = (.ok b, s') ↔ ∃ a t, x s = (.ok a, t) ∧ f a t = (.ok b, s') := by
  constructor
  · intro hrun
    cases hfirst : x s with
    | mk result t =>
      cases result with
      | error halt =>
        rw [bind_of_error hfirst] at hrun
        cases hrun
      | ok a =>
        rw [bind_of_ok hfirst] at hrun
        exact ⟨a, t, rfl, hrun⟩
  · rintro ⟨a, t, hfirst, hrest⟩
    exact (bind_of_ok hfirst f).trans hrest

/-- If a computation gives something, it satisfies `P`. -/
def Gives (x : Eval α) (P : α → Prop) : Prop := ∀ s a s', x s = (.ok a, s') → P a

namespace Gives

variable {P : α → Prop} {Q : β → Prop}

theorem pure {a : α} (h : P a) : (Eval.pure a).Gives P := by
  intro s b s' hrun
  cases hrun
  exact h

theorem bind {x : Eval α} {f : α → Eval β} (hx : x.Gives P) (hf : ∀ a, P a → (f a).Gives Q) :
    (x.bind f).Gives Q := by
  intro s b s' hrun
  obtain ⟨a, t, hfirst, hrest⟩ := bind_eq_ok_iff.1 hrun
  exact hf a (hx s a t hfirst) t b s' hrest

theorem ofExcept {x : Except EvalError α} (h : Yields P x) : (Eval.ofExcept x).Gives P := by
  cases x with
  | ok a => exact pure h
  | error e =>
    intro s b s' hrun
    cases hrun

theorem of_trivial (x : Eval α) : x.Gives fun _ => True := fun _ _ _ _ => trivial

end Gives

end Eval

/-- The table of a `dict` is built entry by entry. -/
theorem Evaluator.entries_built (ev : Evaluator) (scope : FrameId) {t : Table Value} (h : t.Built)
    (forms : List Value) : (ev.entries scope t forms).Gives Table.Built := by
  induction forms generalizing t with
  | nil => exact .pure h
  | cons form rest ih =>
    have hpush : ∀ form, ((ev form scope).bind fun v => ev.entries scope (t.push v) rest).Gives
        Table.Built := fun form => (Eval.Gives.of_trivial _).bind fun v _ => ih (h.push v)
    unfold Evaluator.entries
    split
    · cases ‹_ = _›
    · next key form rest' hsplit =>
      cases hsplit
      refine (Eval.Gives.of_trivial _).bind fun k _ => ?_
      refine (Eval.Gives.of_trivial _).bind fun v _ => ?_
      exact (Eval.Gives.of_trivial _).bind fun key _ => ih (h.insert key v)
    · next form rest' hsplit =>
      cases hsplit
      exact hpush form
    · next form rest' _ _ hsplit =>
      cases hsplit
      exact hpush form

namespace Json

mutual

theorem decode_tidy (d : Document) : (decode d).Gives (Value.All Value.Tidy) := by
  have hplain : ∀ v : Value, v.IsLeaf → (∀ t, v ≠ .array t) →
      (Eval.pure v).Gives (Value.All Value.Tidy) := fun v hleaf hv =>
    .pure (hleaf.all_iff.2 fun t ht => absurd ht (hv t))
  cases d with
  | null => exact hplain .nil trivial nofun
  | bool b => exact hplain (.bool b) trivial nofun
  | whole n =>
    rw [decode]
    split
    · exact hplain (.int _) trivial nofun
    · exact hplain (.float _) trivial nofun
  | float x => exact hplain (.float x) trivial nofun
  | string s => exact hplain (.str s) trivial nofun
  | array items =>
    rw [decode]
    refine (decodeItems_tidy items).bind fun vs hvs => ?_
    intro s v s' hrun
    cases hrun
    exact Value.all_list.2 ⟨nofun, hvs⟩
  | object members =>
    rw [decode]
    refine (decodeMembers_tidy members .empty .empty ?_).bind fun t ht => ?_
    · simp [Table.empty, Table.values, Table.entries]
    · exact .pure (Value.all_array.2 ⟨ht.1.tidy, ht.2⟩)

theorem decodeItems_tidy (ds : List Document) :
    (decodeItems ds).Gives fun vs => ∀ v ∈ vs, v.All Value.Tidy := by
  cases ds with
  | nil => exact .pure (by simp)
  | cons d ds =>
    rw [decodeItems]
    refine (decode_tidy d).bind fun v hv => ?_
    refine (decodeItems_tidy ds).bind fun vs hvs => .pure ?_
    intro w hw
    rcases List.mem_cons.1 hw with rfl | hw
    · exact hv
    · exact hvs w hw

/-- A table is built member by member, of values whose tables were built. -/
theorem decodeMembers_tidy (ms : List (String × Document)) (t : Table Value) (ht : t.Built)
    (hvalues : ∀ v ∈ t.values, v.All Value.Tidy) :
    (decodeMembers ms t).Gives fun t => t.Built ∧ ∀ v ∈ t.values, v.All Value.Tidy := by
  cases ms with
  | nil => exact .pure ⟨ht, hvalues⟩
  | cons m ms =>
    rw [decodeMembers]
    refine (decodeMember_tidy m).bind fun entry hentry => ?_
    refine decodeMembers_tidy ms _ (ht.insert entry.1 entry.2) fun v hv => ?_
    rcases Table.mem_values_insert hv with rfl | hv
    · exact hentry
    · exact hvalues v hv

theorem decodeMember_tidy (m : String × Document) :
    (decodeMember m).Gives fun entry => entry.2.All Value.Tidy := by
  obtain ⟨key, d⟩ := m
  rw [decodeMember]
  exact (decode_tidy d).bind fun v hv => .pure hv

end

end Json

theorem Host.jsonDecode_tidy (args : List Value) :
    (Host.jsonDecode args).Gives (Value.All Value.Tidy) := by
  refine (Eval.Gives.of_trivial _).bind fun v _ => ?_
  refine (Eval.Gives.of_trivial _).bind fun text _ => ?_
  split
  · exact Json.decode_tidy _
  · intro s v s' hrun
    cases hrun

namespace Table

/-- The tables that programs make: by `array` and `dict`, by the host's functions on tables, and
anywhere in the value of a JSON text. -/
inductive Made : Table Value → Prop where
  | array {t : Table Value} {operands : List Value} {s s' : Store} :
      Operation.run .array operands s = (.ok (.array t), s') → Made t
  | dict {t : Table Value} {ev : Evaluator} {scope : FrameId} {operands : List Value} {s s' : Store} :
      SpecialForm.run .dict ev scope operands s = (.ok (.array t), s') → Made t
  | host {t : Table Value} {f : HostFunction} {args : List Value} {s s' : Store} :
      f ∈ [.arrayMerge, .arraySlice, .arrayKeys, .arrayValues] →
        f.run args s = (.ok (.array t), s') → Made t
  | decoded {t : Table Value} {args : List Value} {v : Value} {s s' : Store} :
      HostFunction.run .jsonDecode args s = (.ok v, s') → (Value.array t).Occurs v → Made t

theorem Made.built {t : Table Value} (h : t.Made) : t.Built := by
  cases h with
  | array hrun =>
    cases hrun
    exact .ofValues _
  | dict hrun =>
    have hgives := ((Evaluator.entries_built _ _ .empty _).bind
      (Q := Value.Tidy) fun t ht => .pure ht.tidy) _ _ _ hrun
    exact hgives t rfl
  | host hf hrun =>
    simp only [List.mem_cons, List.not_mem_nil, or_false] at hf
    rcases hf with rfl | rfl | rfl | rfl
    · exact Eval.Gives.ofExcept (Host.arrayMerge_tidy _) _ _ _ hrun t rfl
    · exact Eval.Gives.ofExcept (Host.arraySlice_tidy _) _ _ _ hrun t rfl
    · exact Eval.Gives.ofExcept (Host.arrayKeys_tidy _) _ _ _ hrun t rfl
    · exact Eval.Gives.ofExcept (Host.arrayValues_tidy _) _ _ _ hrun t rfl
  | decoded hrun hoccurs =>
    exact Host.jsonDecode_tidy _ _ _ _ hrun _ hoccurs t rfl

/-- The entries of a table, its index and its next index agree, for every table that comes about by
inserting and pushing, hence for every table that programs make. No key occurs twice. The index has a
position for a key exactly if the key's entry stands there, so looking the key up gives the value of
that one entry. The next index is the one after the largest, and at most the greatest integer. Inserting
gives the key its value and no other key another one, leaves the keys where they are, and adds one entry
exactly if the key was absent. -/
theorem entries_agree_with_index {t : Table Value} (h : t.Built ∨ t.Made) :
    t.keys.Nodup ∧
      (∀ key i, t.positions[key]? = some i ↔ t.keyAt? i = some key) ∧
      t.next.toInt = min Integer.greatest (1 + largestIndex t.keys) ∧
      (∀ key v, t.get? key = some v ↔ (key, v) ∈ t.entries) ∧
      (∀ key, t.contains key = true ↔ ∃ v, (key, v) ∈ t.entries) ∧
      ∀ key v, (t.insert key v).get? key = some v ∧
        (∀ other, other ≠ key → (t.insert key v).get? other = t.get? other) ∧
        t.keys <+: (t.insert key v).keys ∧
        (t.insert key v).size = if t.contains key then t.size else t.size + 1 := by
  have hsound := (h.elim id Made.built).sound
  have hindexed := hsound.indexed
  refine ⟨hsound.distinct, hindexed, hsound.next_eq, fun key v => hindexed.get?_eq_some_iff,
    fun key => ?_, fun key v => ?_⟩
  · rw [hindexed.contains_iff, keys, List.mem_map]
    constructor
    · rintro ⟨e, he, rfl⟩
      exact ⟨e.2, he⟩
    · rintro ⟨v, hv⟩
      exact ⟨(key, v), hv, rfl⟩
  · exact ⟨hindexed.get?_insert_self key v, fun other hother => hindexed.get?_insert_of_ne hother v,
      hindexed.keys_isPrefix_insert key v, hindexed.size_insert key v⟩

/-- The greatest index is in use, so what is pushed takes its place; a negative index does not count. -/
theorem entries_agree_with_index_greatest :
    let t : Table Value :=
      ((empty.insert (.index Int64.maxValue) (.int 1)).insert (.index (-5)) .nil).push (.int 2)
    (t.Built ∨ t.Made) ∧ t.keys = [.index Int64.maxValue, .index (-5)] ∧ t.keys.Nodup ∧
      (t.positions[Key.index (-5)]? = some 1 ↔ t.keyAt? 1 = some (.index (-5))) ∧
      t.next.toInt = min Integer.greatest (1 + largestIndex t.keys) ∧
      (t.get? (.index Int64.maxValue) = some (.int 2) ↔
        (.index Int64.maxValue, .int 2) ∈ t.entries) := by
  intro t
  have hbuilt : t.Built ∨ t.Made := Or.inl (.push _ (.insert _ _ (.insert _ _ .empty)))
  obtain ⟨hdistinct, hindex, hnext, hget, -⟩ := entries_agree_with_index hbuilt
  exact ⟨hbuilt, by decide +kernel, hdistinct, hindex _ _, hnext, hget _ _⟩

end Table

end ConfinedLisp
