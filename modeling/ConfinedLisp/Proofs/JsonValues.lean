import ConfinedLisp.Proofs.KeyTexts
import ConfinedLisp.Proofs.Relabelling

/-!
# Values without identities

Decoding gives every list an identity of its own, and encoding does not look at identities. Apart from
them the value of a document is a function of the document.

## Main definitions

- `Value.rebuilt`: a value whose lists have no identity of their own, with its tables arranged anew.
  `Value.bare` leaves them as they are, `Value.keyOrdered` puts their entries in the order of the bytes
  of their keys' texts.
- `Json.Document.value`: the value of a document, without identities.

## Main results

- `Json.decode_bare`: decoding ends with the value of the document.
- `Json.encodeWith_bare`: encoding does not look at identities.
-/

namespace ConfinedLisp

namespace Table

variable {α : Type} {t u : Table α}

/-- The table of some entries, inserted in turn. -/
def ofEntries (es : List (Key × α)) : Table α := es.foldl (fun t e => t.insert e.1 e.2) empty

theorem Indexed.entries_foldl_insert {es : List (Key × α)} (ht : t.Indexed)
    (h : (t.keys ++ es.map Prod.fst).Nodup) :
    (es.foldl (fun t e => t.insert e.1 e.2) t).entries = t.entries ++ es := by
  induction es generalizing t with
  | nil => simp
  | cons e es ih =>
    have hnew : e.1 ∉ t.keys := fun hmem =>
      (List.nodup_append.1 h).2.2 e.1 hmem e.1 (by simp) rfl
    rw [List.foldl_cons, ih (ht.insert e.1 e.2), ht.entries_insert_of_notMem e.2 hnew,
      List.append_assoc, List.singleton_append]
    rw [ht.keys_insert_of_notMem e.2 hnew]
    simpa using h

/-- Entries with distinct keys are the entries of the table that is made of them. -/
theorem entries_ofEntries {es : List (Key × α)} (h : (es.map Prod.fst).Nodup) :
    (ofEntries es).entries = es := by
  rw [ofEntries, indexed_empty.entries_foldl_insert (by simpa [keys, entries, empty] using h)]
  simp [entries, empty]

theorem Built.ofEntries (es : List (Key × α)) : (ofEntries es).Built := by
  have hfrom : ∀ t : Table α, t.Built → (es.foldl (fun t e => t.insert e.1 e.2) t).Built := by
    induction es with
    | nil => exact fun t ht => ht
    | cons e es ih => exact fun t ht => ih _ (ht.insert e.1 e.2)
  exact hfrom _ .empty

theorem foldl_largerIndex_perm {ks ls : List Key} (h : ks.Perm ls) (m : Int) :
    ks.foldl largerIndex m = ls.foldl largerIndex m := by
  have hcomm : ∀ (m : Int) (k l : Key),
      largerIndex (largerIndex m k) l = largerIndex (largerIndex m l) k := by
    intro m k l
    cases k with
    | name s => rfl
    | index i =>
      cases l with
      | name s => rfl
      | index j =>
        simp only [largerIndex]
        omega
  induction h generalizing m with
  | nil => rfl
  | cons k _ ih => exact ih _
  | swap k l ks => rw [List.foldl_cons, List.foldl_cons, List.foldl_cons, List.foldl_cons, hcomm]
  | trans _ _ ih ih' => exact (ih m).trans (ih' m)

/-- The next index does not depend on the order of the keys. -/
theorem Sound.next_eq_of_perm (ht : t.Sound) (hu : u.Sound) (h : t.keys.Perm u.keys) :
    t.next = u.next := by
  apply Int64.toInt_inj.1
  rw [ht.next_eq, hu.next_eq, largestIndex, largestIndex, foldl_largerIndex_perm h]

/-- The table that is made of the entries of a sound one, in any order, has the same next index. -/
theorem Sound.next_ofEntries (ht : t.Sound) {es : List (Key × α)} (h : (es.map Prod.fst).Perm t.keys) :
    (ofEntries es).next = t.next := by
  have hentries : (ofEntries es).entries = es := entries_ofEntries (h.nodup_iff.2 ht.distinct)
  exact (Built.ofEntries es).sound.next_eq_of_perm ht (by rw [keys, hentries]; exact h)

end Table

namespace Value

mutual

/-- A value whose lists all have the identity `0`, with its tables arranged anew. -/
def rebuilt (arrange : Table Value → Table Value) : Value → Value
  | .list _ items => .list 0 (rebuiltItems arrange items)
  | .array table => .array (rebuiltTable arrange table)
  | v => v
termination_by structural v => v

/-- Values, each rebuilt. -/
def rebuiltItems (arrange : Table Value → Table Value) : List Value → List Value
  | [] => []
  | v :: vs => rebuilt arrange v :: rebuiltItems arrange vs
termination_by structural vs => vs

/-- A table of values that are rebuilt, arranged anew. -/
def rebuiltTable (arrange : Table Value → Table Value) : Table Value → Table Value
  | ⟨⟨entries⟩, positions, next⟩ => arrange ⟨⟨rebuiltEntries arrange entries⟩, positions, next⟩
termination_by structural t => t

/-- Entries with values that are rebuilt. -/
def rebuiltEntries (arrange : Table Value → Table Value) :
    List (Key × Value) → List (Key × Value)
  | [] => []
  | e :: es => rebuiltEntry arrange e :: rebuiltEntries arrange es
termination_by structural es => es

/-- An entry with a value that is rebuilt. -/
def rebuiltEntry (arrange : Table Value → Table Value) : Key × Value → Key × Value
  | (key, v) => (key, rebuilt arrange v)
termination_by structural e => e

end

/-- Entries in the order of the bytes of their keys' texts. -/
def orderEntries (es : List (Key × Value)) : List (Key × Value) :=
  es.mergeSort fun e f => decide (Text.bytes (Json.keyText e.1) ≤ Text.bytes (Json.keyText f.1))

/-- A table with its entries in that order, and the index that belongs to it. -/
def orderTable (t : Table Value) : Table Value :=
  { Table.ofEntries (orderEntries t.entries) with next := t.next }

/-- A value apart from the identities of its lists. -/
def bare (v : Value) : Value := v.rebuilt id

/-- A value with the entries of its tables in the order of the bytes of their keys' texts, apart from
the identities of its lists. -/
def keyOrdered (v : Value) : Value := v.rebuilt orderTable

theorem rebuilt_list (arrange : Table Value → Table Value) (id : Identity) (items : List Value) :
    (Value.list id items).rebuilt arrange = .list 0 (items.map (rebuilt arrange)) := by
  have hitems : rebuiltItems arrange items = items.map (rebuilt arrange) := by
    induction items with
    | nil => rfl
    | cons v items ih => rw [rebuiltItems, ih, List.map_cons]
  rw [rebuilt, hitems]

theorem rebuilt_array (arrange : Table Value → Table Value) (t : Table Value) :
    (Value.array t).rebuilt arrange = .array (arrange (t.map (rebuilt arrange))) := by
  obtain ⟨⟨es⟩, positions, next⟩ := t
  have hentries : rebuiltEntries arrange es = es.map fun e => (e.1, rebuilt arrange e.2) := by
    induction es with
    | nil => rfl
    | cons e es ih => rw [rebuiltEntries, ih, rebuiltEntry, List.map_cons]
  rw [rebuilt, rebuiltTable, hentries, Table.map, List.map_toArray]

theorem bare_array (t : Table Value) : (Value.array t).bare = .array (t.map bare) :=
  rebuilt_array id t

end Value

namespace Json

mutual

/-- The value of a document, without identities. -/
def Document.value : Document → Value
  | .null => .nil
  | .bool b => .bool b
  | .whole n => (Integer.ofInt? n).elim (.float (Double.ofInt n)) .int
  | .float x => .float x
  | .string s => .str s
  | .array items => .list 0 (Document.values items)
  | .object members => .array (.ofEntries (Document.entries members))

/-- The values of some documents. -/
def Document.values : List Document → List Value
  | [] => []
  | d :: ds => d.value :: Document.values ds

/-- The entries of some members. -/
def Document.entries : List (String × Document) → List (Key × Value)
  | [] => []
  | m :: ms => Document.entry m :: Document.entries ms

/-- The entry of a member. -/
def Document.entry : String × Document → Key × Value
  | (key, d) => (Key.ofText key, d.value)

end

theorem Document.value_array (items : List Document) :
    (Document.array items).value = .list 0 (items.map Document.value) := by
  have hvalues : Document.values items = items.map Document.value := by
    induction items with
    | nil => rfl
    | cons d ds ih => rw [Document.values, ih, List.map_cons]
  rw [Document.value, hvalues]

theorem Document.entries_eq (members : List (String × Document)) :
    Document.entries members = members.map fun m => (Key.ofText m.1, m.2.value) := by
  induction members with
  | nil => rfl
  | cons m ms ih => rw [Document.entries, ih, List.map_cons, Document.entry]

/-! ### Decoding -/

mutual

/-- Decoding ends, and apart from identities it gives the value of the document. -/
theorem decode_bare (d : Document) (s : Store) :
    ∃ v s', decode d s = (.ok v, s') ∧ v.bare = d.value := by
  cases d with
  | null => exact ⟨_, _, rfl, rfl⟩
  | bool b => exact ⟨_, _, rfl, rfl⟩
  | whole n =>
    rw [decode, Document.value]
    cases Integer.ofInt? n <;> exact ⟨_, _, rfl, rfl⟩
  | float x => exact ⟨_, _, rfl, rfl⟩
  | string s => exact ⟨_, _, rfl, rfl⟩
  | array items =>
    obtain ⟨vs, s', hrun, hvs⟩ := decodeItems_bare items s
    refine ⟨.list s'.nextIdentity vs, { s' with nextIdentity := s'.nextIdentity + 1 }, ?_, ?_⟩
    · rw [decode, Eval.bind_of_ok hrun]
      rfl
    · rw [Value.bare, Value.rebuilt_list, Document.value_array]
      exact congrArg (Value.list 0) hvs
  | object members =>
    obtain ⟨t, s', hrun, ht⟩ := decodeMembers_bare members .empty s
    refine ⟨.array t, s', ?_, ?_⟩
    · rw [decode, Eval.bind_of_ok hrun]
      rfl
    · rw [Value.bare_array, ht, Table.map_empty]
      rfl

theorem decodeItems_bare (ds : List Document) (s : Store) :
    ∃ vs s', decodeItems ds s = (.ok vs, s') ∧ vs.map Value.bare = ds.map Document.value := by
  cases ds with
  | nil => exact ⟨[], s, rfl, rfl⟩
  | cons d ds =>
    obtain ⟨v, s', hrun, hv⟩ := decode_bare d s
    obtain ⟨vs, s'', hrun', hvs⟩ := decodeItems_bare ds s'
    refine ⟨v :: vs, s'', ?_, by rw [List.map_cons, List.map_cons, hv, hvs]⟩
    rw [decodeItems, Eval.bind_of_ok hrun, Eval.bind_of_ok hrun']
    rfl

theorem decodeMembers_bare (ms : List (String × Document)) (t : Table Value) (s : Store) :
    ∃ t' s', decodeMembers ms t s = (.ok t', s') ∧
      t'.map Value.bare =
        (Document.entries ms).foldl (fun t e => t.insert e.1 e.2) (t.map Value.bare) := by
  cases ms with
  | nil => exact ⟨t, s, rfl, rfl⟩
  | cons m ms =>
    obtain ⟨e, s', hrun, hkey, hv⟩ := decodeMember_bare m s
    obtain ⟨t', s'', hrun', ht'⟩ := decodeMembers_bare ms (t.insert e.1 e.2) s'
    refine ⟨t', s'', ?_, ?_⟩
    · rw [decodeMembers, Eval.bind_of_ok hrun]
      exact hrun'
    · rw [ht', Document.entries, List.foldl_cons, ← Table.insert_map, hkey, hv]

theorem decodeMember_bare (m : String × Document) (s : Store) :
    ∃ e s', decodeMember m s = (.ok e, s') ∧ e.1 = (Document.entry m).1 ∧
      e.2.bare = (Document.entry m).2 := by
  obtain ⟨key, d⟩ := m
  obtain ⟨v, s', hrun, hv⟩ := decode_bare d s
  refine ⟨(Key.ofText key, v), s', ?_, rfl, hv⟩
  rw [decodeMember, Eval.bind_of_ok hrun]
  rfl

end

/-! ### Encoding -/

theorem encodeItems_map {α : Type} {vectors : VectorId → Except Halt Document} {as : List α}
    {f : α → Value} {g : α → Document} (h : ∀ a ∈ as, encodeWith vectors (f a) = .ok (g a)) :
    encodeItems vectors (as.map f) = .ok (as.map g) := by
  induction as with
  | nil => rfl
  | cons a as ih =>
    rw [List.map_cons, encodeItems, h a List.mem_cons_self,
      ih fun b hb => h b (List.mem_cons_of_mem _ hb)]
    rfl

theorem encodeItems_bare {vectors : VectorId → Except Halt Document} {vs : List Value}
    (h : ∀ v ∈ vs, encodeWith vectors v.bare = encodeWith vectors v) :
    encodeItems vectors (vs.map Value.bare) = encodeItems vectors vs := by
  induction vs with
  | nil => rfl
  | cons v vs ih =>
    rw [List.map_cons, encodeItems, encodeItems, h v List.mem_cons_self,
      ih fun w hw => h w (List.mem_cons_of_mem _ hw)]

/-- Encoding does not look at identities. -/
theorem encodeWith_bare (vectors : VectorId → Except Halt Document) (v : Value) :
    encodeWith vectors v.bare = encodeWith vectors v := by
  induction v using Value.descend with
  | h v hitems hentries =>
    cases v with
    | list id items =>
      rw [Value.bare, Value.rebuilt_list, encodeWith, encodeWith]
      exact congrArg _ (encodeItems_bare (hitems id items rfl))
    | array t =>
      rw [Value.bare_array, encodeWith, encodeWith, encodeTable_eq, encodeTable_eq,
        Table.keys_map, Table.values_map, encodeItems_bare (hentries t rfl)]
    | _ => rfl

end Json

end ConfinedLisp
