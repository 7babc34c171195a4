import ConfinedLisp.Proofs.JsonValues
import ConfinedLisp.Proofs.VectorLoops

/-!
# Values as JSON texts and back

A value that JSON text can carry has a document that is read back from its own text, and the value
of that document is the one it was made of. The order of a table's entries is lost, as the members
of an object are written in the order of their keys' bytes.

## Main definitions

- `Value.Portable`: the values that JSON text can carry, with a bound on their depth.

## Main results

- `Value.Portable.exists_document`: the document of a portable value, and what it is read as.
- `Value.Portable.decode_encode`: encoding and then decoding restores a portable value.
-/

namespace ConfinedLisp

namespace Json

/-- Values of which each has a document with the property `P` have documents with that property. -/
theorem exists_encodeItems {vs : List Value} {P : Value → Document → Prop}
    (h : ∀ v ∈ vs, ∃ d, (∀ vectors, encodeWith vectors v = .ok d) ∧ P v d) :
    ∃ f : Value → Document, (∀ vectors, encodeItems vectors vs = .ok (vs.map f)) ∧
      ∀ v ∈ vs, P v (f v) := by
  have hchoice : ∀ v : Value, ∃ d, v ∈ vs → (∀ vectors, encodeWith vectors v = .ok d) ∧ P v d := by
    intro v
    by_cases hv : v ∈ vs
    · obtain ⟨d, hd⟩ := h v hv
      exact ⟨d, fun _ => hd⟩
    · exact ⟨.null, fun hv' => absurd hv' hv⟩
  obtain ⟨f, hf⟩ := Classical.axiomOfChoice hchoice
  refine ⟨f, fun vectors => ?_, fun v hv => (hf v hv).2⟩
  have hitems := encodeItems_map (f := fun v => v) (g := f) fun v hv => (hf v hv).1 vectors
  rwa [List.map_id'] at hitems

/-- Members under the texts of distinct keys are in the order of the bytes of these. -/
theorem orderMembers_keyText {entries : List (Key × Value)} (f : Value → Document)
    (hnodup : (entries.map fun e => keyText e.1).Nodup) :
    orderMembers (entries.map fun e => (keyText e.1, f e.2)) =
      (Value.orderEntries entries).map fun e => (keyText e.1, f e.2) := by
  rw [orderMembers_of_nodup (by rw [List.map_map]; exact hnodup), Value.orderEntries]
  refine (List.map_mergeSort ?_).symm
  intro e _ e' _
  exact decide_eq_decide.2 Text.bytes_le_iff

/-- Distinct keys have distinct texts. -/
theorem nodup_keyText {t : Table Value} (hdistinct : t.keys.Nodup)
    (hproper : ∀ key ∈ t.keys, key.IsProper) : (t.entries.map fun e => keyText e.1).Nodup := by
  have hkeys : (t.entries.map fun e => keyText e.1).map Key.ofText = t.keys := by
    rw [List.map_map]
    refine List.map_congr_left fun e he => ofText_keyText (hproper e.1 ?_)
    exact List.mem_map.2 ⟨e, he, rfl⟩
  exact List.Pairwise.of_map Key.ofText (fun _ _ hne heq => hne (congrArg _ heq)) (hkeys ▸ hdistinct)

/-- The document of a table that is not sequential has a member for each entry. -/
theorem assemble_of_not_sequential {t : Table Value} (f : Value → Document)
    (hdistinct : t.keys.Nodup) (hsequence : t.keys ≠ Table.firstIndices t.size)
    (hproper : ∀ key ∈ t.keys, key.IsProper) :
    assemble t.keys (t.values.map f) =
      .object ((Value.orderEntries t.entries).map fun e => (keyText e.1, f e.2)) := by
  have hnot : ¬ Table.sequentialFrom 0 t.keys = true := by
    rw [Table.sequentialFrom_zero_iff, ← Table.size_eq_length_keys]
    exact hsequence
  have hzip : t.keys.zip (t.values.map f) = t.entries.map fun e => (e.1, f e.2) := by
    rw [Table.keys, Table.values, List.map_map, List.zip_map']
    rfl
  rw [assemble, if_neg hnot, hzip, List.map_map]
  exact congrArg Document.object (orderMembers_keyText f (nodup_keyText hdistinct hproper))

end Json

namespace Value

/-- The values that JSON text can carry: made of nothing but `nil`, booleans, integers, finite floats,
strings, lists and tables, with lists and tables nested at most `room` deep. No table is sequential, and
none has a name as key that looks like an integer. -/
inductive Portable : Nat → Value → Prop
  | nil {room : Nat} : Portable room .nil
  | bool {room : Nat} (b : Bool) : Portable room (.bool b)
  | int {room : Nat} (n : Int64) : Portable room (.int n)
  | float {room : Nat} {x : Float} (hfinite : x.isFinite = true) : Portable room (.float x)
  | str {room : Nat} (s : String) : Portable room (.str s)
  | list {room : Nat} (id : Identity) {items : List Value} (h : ∀ v ∈ items, Portable room v) :
      Portable (room + 1) (.list id items)
  | array {room : Nat} {t : Table Value} (hbuilt : t.Built)
      (hsequence : t.keys ≠ Table.firstIndices t.size) (hproper : ∀ key ∈ t.keys, key.IsProper)
      (h : ∀ v ∈ t.values, Portable room v) : Portable (room + 1) (.array t)

theorem orderEntries_map (f : Value → Value) (entries : List (Key × Value)) :
    orderEntries (entries.map fun e => (e.1, f e.2)) =
      (orderEntries entries).map fun e => (e.1, f e.2) := by
  unfold orderEntries
  refine (List.map_mergeSort ?_).symm
  intro e _ e' _
  rfl

theorem keyOrdered_array (t : Table Value) :
    (Value.array t).keyOrdered =
      .array { Table.ofEntries ((orderEntries t.entries).map fun e => (e.1, e.2.keyOrdered)) with
        next := t.next } := by
  rw [keyOrdered, rebuilt_array, orderTable, Table.entries_map, orderEntries_map]
  rfl

/-- The members of a table's document are read as the entries of the table. -/
theorem value_object_of_table {t : Table Value} {f : Value → Json.Document} (hsound : t.Sound)
    (hproper : ∀ key ∈ t.keys, key.IsProper)
    (hf : ∀ v ∈ t.values, (f v).value = v.keyOrdered) :
    (Json.Document.object
      ((orderEntries t.entries).map fun e => (Json.keyText e.1, f e.2))).value =
        (Value.array t).keyOrdered := by
  have hmem : ∀ e ∈ orderEntries t.entries, e ∈ t.entries := fun e he => List.mem_mergeSort.1 he
  have hentries : Json.Document.entries
      ((orderEntries t.entries).map fun e => (Json.keyText e.1, f e.2)) =
        (orderEntries t.entries).map fun e => (e.1, e.2.keyOrdered) := by
    rw [Json.Document.entries_eq, List.map_map]
    refine List.map_congr_left fun e he => Prod.ext ?_ ?_
    · exact Json.ofText_keyText (hproper e.1 (List.mem_map.2 ⟨e, hmem e he, rfl⟩))
    · exact hf e.2 (List.mem_map.2 ⟨e, hmem e he, rfl⟩)
  have hperm : (((orderEntries t.entries).map fun e => (e.1, e.2.keyOrdered)).map Prod.fst).Perm
      t.keys := by
    rw [List.map_map]
    exact (List.mergeSort_perm ..).map Prod.fst
  rw [Json.Document.value, hentries, keyOrdered_array, ← hsound.next_ofEntries hperm]

/-- The document of a portable value is legible, and its value is the value apart from the order of
entries and the identities of lists. -/
theorem Portable.exists_document {room : Nat} {v : Value} (h : v.Portable room)
    (hfloats : ∀ x, (Value.float x).Occurs v → Json.ReadsBack x) :
    ∃ d, (∀ vectors, Json.encodeWith vectors v = .ok d) ∧ Json.Legible room d ∧
      d.value = v.keyOrdered := by
  induction h with
  | nil => exact ⟨.null, fun _ => rfl, .null, rfl⟩
  | bool b => exact ⟨.bool b, fun _ => rfl, .bool b, rfl⟩
  | int n =>
    refine ⟨.whole n.toInt, fun _ => rfl, .whole (Integer.inRange_toInt n), ?_⟩
    rw [Json.Document.value, Integer.ofInt?_toInt]
    rfl
  | @float _ x hfinite =>
    refine ⟨.float x, fun vectors => ?_, .float (hfloats x .self), rfl⟩
    rw [Json.encodeWith, if_pos hfinite]
  | str s => exact ⟨.string s, fun _ => rfl, .string s, rfl⟩
  | @list room id items _ ih =>
    obtain ⟨f, hitems, hf⟩ := Json.exists_encodeItems fun v hv =>
      ih v hv fun x hx => hfloats x (.item hv hx)
    refine ⟨.array (items.map f), fun vectors => ?_, .array ?_, ?_⟩
    · rw [Json.encodeWith, hitems]
      rfl
    · intro d hd
      obtain ⟨v, hv, rfl⟩ := List.mem_map.1 hd
      exact (hf v hv).1
    · rw [Json.Document.value_array, List.map_map, keyOrdered, rebuilt_list]
      exact congrArg (Value.list 0) (List.map_congr_left fun v hv => (hf v hv).2)
  | @array room t hbuilt hsequence hproper _ ih =>
    obtain ⟨f, hvalues, hf⟩ := Json.exists_encodeItems fun v hv =>
      ih v hv fun x hx => hfloats x (.entry hv hx)
    refine ⟨.object ((orderEntries t.entries).map fun e => (Json.keyText e.1, f e.2)),
      fun vectors => ?_, .object ?_ ?_,
      value_object_of_table hbuilt.sound hproper fun v hv => (hf v hv).2⟩
    · rw [Json.encodeWith, Json.encodeTable_eq, hvalues,
        ← Json.assemble_of_not_sequential f hbuilt.sound.distinct hsequence hproper]
      rfl
    · rw [← Json.orderMembers_keyText f (Json.nodup_keyText hbuilt.sound.distinct hproper)]
      exact Json.ordered_orderMembers _
    · intro m hm
      obtain ⟨e, he, rfl⟩ := List.mem_map.1 hm
      exact (hf e.2 (List.mem_map.2 ⟨e, List.mem_mergeSort.1 he, rfl⟩)).1

end Value

namespace Json

/-- A text that denotes a document is decoded as that document. -/
theorem run_jsonDecode {text : String} {d : Document} (h : Document.ofText? text = some d)
    (s : Store) : HostFunction.run .jsonDecode [.str text] s = decode d s := by
  have hsingle : Eval.ofExcept (Host.single "json_decode" [.str text]) s = (.ok (.str text), s) := rfl
  have htext : Eval.ofExcept (Operands.string "json_decode" (.str text)) s = (.ok text, s) := rfl
  show Host.jsonDecode [.str text] s = _
  unfold Host.jsonDecode
  refine (Eval.bind_of_ok hsingle _).trans ?_
  refine (Eval.bind_of_ok htext _).trans ?_
  rw [h]

/-- A value that has a document is encoded as the text of that document. -/
theorem run_jsonEncode {v : Value} {d : Document} (h : ∀ vectors, encodeWith vectors v = .ok d)
    (s : Store) : HostFunction.run .jsonEncode [v] s = (.ok (.str d.render), s) := by
  have hencode : encode s v = .ok d := h _
  exact (Store.jsonEncode_single v s).trans (by rw [hencode]; rfl)

end Json

/-- Encoding and then decoding restores a value. A value made of `nil`, booleans, integers, finite
floats, strings, lists and tables, with lists and tables nested at most 127 deep, no sequential table
and no key that is a name but looks like an integer, is encoded as a text, and in every store that text
is decoded as the value with the entries of each table in the order of the bytes of their keys' texts.
Only the identities of lists are new. Not every float is the one nearest to its own text as it is read
here, so of the floats in the value it is asked that they are read back. -/
theorem Value.Portable.decode_encode {v : Value} (h : v.Portable 127)
    (hfloats : ∀ x, (Value.float x).Occurs v → Json.ReadsBack x) :
    ∃ text, (∀ s, HostFunction.run .jsonEncode [v] s = (.ok (.str text), s)) ∧
      ∀ s, ∃ w s', HostFunction.run .jsonDecode [.str text] s = (.ok w, s') ∧
        w.bare = v.keyOrdered := by
  obtain ⟨d, hencode, hlegible, hvalue⟩ := h.exists_document hfloats
  refine ⟨d.render, Json.run_jsonEncode hencode, fun s => ?_⟩
  obtain ⟨w, s', hdecode, hw⟩ := Json.decode_bare d s
  exact ⟨w, s', (Json.run_jsonDecode hlegible.ofText?_render s).trans hdecode, hw.trans hvalue⟩

/-- A float and a list, the list under an index that comes before the name in the order of bytes. -/
theorem Value.Portable.decode_encode_mixed :
    let t : Table Value :=
      .ofEntries [(.name "b", .float 1.5), (.index 0, .list 7 [.int (-3), .nil])]
    (Value.array t).Portable 127 ∧ (∀ x, (Value.float x).Occurs (.array t) → Json.ReadsBack x) ∧
      ∃ text, (∀ s, HostFunction.run .jsonEncode [.array t] s = (.ok (.str text), s)) ∧
        ∀ s, ∃ w s', HostFunction.run .jsonDecode [.str text] s = (.ok w, s') ∧
          w.bare = (Value.array t).keyOrdered := by
  intro t
  have hbuilt : t.Built := .ofEntries _
  have hentries : t.entries = _ := Table.entries_ofEntries (by decide)
  have hkeys : t.keys = [.name "b", .index 0] := by rw [Table.keys, hentries]; rfl
  have hvalues : t.values = [.float 1.5, .list 7 [.int (-3), .nil]] := by
    rw [Table.values, hentries]
    rfl
  have hsequence : t.keys ≠ Table.firstIndices t.size := by
    rw [Table.size_eq_length_keys, hkeys]
    decide
  have hname : ∀ n : Int64, "b" ≠ Integer.text n.toInt := by
    intro n hn
    have hnone : Integer.ofCanonicalText? "b" = none := by decide +kernel
    cases hnone.symm.trans (Integer.ofCanonicalText?_eq_some_iff.2 hn)
  have hportable : (Value.array t).Portable 127 := by
    refine .array hbuilt hsequence ?_ ?_
    · rw [hkeys]
      simpa [Key.IsProper] using hname
    · rw [hvalues]
      intro w hw
      rcases List.mem_pair.1 hw with rfl | rfl
      · exact .float rfl
      · refine .list 7 fun w hw => ?_
        rcases List.mem_pair.1 hw with rfl | rfl
        · exact .int _
        · exact .nil
  have hfloats : ∀ x, (Value.float x).Occurs (.array t) → Json.ReadsBack x := by
    clear_value t
    intro x hx
    cases hx with
    | entry hw hx =>
      rw [hvalues] at hw
      rcases List.mem_pair.1 hw with rfl | rfl
      · cases hx
        rfl
      · cases hx with
        | item hw hx => rcases List.mem_pair.1 hw with rfl | rfl <;> cases hx
  exact ⟨hportable, hfloats, hportable.decode_encode hfloats⟩

end ConfinedLisp
