import ConfinedLisp.Proofs.JsonRoundTrip

/-!
# JSON texts as values and back

A text that is decoded and encoded again denotes the same document, but for one thing: a table does not
know whether it was made of an array or of an object, and one whose keys are the indices from zero on is
written as an array. So an object with such keys comes back as the array of its members' documents, the
empty object included. In the order of texts `10` comes before `2`, so this happens to objects with at
most ten members.

## Main definitions

- `Json.Document.relisted`: a document with arrays in the place of such objects.
- `Json.Document.Exact`: a document whose numbers are all machine integers.

## Main results

- `Json.sequential_iff`: which objects are encoded as arrays.
- `Json.Document.Exact.encode_value`: what the value of a document is encoded as.
- `Json.encode_decode_relisted`: what a text is decoded and encoded again as.
-/

namespace ConfinedLisp

namespace Json

/-- The texts of the indices below `n`, in order. -/
def indexTexts (n : Nat) : List String :=
  (List.range n).map fun i : Nat => Integer.text (i : Int)

/-- The array of the members' documents if the keys are the texts of the indices from zero on, and the
object with these members otherwise. -/
def relist (members : List (String × Document)) : Document :=
  if members.map Prod.fst = indexTexts members.length then .array (members.map Prod.snd)
  else .object members

mutual

/-- A document in which each object whose keys are the texts of the indices from zero on is the array of
its members' documents. -/
def Document.relisted : Document → Document
  | .array items => .array (Document.relistedItems items)
  | .object members => relist (Document.relistedMembers members)
  | d => d

/-- Documents, each relisted. -/
def Document.relistedItems : List Document → List Document
  | [] => []
  | d :: ds => d.relisted :: Document.relistedItems ds

/-- Members with documents that are relisted. -/
def Document.relistedMembers : List (String × Document) → List (String × Document)
  | [] => []
  | m :: ms => Document.relistedMember m :: Document.relistedMembers ms

/-- A member with a document that is relisted. -/
def Document.relistedMember : String × Document → String × Document
  | (key, d) => (key, d.relisted)

end

/-- A document whose numbers are all machine integers. The text `-0` denotes a float. -/
inductive Document.Exact : Document → Prop
  | null : Exact .null
  | bool (b : Bool) : Exact (.bool b)
  | whole {n : Int} (h : Integer.InRange n) : Exact (.whole n)
  | negativeZero : Exact (.float (-0.0))
  | string (s : String) : Exact (.string s)
  | array {items : List Document} (h : ∀ d ∈ items, Exact d) : Exact (.array items)
  | object {members : List (String × Document)} (h : ∀ m ∈ members, Exact m.2) :
      Exact (.object members)

namespace Document

theorem relisted_array (items : List Document) :
    (Document.array items).relisted = .array (items.map relisted) := by
  have hitems : relistedItems items = items.map relisted := by
    induction items with
    | nil => rfl
    | cons d ds ih => rw [relistedItems, ih, List.map_cons]
  rw [relisted, hitems]

theorem relisted_object (members : List (String × Document)) :
    (Document.object members).relisted = relist (members.map fun m => (m.1, m.2.relisted)) := by
  have hmembers : relistedMembers members = members.map fun m => (m.1, m.2.relisted) := by
    induction members with
    | nil => rfl
    | cons m ms ih => rw [relistedMembers, ih, relistedMember, List.map_cons]
  rw [relisted, hmembers]

end Document

/-! ### What a text denotes -/

theorem mem_of_mem_orderMembers {α : Type} {m : String × α} {members : List (String × α)}
    (h : m ∈ orderMembers members) : m ∈ members :=
  List.mem_mergeSort.1 (mem_of_mem_keepLast h)

/-- A number denotes a whole number or a float. -/
theorem denote?_eq_some {n : NumberText} {d : Document} (h : n.denote? = some d) :
    (∃ i, d = .whole i) ∨ ∃ x, d = .float x := by
  unfold NumberText.denote? at h
  split at h
  dsimp only at h
  repeat' split at h
  all_goals
    first
    | cases h; exact Or.inl ⟨_, rfl⟩
    | cases h; exact Or.inr ⟨_, rfl⟩
    | obtain ⟨x, -, rfl⟩ := Option.map_eq_some_iff.1 h; exact Or.inr ⟨_, rfl⟩
    | cases h

theorem readsBack_negativeZero : ReadsBack (-0.0) := rfl

mutual

/-- A document that a tree denotes is legible if its numbers are machine integers. -/
theorem legible_of_ofSkeleton? {room : Nat} {v : Skeleton} {d : Document}
    (h : Document.ofSkeleton? room v = some d) (hexact : d.Exact) : Legible room d := by
  cases v with
  | null =>
    cases h
    exact .null
  | bool b =>
    cases h
    exact .bool b
  | number n =>
    rcases denote?_eq_some h with ⟨i, rfl⟩ | ⟨x, rfl⟩
    · cases hexact with
      | whole hi => exact .whole hi
    · cases hexact with
      | negativeZero => exact .float readsBack_negativeZero
  | string units =>
    obtain ⟨s, -, rfl⟩ := Option.map_eq_some_iff.1 h
    exact .string s
  | array items =>
    cases room with
    | zero => cases h
    | succ room =>
      obtain ⟨ds, hds, rfl⟩ := Option.map_eq_some_iff.1 h
      cases hexact with
      | array hexact => exact .array fun d hd => legible_of_ofItems? hds d hd (hexact d hd)
  | object members =>
    cases room with
    | zero => cases h
    | succ room =>
      obtain ⟨ms, hms, rfl⟩ := Option.map_eq_some_iff.1 h
      cases hexact with
      | object hexact =>
        refine .object (ordered_orderMembers ms) fun m hm => ?_
        exact legible_of_ofMembers? hms m (mem_of_mem_orderMembers hm) (hexact m hm)

theorem legible_of_ofItems? {room : Nat} {vs : List Skeleton} {ds : List Document}
    (h : Document.ofItems? room vs = some ds) : ∀ d ∈ ds, d.Exact → Legible room d := by
  cases vs with
  | nil =>
    cases h
    exact fun d hd => by cases hd
  | cons v vs =>
    rw [Document.ofItems?] at h
    split at h
    · next d ds' hd hds =>
      cases h
      intro e he hexact
      rcases List.mem_cons.1 he with rfl | he
      · exact legible_of_ofSkeleton? hd hexact
      · exact legible_of_ofItems? hds e he hexact
    · cases h

theorem legible_of_ofMembers? {room : Nat} {vs : List (List StringUnit × Skeleton)}
    {ms : List (String × Document)} (h : Document.ofMembers? room vs = some ms) :
    ∀ m ∈ ms, m.2.Exact → Legible room m.2 := by
  cases vs with
  | nil =>
    cases h
    exact fun m hm => by cases hm
  | cons v vs =>
    rw [Document.ofMembers?] at h
    split at h
    · next m ms' hm hms =>
      cases h
      intro n hn hexact
      rcases List.mem_cons.1 hn with rfl | hn
      · exact legible_of_ofMember? hm hexact
      · exact legible_of_ofMembers? hms n hn hexact
    · cases h

theorem legible_of_ofMember? {room : Nat} {v : List StringUnit × Skeleton}
    {m : String × Document} (h : Document.ofMember? room v = some m) (hexact : m.2.Exact) :
    Legible room m.2 := by
  obtain ⟨units, v⟩ := v
  rw [Document.ofMember?] at h
  split at h
  · next key d hkey hd =>
    cases h
    exact legible_of_ofSkeleton? hd hexact
  · cases h

end

/-! ### Which objects are encoded as arrays -/

/-- At most ten texts of indices from zero on are in order, because `10` comes before `2`. -/
theorem le_ten_of_ordered {f : Nat → String} {n : Nat} (htwo : f 2 = "2") (hten : f 10 = "10")
    (h : ((List.range n).map f).Pairwise (· < ·)) : n ≤ 10 := by
  refine Nat.not_lt.1 fun hlong => ?_
  have hlt := List.pairwise_iff_getElem.1 h 2 10 (by simp; omega) (by simpa using hlong) (by decide)
  rw [List.getElem_map, List.getElem_map, List.getElem_range, List.getElem_range, htwo, hten] at hlt
  exact absurd hlt (by decide)

theorem text_ofNat_of_lt_ten :
    ∀ i : Nat, i < 10 → Integer.text (Int64.ofNat i).toInt = Integer.text (i : Int) := by
  decide +kernel

/-- The keys of texts in order are the indices from zero on exactly if the texts are theirs. -/
theorem sequential_iff {texts : List String} (hordered : texts.Pairwise (· < ·)) :
    texts.map Key.ofText = Table.firstIndices texts.length ↔ texts = indexTexts texts.length := by
  have hsame : texts.length ≤ 10 → indexTexts texts.length =
      (Table.firstIndices texts.length).map keyText := by
    intro hle
    rw [indexTexts, Table.firstIndices, List.map_map]
    refine List.map_congr_left fun i hi => (text_ofNat_of_lt_ten i ?_).symm
    exact Nat.lt_of_lt_of_le (List.mem_range.1 hi) hle
  constructor
  · intro h
    have htexts : texts = (Table.firstIndices texts.length).map keyText := by
      rw [← h, List.map_map]
      exact ((List.map_congr_left fun s _ => keyText_ofText s).trans (List.map_id' _)).symm
    refine htexts.trans (hsame ?_).symm
    rw [htexts, Table.firstIndices, List.map_map] at hordered
    exact le_ten_of_ordered (by decide +kernel) (by decide +kernel) hordered
  · intro h
    have hle : texts.length ≤ 10 := by
      rw [h, indexTexts] at hordered
      exact le_ten_of_ordered (by decide +kernel) (by decide +kernel) hordered
    calc texts.map Key.ofText
        = ((Table.firstIndices texts.length).map keyText).map Key.ofText :=
          congrArg _ (h.trans (hsame hle))
      _ = Table.firstIndices texts.length := by
          rw [List.map_map, Table.firstIndices, List.map_map]
          exact List.map_congr_left fun i _ => ofText_keyText trivial

/-! ### Decoding and encoding -/

theorem keys_entries {t : Table Value} {members : List (String × Document)}
    (h : t.entries = members.map fun m => (Key.ofText m.1, m.2.value)) :
    t.keys = (members.map Prod.fst).map Key.ofText ∧
      t.values = members.map fun m => m.2.value := by
  rw [Table.keys, Table.values, h, List.map_map, List.map_map, List.map_map]
  exact ⟨rfl, rfl⟩

/-- The value of an object has an entry for each member. -/
theorem entries_ofEntries_of_ordered {members : List (String × Document)} (h : Ordered members) :
    (Table.ofEntries (Document.entries members)).entries =
      members.map fun m => (Key.ofText m.1, m.2.value) := by
  rw [Document.entries_eq]
  refine Table.entries_ofEntries ?_
  have htexts : ((members.map fun m => (Key.ofText m.1, m.2.value)).map Prod.fst).map keyText =
      members.map Prod.fst := by
    rw [List.map_map, List.map_map]
    exact List.map_congr_left fun m _ => keyText_ofText m.1
  exact List.Pairwise.of_map keyText (fun _ _ hne heq => hne (congrArg _ heq)) (htexts ▸ h.nodup)

/-- The document of a table is the relisted object of its entries in order. -/
theorem assemble_of_ordered {members : List (String × Document)} (hordered : Ordered members) :
    assemble ((members.map Prod.fst).map Key.ofText) (members.map Prod.snd) = relist members := by
  have hsequential : Table.sequentialFrom 0 ((members.map Prod.fst).map Key.ofText) = true ↔
      members.map Prod.fst = indexTexts members.length := by
    have hiff := sequential_iff (List.pairwise_map.2 hordered)
    rw [List.length_map] at hiff
    rw [Table.sequentialFrom_zero_iff, List.length_map, List.length_map, hiff]
  have hzip : ((members.map Prod.fst).map Key.ofText).zip (members.map Prod.snd) =
      members.map fun m => (Key.ofText m.1, m.2) := by
    rw [List.map_map, List.zip_map']
    rfl
  unfold assemble relist
  rw [hzip]
  by_cases hseq : members.map Prod.fst = indexTexts members.length
  · rw [if_pos hseq, if_pos (hsequential.2 hseq), List.map_map]
    rfl
  · rw [if_neg hseq, if_neg fun h => hseq (hsequential.1 h), List.map_map]
    have hmembers : members.map ((fun m => (keyText m.1, m.2)) ∘ fun m => (Key.ofText m.1, m.2)) =
        members.map fun m => m := List.map_congr_left fun m _ => Prod.ext (keyText_ofText m.1) rfl
    rw [hmembers, List.map_id', orderMembers_of_ordered hordered]

theorem Legible.relist {room : Nat} {members : List (String × Document)} (hordered : Ordered members)
    (h : ∀ m ∈ members, Legible room m.2) : Legible (room + 1) (relist members) := by
  unfold Json.relist
  split
  · refine .array fun d hd => ?_
    obtain ⟨m, hm, rfl⟩ := List.mem_map.1 hd
    exact h m hm
  · exact .object hordered h

/-- The value of a document is encoded as the document relisted, which is legible. -/
theorem Document.Exact.encode_value {d : Document} (h : d.Exact) {room : Nat}
    (hlegible : Legible room d) :
    (∀ vectors, encodeWith vectors d.value = .ok d.relisted) ∧ Legible room d.relisted := by
  induction h generalizing room with
  | null => exact ⟨fun _ => rfl, .null⟩
  | bool b => exact ⟨fun _ => rfl, .bool b⟩
  | @whole n hn =>
    refine ⟨fun vectors => ?_, .whole hn⟩
    rw [Document.value, Integer.ofInt?, if_pos hn]
    show Except.ok (Document.whole (Int64.ofInt n).toInt) = _
    rw [Integer.toInt_ofInt hn]
    rfl
  | negativeZero => exact ⟨fun _ => rfl, hlegible⟩
  | string s => exact ⟨fun _ => rfl, .string s⟩
  | @array items _ ih =>
    cases hlegible with
    | array hitems =>
      rw [relisted_array, Document.value_array]
      refine ⟨fun vectors => ?_, .array fun d hd => ?_⟩
      · rw [encodeWith, encodeItems_map fun d hd => (ih d hd (hitems d hd)).1 vectors]
        rfl
      · obtain ⟨e, he, rfl⟩ := List.mem_map.1 hd
        exact (ih e he (hitems e he)).2
  | @object members _ ih =>
    cases hlegible with
    | object hordered hmembers =>
      have hrelisted : Ordered (members.map fun m => (m.1, m.2.relisted)) :=
        List.pairwise_map.2 hordered
      obtain ⟨hkeys, hvalues⟩ := keys_entries (entries_ofEntries_of_ordered hordered)
      rw [relisted_object]
      refine ⟨fun vectors => ?_, .relist hrelisted fun m hm => ?_⟩
      · rw [Document.value, encodeWith, encodeTable_eq, hkeys, hvalues,
          encodeItems_map fun m hm => (ih m hm (hmembers m hm)).1 vectors,
          ← assemble_of_ordered hrelisted]
        simp only [List.map_map]
        rfl
      · obtain ⟨n, hn, rfl⟩ := List.mem_map.1 hm
        exact (ih n hn (hmembers n hn)).2

/-- Decoding a text and encoding the value denotes the same document, except that an object whose keys
are exactly the texts of the indices from zero on, in order, comes back as the array of its members'
documents. For a text whose numbers are all machine integers, decoding and encoding succeed, and the
text that results denotes the document of the first one with such objects relisted, at every depth. Of
members with the same key the last one counts in both. -/
theorem encode_decode_relisted {text : String} {d : Document} (h : Document.ofText? text = some d)
    (hexact : d.Exact) (s : Store) :
    ∃ v s' text', HostFunction.run .jsonDecode [.str text] s = (.ok v, s') ∧
      HostFunction.run .jsonEncode [v] s' = (.ok (.str text'), s') ∧
      Document.ofText? text' = some d.relisted := by
  have hlegible : Legible deepestNesting d := by
    obtain ⟨v, -, hv⟩ := Option.bind_eq_some_iff.1 h
    exact legible_of_ofSkeleton? hv hexact
  obtain ⟨hencode, hrelisted⟩ := hexact.encode_value hlegible
  obtain ⟨v, s', hdecode, hv⟩ := decode_bare d s
  refine ⟨v, s', d.relisted.render, (run_jsonDecode h s).trans hdecode, run_jsonEncode ?_ s',
    hrelisted.ofText?_render⟩
  intro vectors
  rw [← encodeWith_bare, hv, hencode]

/-- An object that comes back as an array, and one inside of it that does not. -/
theorem encode_decode_relisted_nested :
    let text := "\x7b\"0\":[1,-2],\"1\":\x7b\"a\":null\x7d\x7d"
    let d : Document :=
      .object [("0", .array [.whole 1, .whole (-2)]), ("1", .object [("a", .null)])]
    Document.ofText? text = some d ∧ d.Exact ∧
      d.relisted = .array [.array [.whole 1, .whole (-2)], .object [("a", .null)]] ∧
      ∃ v s' text', HostFunction.run .jsonDecode [.str text] Store.empty = (.ok v, s') ∧
        HostFunction.run .jsonEncode [v] s' = (.ok (.str text'), s') ∧
        Document.ofText? text' = some d.relisted := by
  intro text d
  have hexact : d.Exact := by
    refine .object fun m hm => ?_
    rcases List.mem_pair.1 hm with rfl | rfl
    · refine .array fun e he => ?_
      rcases List.mem_pair.1 he with rfl | rfl <;> exact .whole (by decide)
    · refine .object fun n hn => ?_
      rw [List.mem_singleton.1 hn]
      exact .null
  have hlegible : Legible deepestNesting d := by
    have hordered : "0" < "1" := by decide
    refine .object (List.pairwise_pair.2 hordered) fun m hm => ?_
    rcases List.mem_pair.1 hm with rfl | rfl
    · refine .array fun e he => ?_
      rcases List.mem_pair.1 he with rfl | rfl <;> exact .whole (by decide)
    · refine .object (List.pairwise_singleton ..) fun n hn => ?_
      rw [List.mem_singleton.1 hn]
      exact .null
  have htext : Document.ofText? text = some d := by
    have hrender : text = d.render := by rfl
    rw [hrender]
    exact hlegible.ofText?_render
  exact ⟨htext, hexact, rfl, encode_decode_relisted htext hexact Store.empty⟩

/-- The empty object comes back as the empty array. -/
theorem encode_decode_empty_object :
    Document.ofText? "\x7b\x7d" = some (.object []) ∧ (Document.object []).Exact ∧
      HostFunction.run .jsonDecode [.str "\x7b\x7d"] Store.empty =
        (.ok (.array .empty), Store.empty) ∧
      HostFunction.run .jsonEncode [.array .empty] Store.empty = (.ok (.str "[]"), Store.empty) ∧
      Document.ofText? "[]" ≠ Document.ofText? "\x7b\x7d" := by
  have hobject : Legible deepestNesting (.object []) := .object .nil fun m hm => by cases hm
  have harray : Legible deepestNesting (.array []) := .array fun d hd => by cases hd
  have hdenotes : Document.ofText? "\x7b\x7d" = some (.object []) := hobject.ofText?_render
  have hlisted : Document.ofText? "[]" = some (.array []) := harray.ofText?_render
  refine ⟨hdenotes, .object (fun m hm => by cases hm), run_jsonDecode hdenotes _,
    run_jsonEncode (d := .array []) (fun _ => rfl) _, ?_⟩
  rw [hdenotes, hlisted]
  simp

end Json

end ConfinedLisp
