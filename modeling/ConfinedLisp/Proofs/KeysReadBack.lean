import ConfinedLisp.Proofs.Appending
import ConfinedLisp.Proofs.JsonRoundTrip

/-!
# Keys that are read back

The keys of a table are handed out as values and written as texts. A key that is an integer or a name
stands for itself again, unless it is a name that looks like an integer. Such a name comes from a
symbol and from nothing else. So the keys of a table that was made without such a symbol are read back.

## Main definitions

- `Evaluator.EvaluatesEntries`: the keys and values that the entries of a `dict` come to.
- `Table.enterAll?`: the table with these entries.
- `Table.ListsKeys`, `Table.EncodesKeys`: each entry is found under its listed key, and has a member
  of its own.

## Main results

- `Key.ofValue?_toValue_iff`: the keys that are read back.
- `Table.proper_enterAll_iff`: the entries that lead to no other keys.
- `SpecialForm.dict_keys_read_back`: what follows for the tables of `dict`.
-/

namespace ConfinedLisp

/-! ### Keys and values -/

namespace Key

theorem isProper_ofText (s : String) : (ofText s).IsProper := by
  cases h : Integer.ofCanonicalText? s with
  | some n =>
    rw [ofText, h]
    trivial
  | none =>
    rw [ofText, h]
    intro n hn
    cases h.symm.trans (Integer.ofCanonicalText?_eq_some_iff.2 hn)

/-- A key is read back exactly if it is not a name that looks like an integer. -/
theorem ofValue?_toValue_iff {key : Key} : ofValue? key.toValue = some key ↔ key.IsProper := by
  cases key with
  | index n => exact ⟨fun _ => trivial, fun _ => rfl⟩
  | name s =>
    rw [toValue, ofValue?, Option.some.injEq]
    exact ⟨fun h => h ▸ isProper_ofText s, Json.ofText_keyText⟩

/-- Only a symbol stands for a name that looks like an integer. -/
theorem isProper_iff_of_ofValue? {v : Value} {key : Key} (h : ofValue? v = some key) :
    key.IsProper ↔ ∀ n : Int64, v ≠ .sym (Integer.text n.toInt) := by
  cases v with
  | int n =>
    cases h
    exact iff_of_true trivial fun _ h => by cases h
  | float x =>
    obtain ⟨i, -, rfl⟩ := Option.map_eq_some_iff.1 h
    exact iff_of_true trivial fun _ h => by cases h
  | bool b =>
    cases h
    exact iff_of_true trivial fun _ h => by cases h
  | nil =>
    cases h
    exact iff_of_true (isProper_ofText "") fun _ h => by cases h
  | str s =>
    cases h
    exact iff_of_true (isProper_ofText s) fun _ h => by cases h
  | sym s =>
    cases h
    simp only [IsProper, ne_eq, Value.sym.injEq]
  | _ => cases h

end Key

/-! ### The entries of a table -/

namespace Table

/-- The table with one more entry, with the key that a value stands for or without a key of its own.
There is none if the value stands for no key. -/
def enter? (t : Table Value) : Option Value × Value → Option (Table Value)
  | (none, v) => some (t.push v)
  | (some k, v) => (Key.ofValue? k).map fun key => t.insert key v

/-- The table with more entries. -/
def enterAll? : Table Value → List (Option Value × Value) → Option (Table Value)
  | t, [] => some t
  | t, e :: rest => (t.enter? e).bind fun u => u.enterAll? rest

variable {t u : Table Value}

theorem enter?_built {e : Option Value × Value} (h : t.Built) (hu : t.enter? e = some u) :
    u.Built := by
  obtain ⟨k?, v⟩ := e
  cases k? with
  | none =>
    cases hu
    exact h.push v
  | some k =>
    obtain ⟨key, -, rfl⟩ := Option.map_eq_some_iff.1 hu
    exact h.insert key v

theorem Indexed.mem_keys_insert (h : t.Indexed) {key other : Key} {v : Value} :
    other ∈ (t.insert key v).keys ↔ other ∈ t.keys ∨ other = key := by
  by_cases hmem : key ∈ t.keys
  · rw [h.keys_insert_of_mem v hmem]
    exact ⟨Or.inl, fun h => h.elim id fun h => h ▸ hmem⟩
  · rw [h.keys_insert_of_notMem v hmem, List.mem_append, List.mem_singleton]

/-- The keys stay proper exactly if the entry brings no symbol that looks like an integer. -/
theorem proper_enter_iff {e : Option Value × Value} (h : t.Built) (hu : t.enter? e = some u) :
    (∀ key ∈ u.keys, key.IsProper) ↔
      (∀ key ∈ t.keys, key.IsProper) ∧ ∀ n : Int64, e.1 ≠ some (.sym (Integer.text n.toInt)) := by
  have hinsert : ∀ key v, (∀ other ∈ (t.insert key v).keys, other.IsProper) ↔
      (∀ other ∈ t.keys, other.IsProper) ∧ key.IsProper := fun key v => by
    simp only [h.sound.indexed.mem_keys_insert, or_imp, forall_and, forall_eq]
  obtain ⟨k?, v⟩ := e
  cases k? with
  | none =>
    cases hu
    rw [Table.push, hinsert]
    exact and_congr_right fun _ => iff_of_true trivial fun _ h => by cases h
  | some k =>
    obtain ⟨key, hkey, rfl⟩ := Option.map_eq_some_iff.1 hu
    rw [hinsert, Key.isProper_iff_of_ofValue? hkey]
    simp only [ne_eq, Option.some.injEq]

/-- The keys of a table are read back exactly if no symbol that looks like an integer was among the
given keys. -/
theorem proper_enterAll_iff {given : List (Option Value × Value)} (h : t.Built)
    (hu : t.enterAll? given = some u) :
    (∀ key ∈ u.keys, key.IsProper) ↔ (∀ key ∈ t.keys, key.IsProper) ∧
      ∀ e ∈ given, ∀ n : Int64, e.1 ≠ some (.sym (Integer.text n.toInt)) := by
  induction given generalizing t with
  | nil =>
    cases hu
    simp
  | cons e rest ih =>
    obtain ⟨t', ht', hu⟩ := Option.bind_eq_some_iff.1 hu
    rw [ih (enter?_built h ht') hu, proper_enter_iff h ht', and_assoc, List.forall_mem_cons]

end Table

namespace Evaluator

/-- Evaluating the entries of a `dict` in turn: the key and the value of each, the key of a pair before
its value. An entry that is not a pair has no key; its parentheses are left out if it stands alone in
them. -/
inductive EvaluatesEntries (ev : Evaluator) (scope : FrameId) :
    List Value → Store → List (Option Value × Value) → Store → Prop where
  | nil {s : Store} : EvaluatesEntries ev scope [] s [] s
  | pair {id : Identity} {key form k v : Value} {rest : List Value} {s t u s' : Store}
      {given : List (Option Value × Value)} :
      ev key scope s = (.ok k, t) → ev form scope t = (.ok v, u) →
        EvaluatesEntries ev scope rest u given s' →
          EvaluatesEntries ev scope (.list id [key, form] :: rest) s ((some k, v) :: given) s'
  | single {id : Identity} {form v : Value} {rest : List Value} {s t s' : Store}
      {given : List (Option Value × Value)} :
      ev form scope s = (.ok v, t) → EvaluatesEntries ev scope rest t given s' →
        EvaluatesEntries ev scope (.list id [form] :: rest) s ((none, v) :: given) s'
  | other {form v : Value} {rest : List Value} {s t s' : Store}
      {given : List (Option Value × Value)} :
      (∀ id items, form = .list id items → items.length ≠ 1 ∧ items.length ≠ 2) →
        ev form scope s = (.ok v, t) → EvaluatesEntries ev scope rest t given s' →
          EvaluatesEntries ev scope (form :: rest) s ((none, v) :: given) s'

theorem key_of_operand {callee : String} {k : Value} {key : Key} {s s' : Store}
    (h : Eval.ofExcept (Operands.key callee k) s = (.ok key, s')) :
    Key.ofValue? k = some key ∧ s = s' := by
  cases hk : Key.ofValue? k with
  | none =>
    rw [Operands.key, hk] at h
    cases h
  | some key' =>
    rw [Operands.key, hk] at h
    cases h
    exact ⟨rfl, rfl⟩

/-- A `dict` that gives a table enters what its entries come to. -/
theorem exists_evaluatesEntries {ev : Evaluator} {scope : FrameId} {forms : List Value}
    {t u : Table Value} {s s' : Store} (h : ev.entries scope t forms s = (.ok u, s')) :
    ∃ given, ev.EvaluatesEntries scope forms s given s' ∧ t.enterAll? given = some u := by
  induction forms generalizing t s with
  | nil =>
    cases h
    exact ⟨[], .nil, rfl⟩
  | cons form rest ih =>
    by_cases hpair : ∃ id key value, form = .list id [key, value]
    · obtain ⟨id, key, value, rfl⟩ := hpair
      rw [Evaluator.entries] at h
      obtain ⟨k, t₁, hkey, h⟩ := Eval.bind_eq_ok_iff.1 h
      obtain ⟨v, t₂, hvalue, h⟩ := Eval.bind_eq_ok_iff.1 h
      obtain ⟨key, t₃, hoperand, h⟩ := Eval.bind_eq_ok_iff.1 h
      obtain ⟨hk, rfl⟩ := key_of_operand hoperand
      obtain ⟨given, hgiven, hu⟩ := ih h
      exact ⟨_, .pair hkey hvalue hgiven, by simp [Table.enterAll?, Table.enter?, hk, hu]⟩
    · by_cases hsingle : ∃ id value, form = .list id [value]
      · obtain ⟨id, value, rfl⟩ := hsingle
        rw [Evaluator.entries] at h
        obtain ⟨v, t₁, hvalue, h⟩ := Eval.bind_eq_ok_iff.1 h
        obtain ⟨given, hgiven, hu⟩ := ih h
        exact ⟨_, .single hvalue hgiven, hu⟩
      · rw [Evaluator.entries] at h
        · obtain ⟨v, t₁, hvalue, h⟩ := Eval.bind_eq_ok_iff.1 h
          obtain ⟨given, hgiven, hu⟩ := ih h
          refine ⟨_, .other ?_ hvalue hgiven, hu⟩
          rintro id items rfl
          refine ⟨fun hlength => ?_, fun hlength => ?_⟩
          · obtain ⟨x, rfl⟩ := List.length_eq_one_iff.1 hlength
            exact hsingle ⟨id, x, rfl⟩
          · obtain ⟨x, y, rfl⟩ := List.length_eq_two.1 hlength
            exact hpair ⟨id, x, y, rfl⟩
        · exact fun id key value heq => hpair ⟨id, key, value, heq⟩
        · exact fun id value heq => hsingle ⟨id, value, heq⟩

end Evaluator

/-! ### Encoded keys -/

namespace Json

theorem length_of_encodeItems {vectors : VectorId → Except Halt Document} {vs : List Value}
    {ds : List Document} (h : encodeItems vectors vs = .ok ds) : ds.length = vs.length := by
  induction vs generalizing ds with
  | nil =>
    cases h
    rfl
  | cons v vs ih =>
    rw [encodeItems_cons] at h
    cases hv : encodeWith vectors v with
    | error halt =>
      rw [hv] at h
      cases h
    | ok d =>
      cases hvs : encodeItems vectors vs with
      | error halt =>
        rw [hv, hvs] at h
        cases h
      | ok ds =>
        rw [hv, hvs] at h
        cases h
        rw [List.length_cons, List.length_cons, ih hvs]

theorem encode_of_run {s s' : Store} {v : Value} {text : String}
    (h : HostFunction.run .jsonEncode [v] s = (.ok (.str text), s')) :
    ∃ d, encode s v = .ok d ∧ d.render = text := by
  have hrun := (Store.jsonEncode_single v s).symm.trans h
  cases hencode : encode s v with
  | error halt =>
    rw [hencode] at hrun
    cases hrun
  | ok d =>
    rw [hencode] at hrun
    cases hrun
    exact ⟨d, rfl, rfl⟩

/-- The document of a table is put together from as many documents as there are keys. -/
theorem encode_table {s : Store} {t : Table Value} {d : Document}
    (h : encode s (.array t) = .ok d) :
    ∃ ds, ds.length = t.keys.length ∧ assemble t.keys ds = d := by
  have htable := (encodeTable_eq _ t).symm.trans h
  cases hitems : encodeItems (encodeVector s (s.vectors.size + 1)) t.values with
  | error halt =>
    rw [hitems] at htable
    cases htable
  | ok ds =>
    rw [hitems] at htable
    refine ⟨ds, ?_, Except.ok.inj htable⟩
    rw [length_of_encodeItems hitems]
    simp [Table.values, Table.keys]

/-- Keys with distinct texts that are not sequential become the names of as many members. -/
theorem assemble_members {keys : List Key} {ds : List Document}
    (hsequential : Table.sequentialFrom 0 keys = false) (hnodup : (keys.map keyText).Nodup)
    (hlength : ds.length = keys.length) :
    ∃ members, assemble keys ds = .object members ∧
      (members.map Prod.fst).Perm (keys.map keyText) := by
  have hnames : (((keys.zip ds).map fun m => (keyText m.1, m.2)).map Prod.fst) =
      keys.map keyText := by
    rw [List.map_map, show Prod.fst ∘ (fun m : Key × Document => (keyText m.1, m.2)) =
      keyText ∘ Prod.fst from rfl, ← List.map_map, List.map_fst_zip (by omega)]
  refine ⟨_, if_neg (by simp [hsequential]), ?_⟩
  rw [orderMembers_of_nodup (hnames ▸ hnodup), ← hnames]
  exact (List.mergeSort_perm ..).map Prod.fst

end Json

/-! ### Listed keys -/

namespace Table

theorem get?_ofValues {α : Type} {vs : List α} {v : α} {i : Nat}
    (h : (vs.length : Int) ≤ Integer.greatest + 1) (hi : vs[i]? = some v) :
    (ofValues vs).get? (.index (Int64.ofNat i)) = some v := by
  obtain ⟨hkeys, hvalues⟩ := ofValues_spec h
  have hlt : i < vs.length := (List.getElem?_eq_some_iff.1 hi).1
  have hposition : (ofValues vs).position? (.index (Int64.ofNat i)) = some i := by
    rw [(Built.ofValues vs).sound.indexed.position?_eq_some_iff, hkeys]
    simp [firstIndices, hlt]
  rw [get?_of_position? hposition, hvalues, hi]

theorem elementAt_of_get? {t : Table Value} {k v : Value} {key : Key}
    (hk : Key.ofValue? k = some key) (hv : t.get? key = some v) :
    Collection.elementAt [.array t, k] = .ok v := by
  have hfound : Collection.element? "at" "at" (.array t) k = .ok (some v) := by
    simp [Collection.element?, Operands.key, hk, hv, Except.map]
  show (Collection.element? "at" "at" (.array t) k >>= _) = _
  rw [hfound]
  rfl

theorem elementAt_of_get?_none {t : Table Value} {k : Value} {key : Key}
    (hk : Key.ofValue? k = some key) (hv : t.get? key = none) (v : Value) :
    Collection.elementAt [.array t, k] ≠ .ok v := by
  have hfound : Collection.element? "at" "at" (.array t) k = .ok none := by
    simp [Collection.element?, Operands.key, hk, hv, Except.map]
  show (Collection.element? "at" "at" (.array t) k >>= _) ≠ _
  rw [hfound]
  intro h
  cases h

/-- The keys and the values of a table can be listed, and under each key that is listed stands the
value that is listed in the same place. -/
def ListsKeys (t : Table Value) : Prop :=
  ∃ ks vs : Table Value, Host.arrayKeys [.array t] = .ok (.array ks) ∧
    Host.arrayValues [.array t] = .ok (.array vs) ∧ ks.size = t.size ∧ vs.size = t.size ∧
    ∀ i < t.size, ∃ key v, Collection.elementAt [.array ks, .int (Int64.ofNat i)] = .ok key ∧
      Collection.elementAt [.array vs, .int (Int64.ofNat i)] = .ok v ∧
      Collection.elementAt [.array t, key] = .ok v

/-- If a table that is not sequential is encoded, it becomes an object with one member for each entry,
under the text of its key. -/
def EncodesKeys (t : Table Value) : Prop :=
  t.isSequential = false → ∀ s text s',
    HostFunction.run .jsonEncode [.array t] s = (.ok (.str text), s') →
      ∃ members, text = (Json.Document.object members).render ∧ (members.map Prod.fst).Nodup ∧
        (members.map Prod.fst).Perm (t.keys.map Json.keyText) ∧ members.length = t.size ∧
        Collection.count [.array t] = .ok (.int (Int64.ofNat members.length))

variable {t : Table Value}

theorem listsKeys (h : t.Built) (hproper : ∀ key ∈ t.keys, key.IsProper)
    (hsize : (t.size : Int) ≤ Integer.greatest) : t.ListsKeys := by
  have hkeys : (t.keys.map Key.toValue).length = t.size := by
    rw [List.length_map, size_eq_length_keys]
  have hvalues : t.values.length = t.size := by simp [values, entries, size]
  have hsizes : ∀ vs : List Value, vs.length = t.size → (ofValues vs).size = t.size := by
    intro vs hvs
    have hspec : (ofValues vs).keys = firstIndices vs.length := (ofValues_spec (by omega)).1
    rw [size_eq_length_keys, hspec, ← hvs]
    simp [firstIndices]
  refine ⟨_, _, rfl, rfl, hsizes _ hkeys, hsizes _ hvalues, fun i hi => ?_⟩
  obtain ⟨e, he⟩ : ∃ e, t.entries[i]? = some e := by
    have hlt : i < t.entries.length := by simpa [entries, size] using hi
    exact ⟨_, List.getElem?_eq_getElem hlt⟩
  have hkey : t.keys[i]? = some e.1 := by simp [keys, he]
  have hvalue : t.values[i]? = some e.2 := by simp [values, he]
  refine ⟨e.1.toValue, e.2, ?_, ?_, ?_⟩
  · refine elementAt_of_get? rfl (get?_ofValues (by omega) ?_)
    rw [List.getElem?_map, hkey]
    rfl
  · exact elementAt_of_get? rfl (get?_ofValues (by omega) hvalue)
  · refine elementAt_of_get? (Key.ofValue?_toValue_iff.2 (hproper _ (List.mem_of_getElem? hkey))) ?_
    exact h.sound.indexed.get?_eq_some_iff.2 (List.mem_of_getElem? he)

theorem encodesKeys (h : t.Built) (hproper : ∀ key ∈ t.keys, key.IsProper) : t.EncodesKeys := by
  intro hsequential s text s' hrun
  obtain ⟨d, hencode, rfl⟩ := Json.encode_of_run hrun
  obtain ⟨ds, hlength, rfl⟩ := Json.encode_table hencode
  have hnodup : (t.keys.map Json.keyText).Nodup := by
    have htexts := Json.nodup_keyText h.sound.distinct hproper
    rwa [show (fun e : Key × Value => Json.keyText e.1) = Json.keyText ∘ Prod.fst from rfl,
      ← List.map_map] at htexts
  obtain ⟨members, hmembers, hperm⟩ := Json.assemble_members hsequential hnodup hlength
  have hcount : members.length = t.size := by
    have := hperm.length_eq
    rwa [List.length_map, List.length_map, ← size_eq_length_keys] at this
  refine ⟨members, by rw [hmembers], hperm.nodup_iff.2 hnodup, hperm, hcount, ?_⟩
  rw [hcount]
  rfl

end Table

/-- The keys of a table that `dict` makes are read back exactly if none of the keys that it was given
is a symbol that looks like an integer. In that case the table has its values under the keys as they
are listed, if there are integers to number them, and unless it is sequential it is encoded, if at
all, as an object with a member for each entry. -/
theorem SpecialForm.dict_keys_read_back {ev : Evaluator} {scope : FrameId} {operands : List Value}
    {s s' : Store} {t : Table Value}
    (hrun : SpecialForm.run .dict ev scope operands s = (.ok (.array t), s')) :
    ∃ given, ev.EvaluatesEntries scope operands s given s' ∧ Table.empty.enterAll? given = some t ∧
      ((∀ key ∈ t.keys, Key.ofValue? key.toValue = some key) ↔
        ∀ e ∈ given, ∀ n : Int64, e.1 ≠ some (.sym (Integer.text n.toInt))) ∧
      ((∀ e ∈ given, ∀ n : Int64, e.1 ≠ some (.sym (Integer.text n.toInt))) →
        ((t.size : Int) ≤ Integer.greatest → t.ListsKeys) ∧ t.EncodesKeys) := by
  obtain ⟨u, s₁, hentries, hresult⟩ := Eval.bind_eq_ok_iff.1 hrun
  cases hresult
  obtain ⟨given, hgiven, hu⟩ := Evaluator.exists_evaluatesEntries hentries
  have hbuilt : t.Built := Evaluator.entries_built ev scope .empty operands _ _ _ hentries
  have hempty : ∀ key ∈ (Table.empty : Table Value).keys, key.IsProper := by
    intro key hkey
    cases hkey
  have hiff := (Table.proper_enterAll_iff .empty hu).trans (and_iff_right hempty)
  refine ⟨given, hgiven, hu, ?_, fun hsymbols => ?_⟩
  · rw [← hiff]
    exact forall₂_congr fun key _ => Key.ofValue?_toValue_iff
  · have hproper := hiff.2 hsymbols
    exact ⟨Table.listsKeys hbuilt hproper, Table.encodesKeys hbuilt hproper⟩

/-- A text of digits and a truth value come to integers, and `nil` to a name. -/
theorem SpecialForm.dict_keys_read_back_mixed :
    let operands : List Value :=
      [.list 1 [.str "12", .int 1], .list 2 [.bool true, .int 2], .list 3 [.nil, .int 3], .int 4]
    let t : Table Value :=
      (((Table.empty.insert (.index 12) (.int 1)).insert (.index 1) (.int 2)).insert (.name "")
        (.int 3)).push (.int 4)
    SpecialForm.run .dict (evaluateWithin 1) 0 operands .empty = (.ok (.array t), .empty) ∧
      t.ListsKeys ∧ t.EncodesKeys := by
  intro operands t
  have hrun : SpecialForm.run .dict (evaluateWithin 1) 0 operands .empty =
      (.ok (.array t), .empty) := by rfl
  obtain ⟨given, -, -, hiff, hread⟩ := SpecialForm.dict_keys_read_back hrun
  have hkeys : ∀ key ∈ t.keys, Key.ofValue? key.toValue = some key := by decide +kernel
  obtain ⟨hlists, hencodes⟩ := hread (hiff.1 hkeys)
  exact ⟨hrun, hlists (by decide +kernel), hencodes⟩

/-- A `dict` with one entry that has a key. -/
theorem SpecialForm.run_dict_pair {ev : Evaluator} {scope : FrameId} {form form' k v : Value}
    {key : Key} {s t u : Store} (hk : ev form scope s = (.ok k, t))
    (hv : ev form' scope t = (.ok v, u)) (hkey : Key.ofValue? k = some key) (id : Identity) :
    SpecialForm.run .dict ev scope [.list id [form, form']] s =
      (.ok (.array (Table.empty.insert key v)), u) := by
  have hoperand : Eval.ofExcept (Operands.key "dict" k) u = (.ok key, u) := by
    rw [Operands.key, hkey]
    rfl
  have hentries : ev.entries scope .empty [.list id [form, form']] s =
      (.ok (Table.empty.insert key v), u) :=
    (Eval.bind_of_ok hk _).trans ((Eval.bind_of_ok hv _).trans (Eval.bind_of_ok hoperand _))
  exact Eval.bind_of_ok hentries _

/-- In a fresh sandbox `(dict ((symbol "12") 1))` makes a table with the name `12`. As a value this
name stands for an integer, under which the table has nothing. -/
theorem SpecialForm.dict_symbol_key_not_read_back :
    let fresh := Store.empty.withEngine .standard {}
    let t : Table Value := Table.empty.insert (.name "12") (.int 1)
    (∃ s, SpecialForm.run .dict fresh.evaluator 0
      [.list 1 [.list 0 [.sym "symbol", .str "12"], .int 1]] fresh = (.ok (.array t), s)) ∧
      t.keys = [.name "12"] ∧ Key.ofValue? (Key.name "12").toValue = some (.index 12) ∧
      t.contains (.index 12) = false ∧ ¬ t.ListsKeys := by
  intro fresh t
  have hsymbol : Assoc.find? "symbol" Engine.seed =
    some (.callable (.primitive (.operation .symbol) none)) := by rfl
  have hkeys : t.keys = [.name "12"] := by decide +kernel
  have hvalue : Key.ofValue? (Key.name "12").toValue = some (.index 12) := by decide +kernel
  have habsent : t.contains (.index 12) = false := by decide +kernel
  refine ⟨?_, hkeys, hvalue, habsent, ?_⟩
  · have hkey : evaluateWithin 201 (.list 0 [.sym "symbol", .str "12"]) 0
        (.sole ⟨.standard, {}, 0, 0⟩ Engine.seed #[] 0) =
          (.ok (.sym "12"), .sole ⟨.standard, {}, 0, 1⟩ Engine.seed #[] 1) :=
      Store.evaluateWithin_sole (r := ⟨.standard, {}, 0, 0⟩) rfl (Nat.zero_lt_succ _) hsymbol rfl 0
    have hfresh : fresh = .sole ⟨.standard, {}, 0, 0⟩ Engine.seed #[] 0 := Store.withEngine_empty ..
    rw [hfresh, Store.evaluator_sole]
    exact ⟨_, SpecialForm.run_dict_pair hkey rfl rfl 1⟩
  · rintro ⟨ks, vs, hks, -, -, -, hread⟩
    obtain ⟨key, v, hkey, -, hat⟩ := hread 0 (by decide +kernel)
    have hlisted : ks = Table.ofValues (t.keys.map Key.toValue) := by
      cases hks
      rfl
    have hfirst : Collection.elementAt [.array ks, .int (Int64.ofNat 0)] = .ok (.str "12") := by
      rw [hlisted, hkeys]
      exact Table.elementAt_of_get? rfl (Table.get?_ofValues (by decide) rfl)
    cases hfirst.symm.trans hkey
    have hne : Key.index 12 ≠ .name "12" := nofun
    have hget : t.get? (.index 12) = none :=
      (Table.indexed_empty.get?_insert_of_ne hne _).trans rfl
    exact Table.elementAt_of_get?_none hvalue hget v hat

end ConfinedLisp
