import ConfinedLisp.Proofs.Appending

/-!
# Indexed access

`at` gives the element of a collection at a position or key, `exists-at?` says whether there is one, and
`count` how many there are. The three agree: what `exists-at?` affirms `at` finds, what it denies is out
of range for `at`, and the two refuse the same positions and keys. The positions of lists and strings
are the integers from zero up to the count. In a table `exists-at?` asks the index alone, and `at` goes
on from there to the entries; that the two agree rests on the index, which is right in every table that
was built.

## Main definitions

- `Value.whole?`: the integer that a number is.
- `Value.extent`: the number of items, entries or characters.
- `Operation.Access`: the ways in which `at` and `exists-at?` end for one position or key.

## Main results

- `Collection.hasElement_eq`: seeking an element is finding it.
- `Operation.access_agrees`: how the three operations are related.
-/

namespace ConfinedLisp

namespace Value

/-- The integer that a number is, if it is whole. -/
def whole? : Value → Option Int
  | .int n => some n.toInt
  | .float x => Double.whole? x
  | _ => none

/-- The number of items of a list, entries of a table or characters of a string. -/
def extent : Value → Nat
  | .list _ items => items.length
  | .array t => t.entries.length
  | .str s => s.toList.length
  | _ => 0

/-- The values that have elements. -/
def IsCollection (v : Value) : Prop := v.kind = .list ∨ v.kind = .array ∨ v.kind = .string

end Value

/-! ### Positions -/

namespace Operands

variable {v : Value}

theorem integer_of_whole? {i : Int} (callee : String) (h : v.whole? = some i) :
    integer callee v = .ok (Integer.saturate i) := by
  cases v with
  | int n =>
    cases h
    have hrange := Integer.inRange_toInt n
    have hsame : (Integer.saturate n.toInt).toInt = n.toInt := by
      rw [Integer.toInt_saturate]
      obtain ⟨hleast, hgreatest⟩ := hrange
      omega
    rw [integer, Int64.toInt_inj.1 hsame]
  | float x =>
    have hx : Double.whole? x = some i := h
    simp only [integer, hx]
  | _ => cases h

theorem integer_of_whole?_eq_none (callee : String) (h : v.whole? = none) :
    integer callee v = .error (mismatch callee .integer v) := by
  cases v with
  | int n => cases h
  | float x =>
    have hx : Double.whole? x = none := h
    simp only [integer, hx]
  | _ => rfl

end Operands

namespace Collection

variable {α : Type}

/-- There is an element at a position exactly if the position is one from zero up to the number of
elements. -/
theorem isSome_atPosition? (items : List α) (n : Int64) :
    (atPosition? items n).isSome = decide (0 ≤ n.toInt ∧ n.toInt < (items.length : Int)) := by
  unfold atPosition?
  by_cases hneg : n.toInt < 0
  · have hout : ¬ (0 ≤ n.toInt ∧ n.toInt < (items.length : Int)) := by omega
    rw [if_pos hneg, decide_eq_false hout]
    rfl
  · have hplace : items[n.toInt.toNat]?.isSome = true ↔ n.toInt.toNat < items.length := by simp
    rw [if_neg hneg, Bool.eq_iff_iff, decide_eq_true_iff, hplace]
    omega

/-- A machine integer that a number is rounded to lies within a range of machine integers exactly if
the number does. -/
theorem saturate_within {size : Nat} (h : (size : Int) ≤ Integer.greatest) (i : Int) :
    0 ≤ (Integer.saturate i).toInt ∧ (Integer.saturate i).toInt < (size : Int) ↔
      0 ≤ i ∧ i < (size : Int) := by
  have hvalue := Integer.toInt_saturate i
  have hleast : Integer.least < 0 := by decide
  omega

/-! ### Seeking and finding -/

variable {c k : Value}

/-- If the index is right, there is an entry at each position that it has. -/
theorem isSome_get? {t : Table Value} (h : t.Indexed) (key : Key) :
    (t.get? key).isSome = t.contains key := by
  rw [Table.contains_eq_isSome_position?]
  cases hfound : t.position? key with
  | none => simp [Table.get?, hfound]
  | some i =>
    have hkey := (h key i).1 hfound
    cases hslot : t.slots[i]? with
    | none => simp [Table.keyAt?, hslot] at hkey
    | some slot => simp [Table.get?, hfound, hslot]

/-- Whether there is an element is whether one is found. -/
theorem hasElement_eq (hc : c.Tidy) (callee positional : String) (k : Value) :
    hasElement callee positional c k = (element? callee positional c k).map Option.isSome := by
  cases c with
  | list id items =>
    rw [hasElement, element?]
    cases Operands.integer positional k with
    | error e => rfl
    | ok n => exact congrArg Except.ok (isSome_atPosition? items n).symm
  | array t =>
    rw [hasElement, element?]
    cases Operands.key callee k with
    | error e => rfl
    | ok key => exact congrArg Except.ok (isSome_get? (hc t rfl).sound.indexed key).symm
  | str s =>
    rw [hasElement, element?]
    cases Operands.integer positional k with
    | error e => rfl
    | ok n => exact congrArg Except.ok Option.isSome_map.symm
  | _ => rfl

/-- In a collection an element is found or not, whoever seeks it, or else the position is no integer or
the key no key. -/
theorem element?_cases (hc : c.IsCollection) (k : Value) :
    (∃ found, ∀ callee, element? callee "at" c k = .ok found) ∨
      ∀ callee, ∃ callee' expected,
        element? callee "at" c k = .error (.typeMismatch callee' expected k.kind) := by
  cases c with
  | list id items =>
    cases hk : k.whole? with
    | none => exact .inr fun callee => ⟨"at", .integer, by
        rw [element?, Operands.integer_of_whole?_eq_none "at" hk]; rfl⟩
    | some i => exact .inl ⟨_, fun callee => by
        rw [element?, Operands.integer_of_whole? "at" hk]; rfl⟩
  | array t =>
    cases hk : Key.ofValue? k with
    | none => exact .inr fun callee => ⟨callee, .key, by rw [element?, Operands.key, hk]; rfl⟩
    | some key => exact .inl ⟨_, fun callee => by rw [element?, Operands.key, hk]; rfl⟩
  | str s =>
    cases hk : k.whole? with
    | none => exact .inr fun callee => ⟨"at", .integer, by
        rw [element?, Operands.integer_of_whole?_eq_none "at" hk]; rfl⟩
    | some i => exact .inl ⟨_, fun callee => by
        rw [element?, Operands.integer_of_whole? "at" hk]; rfl⟩
  | _ => simp [Value.IsCollection, Value.kind] at hc

/-- Lists and strings have an element at each integer from zero up to their size. -/
theorem hasElement_eq_true_iff (hc : c.kind = .list ∨ c.kind = .string)
    (hsize : (c.extent : Int) ≤ Integer.greatest) (callee positional : String) (k : Value) :
    hasElement callee positional c k = .ok true ↔
      ∃ i, k.whole? = some i ∧ 0 ≤ i ∧ i < (c.extent : Int) := by
  have hsame : hasElement callee positional c k = (Operands.integer positional k).map fun n =>
      decide (0 ≤ n.toInt ∧ n.toInt < (c.extent : Int)) := by
    cases c with
    | list id items => rfl
    | str t =>
      rw [hasElement]
      exact congrArg (Except.map · (Operands.integer positional k))
        (funext fun n => isSome_atPosition? t.toList n)
    | _ => simp [Value.kind] at hc
  rw [hsame]
  cases hk : k.whole? with
  | none =>
    rw [Operands.integer_of_whole?_eq_none positional hk]
    exact ⟨fun h => (by cases h), fun ⟨i, hi, _⟩ => (by cases hi)⟩
  | some i =>
    have hwithin := saturate_within hsize i
    rw [Operands.integer_of_whole? positional hk]
    constructor
    · intro h
      have htrue := of_decide_eq_true (Except.ok.inj h)
      exact ⟨i, rfl, hwithin.1 htrue⟩
    · rintro ⟨j, hj, hinside⟩
      cases hj
      exact congrArg Except.ok (decide_eq_true (hwithin.2 hinside))

/-- Tables have an element under the key of each entry. -/
theorem hasElement_array_eq_true_iff {t : Table Value} (ht : t.Indexed) (callee positional : String)
    (k : Value) :
    hasElement callee positional (.array t) k = .ok true ↔
      ∃ key v, Key.ofValue? k = some key ∧ (key, v) ∈ t.entries := by
  rw [hasElement, Operands.key]
  cases hk : Key.ofValue? k with
  | none => exact ⟨fun h => (by cases h), fun ⟨_, _, hkey, _⟩ => (by cases hkey)⟩
  | some key =>
    constructor
    · intro h
      have hmem := ht.contains_iff.1 (Except.ok.inj h)
      obtain ⟨e, he, rfl⟩ := List.mem_map.1 hmem
      exact ⟨e.1, e.2, rfl, he⟩
    · rintro ⟨key', v, hkey, he⟩
      cases hkey
      exact congrArg Except.ok (ht.contains_iff.2 (List.mem_map_of_mem he))

/-- A collection has as many elements as it has parts. -/
theorem size_eq_extent (hc : c.IsCollection) (callee : String) : size callee c = .ok c.extent := by
  cases c with
  | list id items => rfl
  | array t => exact congrArg Except.ok (Array.length_toList ..).symm
  | str s => rfl
  | _ => simp [Value.IsCollection, Value.kind] at hc

end Collection

namespace Operation

variable {c k : Value} {s : Store}

theorem run_existsAt (c k : Value) (s : Store) :
    existsAt.run [c, k] s =
      Eval.ofExcept ((Collection.hasElement "exists-at?" "at" c k).map .bool) s := rfl

theorem run_at_of_found {v : Value} (h : Collection.element? "at" "at" c k = .ok (some v)) :
    Operation.at.run [c, k] s = (.ok v, s) := by
  change Eval.ofExcept (Collection.element? "at" "at" c k >>= _) s = _
  rw [h]
  rfl

theorem run_at_of_missing (hc : c.IsCollection)
    (h : Collection.element? "at" "at" c k = .ok none) :
    Operation.at.run [c, k] s =
      (.error (.error (.indexOutOfRange "at" k.display c.extent)), s) := by
  change Eval.ofExcept (Collection.element? "at" "at" c k >>= _) s = _
  rw [h]
  change Eval.ofExcept (Collection.size "at" c >>= _) s = _
  rw [Collection.size_eq_extent hc]
  rfl

theorem run_at_of_error {e : EvalError} (h : Collection.element? "at" "at" c k = .error e) :
    Operation.at.run [c, k] s = (.error (.error e), s) := by
  change Eval.ofExcept (Collection.element? "at" "at" c k >>= _) s = _
  rw [h]
  rfl

theorem run_count (hc : c.IsCollection) (s : Store) :
    count.run [c] s = (.ok (.int (Int64.ofNat c.extent)), s) := by
  change Eval.ofExcept (Collection.size "count" c >>= _) s = _
  rw [Collection.size_eq_extent hc]
  rfl

/-- The three ways in which `at` and `exists-at?` end together. -/
inductive Access (c k : Value) (s : Store) : Prop where
  | found {v : Value} (h : Collection.element? "at" "at" c k = .ok (some v))
      (hexists : existsAt.run [c, k] s = (.ok (.bool true), s))
      (hat : Operation.at.run [c, k] s = (.ok v, s))
  | missing (h : Collection.element? "at" "at" c k = .ok none)
      (hexists : existsAt.run [c, k] s = (.ok (.bool false), s))
      (hat : Operation.at.run [c, k] s =
        (.error (.error (.indexOutOfRange "at" k.display c.extent)), s))
  | refused {callee callee' : String} {expected expected' : Expectation} {kind kind' : Kind}
      (h : Collection.element? "at" "at" c k = .error (.typeMismatch callee' expected' kind'))
      (hexists : existsAt.run [c, k] s =
        (.error (.error (.typeMismatch callee expected kind)), s))
      (hat : Operation.at.run [c, k] s =
        (.error (.error (.typeMismatch callee' expected' kind')), s))

theorem access (hc : c.IsCollection) (htidy : c.Tidy) (k : Value) (s : Store) : Access c k s := by
  have hseek := Collection.hasElement_eq htidy "exists-at?" "at" k
  rcases Collection.element?_cases hc k with ⟨found, hfound⟩ | hrefused
  · rw [hfound] at hseek
    have hexists : existsAt.run [c, k] s = (.ok (.bool found.isSome), s) := by
      rw [run_existsAt, hseek]
      rfl
    cases found with
    | none => exact .missing (hfound "at") hexists (run_at_of_missing hc (hfound "at"))
    | some v => exact .found (hfound "at") hexists (run_at_of_found (hfound "at"))
  · obtain ⟨callee, expected, he⟩ := hrefused "exists-at?"
    obtain ⟨callee', expected', hat⟩ := hrefused "at"
    have hexists : existsAt.run [c, k] s =
        (.error (.error (.typeMismatch callee expected k.kind)), s) := by
      rw [run_existsAt, hseek, he]
      rfl
    exact .refused hat hexists (run_at_of_error hat)

theorem run_existsAt_eq_true_iff :
    existsAt.run [c, k] s = (.ok (.bool true), s) ↔
      Collection.hasElement "exists-at?" "at" c k = .ok true := by
  rw [run_existsAt]
  constructor
  · intro h
    cases hseek : Collection.hasElement "exists-at?" "at" c k with
    | error e => rw [hseek] at h; cases h
    | ok found => rw [hseek] at h; cases h; rfl
  · intro h
    rw [h]
    rfl

theorem run_at_eq_ok_iff (hc : c.IsCollection) (htidy : c.Tidy) {v : Value} :
    Operation.at.run [c, k] s = (.ok v, s) ↔ Collection.element? "at" "at" c k = .ok (some v) := by
  refine ⟨fun h => ?_, run_at_of_found⟩
  cases access hc htidy k s with
  | found hfound _ hat => cases hat.symm.trans h; exact hfound
  | missing _ _ hat => cases hat.symm.trans h
  | refused _ _ hat => cases hat.symm.trans h

/-- The value that `at` gives under a key is that of the entry with the key. -/
theorem run_at_array_iff {t : Table Value} (ht : (Value.array t).Tidy) (k v : Value) (s : Store) :
    Operation.at.run [.array t, k] s = (.ok v, s) ↔
      ∃ key, Key.ofValue? k = some key ∧ (key, v) ∈ t.entries := by
  have hget : ∀ {key}, t.get? key = some v ↔ (key, v) ∈ t.entries :=
    (ht t rfl).sound.indexed.get?_eq_some_iff
  rw [run_at_eq_ok_iff (.inr (.inl rfl)) ht, Collection.element?, Operands.key]
  cases hk : Key.ofValue? k with
  | none => exact ⟨fun h => (by cases h), fun ⟨_, hkey, _⟩ => (by cases hkey)⟩
  | some key =>
    constructor
    · intro h
      exact ⟨key, rfl, hget.1 (Except.ok.inj h)⟩
    · rintro ⟨_, hkey, he⟩
      cases hkey
      exact congrArg Except.ok (hget.2 he)

/-- The character of a text at each of its positions. -/
theorem run_at_str {t : String} (hsize : (t.toList.length : Int) ≤ Integer.greatest) {i : Nat}
    {ch : Char} (hi : t.toList[i]? = some ch) (s : Store) :
    Operation.at.run [.str t, .int (Int64.ofNat i)] s = (.ok (.str (String.ofList [ch])), s) := by
  have hlt : i < t.toList.length := (List.getElem?_eq_some_iff.1 hi).1
  have hvalue : (Int64.ofNat i).toInt = i := Table.toInt_ofNat_of_le (by omega)
  have hchar : Collection.atPosition? t.toList (Int64.ofNat i) = some ch := by
    rw [Collection.atPosition?, hvalue, if_neg (by omega), Int.toNat_natCast, hi]
  refine run_at_of_found ?_
  change Except.ok ((Collection.atPosition? t.toList (Int64.ofNat i)).map _) = _
  rw [hchar]
  rfl

/-- The characters of a text, one after the other, are the text. -/
theorem run_string_characters (t : String) (s : Store) :
    string.run (t.toList.map fun ch => .str (String.ofList [ch])) s = (.ok (.str t), s) := by
  have hjoin : String.join (t.toList.map fun ch => String.ofList [ch]) = t := by
    rw [← String.toList_inj, String.toList_join, List.flatMap_map]
    simp [List.flatMap_singleton']
  change (Except.ok (Value.str (String.join ((t.toList.map _).map Value.display))), s) = _
  rw [List.map_map]
  exact congrArg (fun t => (Except.ok (Value.str t), s)) hjoin

/-- `at`, `exists-at?` and `count` agree on every list, string or table that was built, and every value.
Every table that a host or a program gets hold of was built (`Reachable.tidy`, `Store.Tidy.throughout`).

`exists-at?` says that there is an element exactly if `at` gives one, denies it exactly if `at` finds
the position or key out of range, and refuses the value as a position or key exactly if `at` does. There
are no other outcomes. In a list or string there is an element at each integer from zero up to the
count, if the count fits; in a table there is one under the key of each entry, which `at` gives. What
`at` gives for the positions of a string in turn makes it up. -/
theorem access_agrees (hc : c.IsCollection) (htidy : c.Tidy) (k : Value) (s : Store) :
    ((existsAt.run [c, k] s = (.ok (.bool true), s) ↔ ∃ v, Operation.at.run [c, k] s = (.ok v, s)) ∧
      (existsAt.run [c, k] s = (.ok (.bool false), s) ↔ ∃ index length,
        Operation.at.run [c, k] s = (.error (.error (.indexOutOfRange "at" index length)), s)) ∧
      ((∃ callee expected actual,
          existsAt.run [c, k] s = (.error (.error (.typeMismatch callee expected actual)), s)) ↔
        ∃ callee expected actual,
          Operation.at.run [c, k] s = (.error (.error (.typeMismatch callee expected actual)), s)) ∧
      ((∃ answer, existsAt.run [c, k] s = (.ok (.bool answer), s)) ∨
        ∃ callee expected actual,
          existsAt.run [c, k] s = (.error (.error (.typeMismatch callee expected actual)), s))) ∧
    ((c.kind = .list ∨ c.kind = .string) → (c.extent : Int) ≤ Integer.greatest → ∃ n,
      count.run [c] s = (.ok (.int n), s) ∧ n.toInt = c.extent ∧
      (existsAt.run [c, k] s = (.ok (.bool true), s) ↔
        ∃ i, k.whole? = some i ∧ 0 ≤ i ∧ i < n.toInt)) ∧
    (∀ t, c = .array t →
      (existsAt.run [c, k] s = (.ok (.bool true), s) ↔
        ∃ key v, Key.ofValue? k = some key ∧ (key, v) ∈ t.entries) ∧
      ∀ v, Operation.at.run [c, k] s = (.ok v, s) ↔
        ∃ key, Key.ofValue? k = some key ∧ (key, v) ∈ t.entries) ∧
    ∀ t, c = .str t → (c.extent : Int) ≤ Integer.greatest → ∃ n pieces,
      count.run [c] s = (.ok (.int n), s) ∧ n.toInt = (pieces.length : Int) ∧
      (∀ i v, pieces[i]? = some v →
        Operation.at.run [c, .int (Int64.ofNat i)] s = (.ok v, s)) ∧
      string.run pieces s = (.ok c, s) := by
  have hcount := run_count hc s
  refine ⟨?_, fun hkind hsize => ?_, ?_, ?_⟩
  · cases access hc htidy k s with
    | found _ hexists hat =>
      rw [hexists, hat]
      simp
    | missing _ hexists hat =>
      rw [hexists, hat]
      simp
    | refused _ hexists hat =>
      rw [hexists, hat]
      simp
  · have hvalue := Table.toInt_ofNat_of_le hsize
    refine ⟨_, hcount, hvalue, ?_⟩
    rw [hvalue, run_existsAt_eq_true_iff]
    exact Collection.hasElement_eq_true_iff hkind hsize _ _ k
  · rintro t rfl
    rw [run_existsAt_eq_true_iff]
    exact ⟨Collection.hasElement_array_eq_true_iff (htidy t rfl).sound.indexed _ _ k,
      fun v => run_at_array_iff htidy k v s⟩
  · rintro t rfl hsize
    refine ⟨_, _, hcount, ?_, fun i v hv => ?_, run_string_characters t s⟩
    · rw [Table.toInt_ofNat_of_le hsize, List.length_map]
      rfl
    · rw [List.getElem?_map] at hv
      obtain ⟨ch, hch, rfl⟩ := Option.map_eq_some_iff.1 hv
      exact run_at_str hsize hch s

/-- A whole float is a position of a list and a float beyond all integers is none, the text of an
integer is the key of an entry that was pushed, and a text of three characters of different sizes in
bytes is made up of them. -/
theorem access_agrees_whole_float :
    let c : Value := .list 0 [.int 5, .nil]
    let one : Value := .float (Float.ofBits 0x3FF0000000000000)
    let huge : Value := .float (Float.ofBits 0x43F0000000000000)
    let a : Value := .array ((Table.empty.insert (.name "x") .nil).push (.int 7))
    let t : Value := .str "aé😀"
    (c.IsCollection ∧ a.IsCollection ∧ t.IsCollection ∧ c.Tidy ∧ a.Tidy ∧ t.Tidy) ∧
      one.whole? = some 1 ∧ huge.whole? = some (2 * 9223372036854775808) ∧
      (∃ v, Operation.at.run [c, one] .empty = (.ok v, .empty)) ∧
      existsAt.run [c, huge] .empty ≠ (.ok (.bool true), .empty) ∧
      existsAt.run [a, .str "0"] .empty = (.ok (.bool true), .empty) ∧
      Operation.at.run [a, .str "0"] .empty = (.ok (.int 7), .empty) ∧
      ∃ pieces, pieces.length = 3 ∧ string.run pieces .empty = (.ok t, .empty) ∧
        ∀ i v, pieces[i]? = some v →
          Operation.at.run [t, .int (Int64.ofNat i)] .empty = (.ok v, .empty) := by
  intro c one huge a t
  have hc : c.IsCollection := .inl rfl
  have ha : a.IsCollection := .inr (.inl rfl)
  have ht : t.IsCollection := .inr (.inr rfl)
  have hctidy : c.Tidy := Value.tidy_of_kind (by decide)
  have hatidy : a.Tidy := (Table.Built.push (.int 7) (.insert (.name "x") .nil .empty)).tidy
  have httidy : t.Tidy := Value.tidy_of_kind (by decide)
  have hone : one.whole? = some 1 := rfl
  have hhuge : huge.whole? = some (2 * 9223372036854775808) := rfl
  have hkind : c.kind = .list ∨ c.kind = .string := .inl rfl
  obtain ⟨⟨hfound, -⟩, hlist, -⟩ := access_agrees hc hctidy one .empty
  obtain ⟨n, -, hn, hposition⟩ := hlist hkind (by decide)
  obtain ⟨-, hlist', -⟩ := access_agrees hc hctidy huge .empty
  obtain ⟨m, -, hm, hposition'⟩ := hlist' hkind (by decide)
  obtain ⟨-, -, htable, -⟩ := access_agrees ha hatidy (.str "0") .empty
  obtain ⟨hexists, hat⟩ := htable _ rfl
  have hkey : Key.ofValue? (.str "0") = some (.index 0) := by decide +kernel
  have hentry : (Key.index 0, Value.int 7) ∈
      ((Table.empty.insert (.name "x") .nil).push (.int 7)).entries :=
    (Table.indexed_empty.insert (.name "x") Value.nil).mem_entries_insert.2 (Or.inl rfl)
  obtain ⟨-, -, -, hstring⟩ := access_agrees ht httidy .nil .empty
  obtain ⟨l, pieces, hcount, hlength, hpieces, hjoined⟩ := hstring _ rfl (by decide)
  refine ⟨⟨hc, ha, ht, hctidy, hatidy, httidy⟩, hone, hhuge, ?_, fun h => ?_,
    hexists.2 ⟨_, _, hkey, hentry⟩, (hat _).2 ⟨_, hkey, hentry⟩, pieces, ?_, hjoined, hpieces⟩
  · refine hfound.1 (hposition.2 ⟨1, hone, by decide, ?_⟩)
    rw [hn]
    decide
  · obtain ⟨i, hi, -, hlt⟩ := hposition'.1 h
    cases hhuge.symm.trans hi
    rw [hm] at hlt
    exact absurd hlt (by decide)
  · have hthree : count.run [t] .empty = (.ok (.int 3), .empty) := rfl
    cases hthree.symm.trans hcount
    exact Int.ofNat_inj.1 hlength.symm

end Operation

end ConfinedLisp
