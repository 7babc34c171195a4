import ConfinedLisp.Proofs.Comparison
import ConfinedLisp.Proofs.ListIdentities

/-!
# The three equalities in order

What is strictly equal is structurally equal, and what is structurally equal is loosely equal. The
first step needs nothing. The second one rests on what a store looks like: keys are distinct, and lists
of one identity have the same items. It fails for NaN, which does not equal itself, and for a text that
denotes NaN, because two texts that denote numbers are compared as numbers.

## Main definitions

- `Value.DenotesNaN`: NaN, or a text that denotes it.
- `Value.SharesLists`: lists of one identity in two values have the same items.

## Main results

- `Value.structEq_of_strictEq`, `Value.looseEqWith_of_structEq`: the two steps.
- `Value.looseEqWith_self`: loose equality of a value with itself.
- `Underway.sharesLists`: any two values at any moment of an evaluation.
- `Value.strict_struct_loose`: the order of the three, and of `eq` and `equal`.
-/

namespace ConfinedLisp

namespace Value

variable {a b : Value}

/-! ### Entries and items in pairs -/

theorem strictTables_iff {t u : Table Value} : strictTables t u = true ↔
    List.Forall₂ (fun e f => e.1 = f.1 ∧ e.2.strictEq f.2 = true) t.entries u.entries := by
  obtain ⟨⟨es⟩, positions, next⟩ := t
  rw [strictTables]
  generalize u.entries = fs
  show strictEntries es fs = true ↔ List.Forall₂ _ es fs
  induction es generalizing fs with
  | nil => cases fs <;> simp [strictEntries]
  | cons e es ih =>
    obtain ⟨key, v⟩ := e
    cases fs with
    | nil => simp [strictEntries]
    | cons f fs =>
      rw [strictEntries, Bool.and_eq_true, ih, List.forall₂_cons, strictEntry, Bool.and_eq_true,
        beq_iff_eq]

theorem structTables_iff {t u : Table Value} : structTables t u = true ↔
    List.Forall₂ (fun e f => e.1 = f.1 ∧ e.2.structEq f.2 = true) t.entries u.entries := by
  obtain ⟨⟨es⟩, positions, next⟩ := t
  rw [structTables]
  generalize u.entries = fs
  show structEntries es fs = true ↔ List.Forall₂ _ es fs
  induction es generalizing fs with
  | nil => cases fs <;> simp [structEntries]
  | cons e es ih =>
    obtain ⟨key, v⟩ := e
    cases fs with
    | nil => simp [structEntries]
    | cons f fs =>
      rw [structEntries, Bool.and_eq_true, ih, List.forall₂_cons, structEntry, Bool.and_eq_true,
        beq_iff_eq]

/-- Tables that are structurally equal have the same size, and for each entry of the one there is an
entry of the other. -/
theorem structTables_spec {t u : Table Value} (h : structTables t u = true) :
    t.size = u.size ∧
      ∀ e ∈ t.entries, ∃ f ∈ u.entries, e.1 = f.1 ∧ e.2.structEq f.2 = true := by
  have hentries := structTables_iff.1 h
  have hkeys : t.keys = u.keys := by
    rw [← List.forall₂_eq_eq_eq, Table.keys, Table.keys, List.forall₂_map_left_iff,
      List.forall₂_map_right_iff]
    exact hentries.imp fun _ _ hef => hef.1
  refine ⟨?_, fun e he => ?_⟩
  · rw [Table.size_eq_length_keys, Table.size_eq_length_keys, hkeys]
  · obtain ⟨i, hi⟩ := List.mem_iff_getElem?.1 he
    obtain ⟨hlt, rfl⟩ := List.getElem?_eq_some_iff.1 hi
    have hlt' : i < u.entries.length := hentries.length_eq ▸ hlt
    exact ⟨_, List.getElem_mem hlt', hentries.get hlt hlt'⟩

theorem structItems_iff {xs ys : List Value} : structItems xs ys = true ↔
    List.Forall₂ (fun x y => x.structEq y = true) xs ys := by
  induction xs generalizing ys with
  | nil => cases ys <;> simp [structItems]
  | cons x xs ih =>
    cases ys with
    | nil => simp [structItems]
    | cons y ys => rw [structItems, Bool.and_eq_true, ih, List.forall₂_cons]

/-! ### Strict equality and structural equality -/

/-- Two lists and two tables are compared by what is in them, and all else strictly. -/
theorem structEq_cases (h : a.structEq b = true) :
    (∃ id xs id' ys, a = .list id xs ∧ b = .list id' ys) ∨ (∃ t u, a = .array t ∧ b = .array u) ∨
      a.strictEq b = true ∧ (∀ id xs, a ≠ .list id xs) ∧ ∀ t, a ≠ .array t := by
  cases a with
  | list id xs =>
    cases b with
    | list id' ys => exact Or.inl ⟨id, xs, id', ys, rfl, rfl⟩
    | _ => cases h
  | array t =>
    cases b with
    | array u => exact Or.inr (Or.inl ⟨t, u, rfl, rfl⟩)
    | _ => cases h
  | _ =>
    refine Or.inr (Or.inr ⟨by simpa only [structEq] using h, ?_, ?_⟩)
    · intro id xs heq
      cases heq
    · intro t heq
      cases heq

/-- What is strictly equal is structurally equal. -/
theorem structEq_of_strictEq (h : a.strictEq b = true) : a.structEq b = true := by
  induction a using Value.descend generalizing b with
  | h a _ hentries =>
    cases a with
    | list id xs =>
      cases b with
      | list id' ys =>
        have hid : (id == id') = true := h
        rw [structEq, hid, Bool.true_or]
      | _ => cases h
    | array t =>
      cases b with
      | array u =>
        obtain ⟨hlength, hpairs⟩ := List.forall₂_iff_zip.1 (strictTables_iff.1 h)
        refine structTables_iff.2 (List.forall₂_iff_zip.2 ⟨hlength, fun {e f} hef => ?_⟩)
        obtain ⟨hkey, hvalue⟩ := hpairs hef
        have hmem : e.2 ∈ t.values := List.mem_map.2 ⟨e, (List.of_mem_zip hef).1, rfl⟩
        exact ⟨hkey, hentries t rfl e.2 hmem hvalue⟩
      | _ => cases h
    | _ => simpa only [structEq] using h

/-! ### Loose equality of a value with itself -/

/-- NaN, or a text that denotes it. -/
def DenotesNaN : Value → Prop
  | .float x => x.isNaN = true
  | .str s => ∃ x, Loose.numberOf? s = some x ∧ x.isNaN = true
  | _ => False

/-- Nothing in the lists and tables of a value denotes NaN. -/
def NaNFree (v : Value) : Prop := ∀ part : Value, part.Within v → ¬ part.DenotesNaN

namespace NaNFree

theorem item {id : Identity} {items : List Value} {v : Value} (h : (Value.list id items).NaNFree)
    (hv : v ∈ items) : v.NaNFree :=
  fun part hpart => h part (.item hv hpart)

theorem entry {t : Table Value} {v : Value} (h : (Value.array t).NaNFree) (hv : v ∈ t.values) :
    v.NaNFree :=
  fun part hpart => h part (.entry hv hpart)

end NaNFree

theorem texts_self_iff (s : String) : Loose.texts s s = true ↔ ¬ (Value.str s).DenotesNaN := by
  rw [Loose.texts]
  cases hs : Loose.numberOf? s with
  | none => simp only [DenotesNaN, hs, beq_self_eq_true, reduceCtorEq, false_and, exists_false,
      not_false_eq_true]
  | some x => simp only [DenotesNaN, hs, Option.some.injEq, exists_eq_left', Double.beq_self_iff,
      Bool.not_eq_true]

end Value

theorem Callable.same_self {α : Type} (c : Callable α) : c.same c = true := by
  cases c <;> simp [Callable.same]

namespace Value

variable {vectors : VectorId → VectorId → Option Bool} {a b : Value}

/-- A value in which nothing denotes NaN is loosely equal to itself. -/
theorem looseEqWith_self (ha : a.TablesBuilt) (hnan : a.NaNFree) :
    looseEqWith vectors a a = some true := by
  induction a using Value.descend with
  | h a hitems hentries =>
    cases a with
    | list id xs =>
      rw [looseEqWith, if_pos rfl, Loose.looseItemsWith_eq, Loose.allWith_eq_true_iff]
      intro q hq
      obtain ⟨i, hi⟩ := List.mem_iff_getElem?.1 hq
      obtain ⟨hx, hy⟩ := List.getElem?_zip_eq_some.1 hi
      have hmem : q.1 ∈ xs := List.mem_of_getElem? hx
      refine ⟨q.1, ?_, hitems id xs rfl q.1 hmem (ha.item hmem) (hnan.item hmem)⟩
      rw [List.getElem?_map, hx] at hy
      exact (Option.some.inj hy).symm
    | array t =>
      rw [looseEqWith, if_pos rfl, Loose.looseTablesWith_eq, Loose.allWith_eq_true_iff]
      intro q hq
      obtain ⟨e, he, rfl⟩ := List.mem_map.1 hq
      have hmem : e.2 ∈ t.values := List.mem_map.2 ⟨e, he, rfl⟩
      exact ⟨e.2, ha.indexed.get?_eq_some_iff.2 he,
        hentries t rfl e.2 hmem (ha.entry hmem) (hnan.entry hmem)⟩
    | float x =>
      have hx : x.isNaN = false := Bool.not_eq_true _ ▸ hnan _ .self
      rw [looseEqWith, Double.beq_self_iff.2 hx]
    | str s => rw [looseEqWith, (texts_self_iff s).2 (hnan _ .self)]
    | callable c => rw [looseEqWith, c.same_self]
    | bool x => simp [looseEqWith, isTruthy]
    | _ => simp [looseEqWith]

/-! ### Structural equality and loose equality -/

/-- Lists of one identity in two values have the same items. -/
def SharesLists (a b : Value) : Prop :=
  ∀ id xs ys, (Value.list id xs).Within a → (Value.list id ys).Within b → xs = ys

namespace SharesLists

theorem item {id id' : Identity} {xs ys : List Value} {x y : Value}
    (h : (Value.list id xs).SharesLists (.list id' ys)) (hx : x ∈ xs) (hy : y ∈ ys) :
    x.SharesLists y :=
  fun i zs zs' hzs hzs' => h i zs zs' (.item hx hzs) (.item hy hzs')

theorem entry {t u : Table Value} {x y : Value} (h : (Value.array t).SharesLists (.array u))
    (hx : x ∈ t.values) (hy : y ∈ u.values) : x.SharesLists y :=
  fun i zs zs' hzs hzs' => h i zs zs' (.entry hx hzs) (.entry hy hzs')

end SharesLists

theorem looseEqWith_of_strictEq (hlist : ∀ id xs, a ≠ .list id xs) (htable : ∀ t, a ≠ .array t)
    (hnan : ¬ a.DenotesNaN) (h : a.strictEq b = true) : looseEqWith vectors a b = some true := by
  cases a with
  | list id xs => exact absurd rfl (hlist id xs)
  | array t => exact absurd rfl (htable t)
  | str s =>
    cases b with
    | str s' =>
      obtain rfl : s = s' := beq_iff_eq.1 h
      rw [looseEqWith, (texts_self_iff s).2 hnan]
    | _ => cases h
  | object i =>
    cases b with
    | object j => rw [looseEqWith, if_pos (beq_iff_eq.1 h)]
    | _ => cases h
  -- Of any other kind, the two equalities of two values are one and the same.
  | _ => cases b <;> first | exact congrArg some h | cases h

/-- What is structurally equal is loosely equal, if nothing denotes NaN. -/
theorem looseEqWith_of_structEq (hlists : a.SharesLists b) (ha : a.TablesBuilt)
    (hb : b.TablesBuilt) (hnan : a.NaNFree) (h : a.structEq b = true) :
    looseEqWith vectors a b = some true := by
  induction a using Value.descend generalizing b with
  | h a hitems hentries =>
    rcases structEq_cases h with ⟨id, xs, id', ys, rfl, rfl⟩ | ⟨t, u, rfl, rfl⟩ |
      ⟨hstrict, hlist, htable⟩
    · rw [structEq, Bool.or_eq_true] at h
      rcases h with hid | hitems'
      · obtain rfl : id = id' := beq_iff_eq.1 hid
        obtain rfl : xs = ys := hlists id xs ys .self .self
        exact looseEqWith_self ha hnan
      · obtain ⟨hlength, hpairs⟩ := List.forall₂_iff_zip.1 (structItems_iff.1 hitems')
        rw [looseEqWith, if_pos hlength, Loose.looseItemsWith_eq, Loose.allWith_eq_true_iff]
        rintro ⟨x, y?⟩ hq
        obtain ⟨y, hxy, rfl⟩ : ∃ y, (x, y) ∈ xs.zip ys ∧ some y = y? := by
          rw [List.zip_map_right] at hq
          simpa using hq
        obtain ⟨hx, hy⟩ := List.of_mem_zip hxy
        exact ⟨y, rfl, hitems id xs rfl x hx (hlists.item hx hy) (ha.item hx) (hb.item hy)
          (hnan.item hx) (hpairs hxy)⟩
    · obtain ⟨hsize, hpairs⟩ := structTables_spec h
      rw [looseEqWith, if_pos hsize, Loose.looseTablesWith_eq, Loose.allWith_eq_true_iff]
      intro q hq
      obtain ⟨e, he, rfl⟩ := List.mem_map.1 hq
      obtain ⟨f, hf, hkey, hvalue⟩ := hpairs e he
      have hx : e.2 ∈ t.values := List.mem_map.2 ⟨e, he, rfl⟩
      have hy : f.2 ∈ u.values := List.mem_map.2 ⟨f, hf, rfl⟩
      refine ⟨f.2, ?_, hentries t rfl e.2 hx (hlists.entry hx hy) (ha.entry hx) (hb.entry hy)
        (hnan.entry hx) hvalue⟩
      rw [hb.indexed.get?_eq_some_iff]
      exact hkey ▸ hf
    · exact looseEqWith_of_strictEq hlist htable (hnan a .self) hstrict

end Value

/-- At any moment of an evaluation, any two values that can be found share their lists. -/
theorem Underway.sharesLists {s : Store} {hand : List Value} {a b : Value} (h : Underway s hand)
    (ha : s.Has hand a) (hb : s.Has hand b) : a.SharesLists b := by
  have hfound : ∀ {v part : Value}, s.Has hand v → part.Within v → s.Has hand part := by
    rintro v part ⟨x, hx, hv⟩ hpart
    exact ⟨x, hx, hpart.occurs.trans hv⟩
  intro id xs ys hxs hys
  exact h.items_eq (hfound ha hxs) (hfound hb hys)

/-! ### The operations -/

namespace Operation

variable {a : Value} {others : List Value} {s s' : Store}

theorem strictEq_of_run_eq (h : Operation.eq.run (a :: others) s = (.ok (.bool true), s')) :
    others ≠ [] ∧ ∀ b ∈ others, a.strictEq b = true := by
  cases others with
  | nil => cases h
  | cons b rest =>
    have hall : Value.bool ((b :: rest).all fun v => a.strictEq v) = .bool true :=
      Except.ok.inj (congrArg Prod.fst h)
    exact ⟨List.cons_ne_nil _ _, List.all_eq_true.1 (Value.bool.inj hall)⟩

theorem allLooseWith_eq_true (h : ∀ b ∈ others, s.looseEq a b = some true) :
    Logic.allLooseWith a s others = some true := by
  induction others with
  | nil => rfl
  | cons b rest ih =>
    rw [Logic.allLooseWith, h b (by simp)]
    exact ih fun b hb => h b (by simp [hb])

theorem run_equal_of_looseEq (hne : others ≠ []) (h : ∀ b ∈ others, s.looseEq a b = some true) :
    Operation.equal.run (a :: others) s = (.ok (.bool true), s) := by
  cases others with
  | nil => exact absurd rfl hne
  | cons b rest =>
    have hcount : Eval.ofExcept (Operands.count "equal" (.atLeast 2) (a :: b :: rest)) s =
        (.ok (), s) := rfl
    have hread : (Eval.read fun s => Logic.allLooseWith a s (b :: rest)) s = (.ok (some true), s) := by
      rw [Eval.read, allLooseWith_eq_true h]
    have hall : Logic.allLoose "equal" (a :: b :: rest) s = (.ok true, s) := by
      unfold Logic.allLoose
      refine (Eval.bind_of_ok hcount _).trans ?_
      exact Eval.bind_of_ok hread _
    exact Eval.bind_of_ok hall _

end Operation

/-- The three equalities in order, for values whose tables were built and of which the others share the
lists of the first, as any values do at any moment of an evaluation (`Store.Tidy.tablesBuilt`,
`Underway.sharesLists`). If the first value is strictly equal to another one, it is structurally equal
to it. If nothing in it denotes NaN, it is loosely equal to itself and to whatever it is structurally
equal to, and `equal` holds of it and the others where `eq` does. A text is loosely equal to itself
exactly if it does not denote NaN. -/
theorem Value.strict_struct_loose {a : Value} {others : List Value} (ha : a.TablesBuilt)
    (hothers : ∀ b ∈ others, a.SharesLists b ∧ b.TablesBuilt) (s : Store) :
    (∀ b ∈ others, a.strictEq b = true → a.structEq b = true) ∧
    (a.NaNFree →
      s.looseEq a a = some true ∧ (∀ b ∈ others, a.structEq b = true → s.looseEq a b = some true) ∧
        (Operation.eq.run (a :: others) s = (.ok (.bool true), s) →
          Operation.equal.run (a :: others) s = (.ok (.bool true), s))) ∧
    ∀ text, s.looseEq (.str text) (.str text) = some true ↔ ¬ (Value.str text).DenotesNaN := by
  refine ⟨fun b _ => structEq_of_strictEq, fun hnan => ?_, fun text => ?_⟩
  · have hloose : ∀ b ∈ others, a.structEq b = true → s.looseEq a b = some true :=
      fun b hb => looseEqWith_of_structEq (hothers b hb).1 ha (hothers b hb).2 hnan
    refine ⟨looseEqWith_self ha hnan, hloose, fun hrun => ?_⟩
    obtain ⟨hne, hstrict⟩ := Operation.strictEq_of_run_eq hrun
    exact Operation.run_equal_of_looseEq hne fun b hb =>
      hloose b hb (structEq_of_strictEq (hstrict b hb))
  · rw [Store.looseEq, looseEqWith, Option.some.injEq]
    exact texts_self_iff text

/-- Two lists of different identity, with a float, a text that denotes infinity and a table. -/
theorem Value.strict_struct_loose_nested :
    let t : Table Value := Table.empty.insert (.name "k") (.list 3 [.nil])
    let items : List Value := [.float 1.5, .str "inf", .array t]
    (Value.list 1 items).TablesBuilt ∧
      ((Value.list 1 items).SharesLists (.list 2 items) ∧ (Value.list 2 items).TablesBuilt) ∧
      (Value.list 1 items).NaNFree ∧ (Value.list 1 items).structEq (.list 2 items) = true ∧
      Store.empty.looseEq (.list 1 items) (.list 2 items) = some true := by
  intro t items
  have hparts : ∀ (id : Identity) (part : Value), part.Within (.list id items) →
      part = .list id items ∨ part = .float 1.5 ∨ part = .str "inf" ∨ part = .array t ∨
        part = .list 3 [.nil] ∨ part = .nil := by
    intro id part hpart
    cases hpart with
    | self => simp
    | item hv hpart =>
      simp only [items, List.mem_cons, List.not_mem_nil, or_false] at hv
      rcases hv with rfl | rfl | rfl
      · cases hpart
        simp
      · cases hpart
        simp
      · cases hpart with
        | self => simp
        | entry hv hpart =>
          rcases Table.mem_values_insert hv with rfl | hv
          · cases hpart with
            | self => simp
            | item hv hpart =>
              cases List.mem_singleton.1 hv
              cases hpart
              simp
          · cases hv
  have hbuilt : ∀ id, (Value.list id items).TablesBuilt := by
    intro id u hu
    rcases hparts id _ hu with h | h | h | h | h | h <;> cases h
    exact .insert _ _ .empty
  have hlists : (Value.list 1 items).SharesLists (.list 2 items) := by
    intro id xs ys hxs hys
    rcases hparts 1 _ hxs with h | h | h | h | h | h <;> cases h <;>
      rcases hparts 2 _ hys with h | h | h | h | h | h <;> cases h
    rfl
  have hnan : (Value.list 1 items).NaNFree := by
    intro part hpart
    have hfloat : (1.5 : Float).isNaN = false := by decide +kernel
    have htext : (Loose.numberOf? "inf").map Float.isNaN = some false := by decide +kernel
    rcases hparts 1 _ hpart with rfl | rfl | rfl | rfl | rfl | rfl
    · exact id
    · exact fun h => Bool.noConfusion (hfloat.symm.trans h)
    · rintro ⟨x, hx, hnan⟩
      rw [hx] at htext
      exact Bool.noConfusion ((Option.some.inj htext).symm.trans hnan)
    all_goals exact id
  have hstruct : (Value.list 1 items).structEq (.list 2 items) = true := by decide +kernel
  have hothers : ∀ b ∈ [Value.list 2 items], (Value.list 1 items).SharesLists b ∧ b.TablesBuilt := by
    intro b hb
    rw [List.mem_singleton.1 hb]
    exact ⟨hlists, hbuilt 2⟩
  obtain ⟨-, hloose, -⟩ := strict_struct_loose (hbuilt 1) hothers .empty
  exact ⟨hbuilt 1, ⟨hlists, hbuilt 2⟩, hnan, hstruct, (hloose hnan).2.1 _ (by simp) hstruct⟩

/-- The text `nan` denotes a number that does not equal itself. -/
theorem Value.nan_text_not_equal_itself :
    (Value.str "nan").strictEq (.str "nan") = true ∧ (Value.str "nan").structEq (.str "nan") = true ∧
      Store.empty.looseEq (.str "nan") (.str "nan") = some false := by
  decide +kernel

end ConfinedLisp
