import ConfinedLisp.Proofs.TidyStores
import ConfinedLisp.Proofs.VectorLoops

/-!
# What a comparison rests on

Comparing two values comes down to comparing what lies in their lists and tables: numbers, texts and
truth values at once, and vectors by their items. Equality of floats is symmetric, and reflexive but
for NaN. The comparison of pairs in turn is true if all of them are equal, and false at the first pair
that is not.

## Main definitions

- `Value.Within`: being found in a value through lists and tables alone.
- `Value.TablesBuilt`: every table in a value was built.

## Main results

- `Double.beq_comm`, `Double.beq_trans`, `Double.beq_self_iff`: equality of floats.
- `Loose.allWith_eq_true_iff`, `Loose.exists_of_allWith_eq_false`: comparing pairs in turn.
-/

namespace ConfinedLisp

/-! ### Equality of floats -/

namespace Double

open Float.Model in
/-- Two numbers that compare equal are the same one, or both are zero. -/
theorem unpacked_compare_eq_cases {a b : UnpackedFloat} (h : a.compare b = some .eq) :
    a = b ∨ (∃ s, a = .zero s) ∧ ∃ s, b = .zero s := by
  cases a with
  | notANumber => cases h
  | infinity s =>
    cases b with
    | infinity s' =>
      cases s <;> cases s' <;> first | exact Or.inl rfl | cases h
    | _ => cases s <;> cases h
  | zero s =>
    cases b with
    | zero s' => exact Or.inr ⟨⟨s, rfl⟩, s', rfl⟩
    | infinity s' => cases s' <;> cases h
    | finite s' => cases s' <;> cases h
    | notANumber => cases h
  | finite s m e hm =>
    cases b with
    | finite s' m' e' hm' =>
      cases s <;> cases s' <;>
        simp_all [UnpackedFloat.compare, Ordering.then_eq_eq, Ordering.swap_eq_eq]
    | infinity s' => cases s <;> cases s' <;> cases h
    | zero s' => cases s <;> cases h
    | notANumber => cases s <;> cases h

open Float.Model in
theorem unpacked_compare_eq_comm {a b : UnpackedFloat} (h : a.compare b = some .eq) :
    b.compare a = some .eq := by
  rcases unpacked_compare_eq_cases h with rfl | ⟨⟨s, rfl⟩, s', rfl⟩
  · exact h
  · rfl

open Float.Model in
theorem unpacked_compare_self {a : UnpackedFloat} (h : a.isNaN = false) :
    a.compare a = some .eq := by
  cases a with
  | notANumber => cases h
  | infinity s => cases s <;> rfl
  | zero s => rfl
  | finite s m e hm => cases s <;> simp [UnpackedFloat.compare]

theorem beq_eq_true_iff {x y : Float} :
    (x == y) = true ↔ x.toModel.unpack.compare y.toModel.unpack = some .eq := by
  show (x.toModel.unpack.compare y.toModel.unpack == some Ordering.eq) = true ↔ _
  exact beq_iff_eq

/-- Equality of floats is symmetric. -/
theorem beq_comm (x y : Float) : (x == y) = (y == x) := by
  rw [Bool.eq_iff_iff, beq_eq_true_iff, beq_eq_true_iff]
  exact ⟨unpacked_compare_eq_comm, unpacked_compare_eq_comm⟩

/-- Equality of floats is transitive. -/
theorem beq_trans {x y z : Float} (hxy : (x == y) = true) (hyz : (y == z) = true) :
    (x == z) = true := by
  rw [beq_eq_true_iff] at hxy hyz ⊢
  rcases unpacked_compare_eq_cases hxy with heq | ⟨⟨sx, hx⟩, sy, hy⟩
  · rwa [heq]
  · rcases unpacked_compare_eq_cases hyz with heq | ⟨-, sz, hz⟩
    · rwa [← heq]
    · rw [hx, hz]
      rfl

/-- NaN is the only float that does not equal itself. -/
theorem beq_self_iff {x : Float} : (x == x) = true ↔ x.isNaN = false := by
  rw [beq_eq_true_iff]
  refine ⟨fun h => ?_, unpacked_compare_self⟩
  show x.toModel.unpack.isNaN = false
  cases hx : x.toModel.unpack with
  | notANumber =>
    rw [hx] at h
    cases h
  | _ => rfl

end Double

/-! ### Going down lists and tables -/

namespace Value

/-- A value is another one, or is found in it through lists and tables alone. -/
inductive Within (part : Value) : Value → Prop where
  | self : Within part part
  | item {id : Identity} {items : List Value} {v : Value} :
      v ∈ items → Within part v → Within part (.list id items)
  | entry {t : Table Value} {v : Value} : v ∈ t.values → Within part v → Within part (.array t)

theorem Within.occurs {part v : Value} (h : part.Within v) : part.Occurs v := by
  induction h with
  | self => exact .self
  | item hv _ ih => exact .item hv ih
  | entry hv _ ih => exact .entry hv ih

/-- Every table in a value was built. -/
def TablesBuilt (v : Value) : Prop := ∀ t, (Value.array t).Within v → t.Built

namespace TablesBuilt

theorem item {id : Identity} {items : List Value} {v : Value} (h : (Value.list id items).TablesBuilt)
    (hv : v ∈ items) : v.TablesBuilt :=
  fun t ht => h t (.item hv ht)

theorem entry {t : Table Value} {v : Value} (h : (Value.array t).TablesBuilt) (hv : v ∈ t.values) :
    v.TablesBuilt :=
  fun u hu => h u (.entry hv hu)

/-- The index of a table in a value is right. -/
theorem indexed {t : Table Value} (h : (Value.array t).TablesBuilt) : t.Indexed :=
  (h t .self).sound.indexed

end TablesBuilt

end Value

/-- In a tidy store, every table in a value that can be found was built. -/
theorem Store.Tidy.tablesBuilt {s : Store} {hand : List Value} {v : Value} (h : s.Tidy hand)
    (hv : s.Has hand v) : v.TablesBuilt := by
  obtain ⟨x, hx, hocc⟩ := hv
  exact fun t ht => h (.array t) ⟨x, hx, ht.occurs.trans hocc⟩ t rfl

/-! ### Pairs in turn -/

namespace Loose

variable {vectors : VectorId → VectorId → Option Bool} {pairs : List (Value × Option Value)}

theorem mem_of_mem_zip {xs ys : List Value} {x y : Value} (h : (x, some y) ∈ xs.zip (ys.map some)) :
    x ∈ xs ∧ y ∈ ys :=
  ⟨(List.of_mem_zip h).1, by simpa using (List.of_mem_zip h).2⟩

theorem mem_values_of_mem_map {t u : Table Value} {x y : Value}
    (h : (x, some y) ∈ t.entries.map fun e => (e.2, u.get? e.1)) : x ∈ t.values ∧ y ∈ u.values := by
  obtain ⟨e, he, hpair⟩ := List.mem_map.1 h
  obtain ⟨rfl, hget⟩ := Prod.mk.inj hpair
  exact ⟨List.mem_map.2 ⟨e, he, rfl⟩, Table.mem_values_of_get? hget⟩

/-- Comparing pairs in turn is true exactly if all of them are equal. -/
theorem allWith_eq_true_iff : allWith vectors pairs = some true ↔
    ∀ q ∈ pairs, ∃ y, q.2 = some y ∧ Value.looseEqWith vectors q.1 y = some true := by
  induction pairs with
  | nil => simp [allWith]
  | cons q rest ih =>
    obtain ⟨x, y?⟩ := q
    cases y? with
    | none => simp [allWith]
    | some y =>
      rw [allWith_cons, List.forall_mem_cons, ← ih]
      by_cases hxy : Value.looseEqWith vectors x y = some true <;> simp [hxy]

/-- Comparing pairs in turn is false only if one of them is different, or lacks its other half. -/
theorem exists_of_allWith_eq_false (h : allWith vectors pairs = some false) :
    ∃ q ∈ pairs, ∀ y, q.2 = some y → Value.looseEqWith vectors q.1 y = some false := by
  induction pairs with
  | nil => cases h
  | cons q rest ih =>
    obtain ⟨x, y?⟩ := q
    cases y? with
    | none => exact ⟨_, List.mem_cons_self, fun _ h => by cases h⟩
    | some y =>
      rw [allWith_cons] at h
      by_cases hxy : Value.looseEqWith vectors x y = some true
      · rw [if_pos hxy] at h
        obtain ⟨q, hq, hdiffer⟩ := ih h
        exact ⟨q, List.mem_cons_of_mem _ hq, hdiffer⟩
      · rw [if_neg hxy] at h
        refine ⟨_, List.mem_cons_self, fun y' hy' => ?_⟩
        cases hy'
        exact h

end Loose

end ConfinedLisp
