import ConfinedLisp.Proofs.EqualityOrder
import ConfinedLisp.Proofs.LooseSymmetry

/-!
# The laws of strict and structural equality

Both equalities are symmetric, and a value equals itself in both or in neither: it does unless NaN is
found in it through tables. Lists do not matter here, because a list is equal to itself by its identity,
whatever it holds. This shortcut is where transitivity of structural equality could fail. It holds for
values in which lists of one identity have the same items.

`eq` compares each operand with the first one alone. By symmetry and transitivity this tells whether any
two operands are equal, in whatever order they are given.

## Main definitions

- `Value.InTables`: being found in a value through tables alone.

## Main results

- `Value.strictEq_comm`, `Value.strictEq_trans`, `Value.structEq_comm`, `Value.structEq_trans`.
- `Value.strictEq_self_iff`, `Value.structEq_self`: which values equal themselves.
- `Operation.allStrict_iff_pairwise`: what comparing with the first operand tells.
- `Underway.equality_laws`: the laws at any moment of an evaluation, and what `eq` makes of them.
-/

namespace ConfinedLisp

theorem Callable.same_trans {α : Type} {c d e : Callable α} (hcd : c.same d = true)
    (hde : d.same e = true) : c.same e = true := by
  cases c <;> cases d <;> cases e <;> simp_all [Callable.same]

theorem Table.snd_mem_values {α : Type} {t : Table α} {e : Key × α} (h : e ∈ t.entries) :
    e.2 ∈ t.values :=
  List.mem_map.2 ⟨e, h, rfl⟩

/-! ### Comparison in pairs -/

section Pairs

variable {α : Type} {R : α → α → Prop} {xs ys zs : List α}

/-- What is compared in pairs is compared symmetrically if its members are. -/
theorem forall₂_symm_of_mem (hmem : ∀ x ∈ xs, ∀ y ∈ ys, R x y → R y x)
    (h : List.Forall₂ R xs ys) : List.Forall₂ R ys xs := by
  induction h with
  | nil => exact .nil
  | cons hxy _ ih =>
    refine .cons (hmem _ (by simp) _ (by simp) hxy) (ih fun x hx y hy => ?_)
    exact hmem x (by simp [hx]) y (by simp [hy])

/-- What is compared in pairs is compared transitively if its members are. -/
theorem forall₂_trans_of_mem (hmem : ∀ x ∈ xs, ∀ y ∈ ys, ∀ z ∈ zs, R x y → R y z → R x z)
    (hxy : List.Forall₂ R xs ys) (hyz : List.Forall₂ R ys zs) : List.Forall₂ R xs zs := by
  induction hxy generalizing zs with
  | nil => exact hyz
  | cons hx _ ih =>
    cases hyz with
    | cons hy hrest =>
      refine .cons (hmem _ (by simp) _ (by simp) _ (by simp) hx hy) (ih ?_ hrest)
      exact fun x hx y hy z hz => hmem x (by simp [hx]) y (by simp [hy]) z (by simp [hz])

end Pairs

namespace Value

variable {a b c : Value}

/-! ### Strict equality -/

/-- Tables, floats and callables are compared in ways of their own and lists by identity. All else is
strictly equal only to itself. -/
theorem strictEq_cases (h : a.strictEq b = true) :
    (∃ t u, a = .array t ∧ b = .array u) ∨ (∃ x y, a = .float x ∧ b = .float y) ∨
      (∃ f g, a = .callable f ∧ b = .callable g) ∨
      (∃ id xs ys, a = .list id xs ∧ b = .list id ys) ∨ a = b := by
  cases a with
  | array t =>
    cases b with
    | array u => exact Or.inl ⟨t, u, rfl, rfl⟩
    | _ => cases h
  | float x =>
    cases b with
    | float y => exact Or.inr (Or.inl ⟨x, y, rfl, rfl⟩)
    | _ => cases h
  | callable f =>
    cases b with
    | callable g => exact Or.inr (Or.inr (Or.inl ⟨f, g, rfl, rfl⟩))
    | _ => cases h
  | list id xs =>
    cases b with
    | list id' ys =>
      obtain rfl : id = id' := beq_iff_eq.1 h
      exact Or.inr (Or.inr (Or.inr (Or.inl ⟨id, xs, ys, rfl, rfl⟩)))
    | _ => cases h
  | nil =>
    cases b with
    | nil => exact Or.inr (Or.inr (Or.inr (Or.inr rfl)))
    | _ => cases h
  | _ =>
    refine Or.inr (Or.inr (Or.inr (Or.inr ?_)))
    cases b <;> first | cases h | exact congrArg _ (beq_iff_eq.1 h)

theorem strictEq_symm (h : a.strictEq b = true) : b.strictEq a = true := by
  induction a using Value.descend generalizing b with
  | h a _ hentries =>
    rcases strictEq_cases h with ⟨t, u, rfl, rfl⟩ | ⟨x, y, rfl, rfl⟩ | ⟨f, g, rfl, rfl⟩ |
      ⟨id, xs, ys, rfl, rfl⟩ | rfl
    · refine strictTables_iff.2 (forall₂_symm_of_mem ?_ (strictTables_iff.1 h))
      rintro e he f - ⟨hkey, hvalue⟩
      exact ⟨hkey.symm, hentries t rfl e.2 (Table.snd_mem_values he) hvalue⟩
    · exact (Double.beq_comm y x).trans h
    · exact (Callable.same_comm g f).trans h
    · exact h
    · exact h

/-- Strict equality is symmetric. -/
theorem strictEq_comm (a b : Value) : a.strictEq b = b.strictEq a :=
  Bool.eq_iff_iff.2 ⟨strictEq_symm, strictEq_symm⟩

/-- Strict equality is transitive. -/
theorem strictEq_trans (hab : a.strictEq b = true) (hbc : b.strictEq c = true) :
    a.strictEq c = true := by
  induction a using Value.descend generalizing b c with
  | h a _ hentries =>
    rcases strictEq_cases hab with ⟨t, u, rfl, rfl⟩ | ⟨x, y, rfl, rfl⟩ | ⟨f, g, rfl, rfl⟩ |
      ⟨id, xs, ys, rfl, rfl⟩ | rfl
    · cases c with
      | array w =>
        refine strictTables_iff.2
          (forall₂_trans_of_mem ?_ (strictTables_iff.1 hab) (strictTables_iff.1 hbc))
        rintro e he f - g - ⟨hkey, hvalue⟩ ⟨hkey', hvalue'⟩
        exact ⟨hkey.trans hkey', hentries t rfl e.2 (Table.snd_mem_values he) hvalue hvalue'⟩
      | _ => cases hbc
    · cases c with
      | float z => exact Double.beq_trans hab hbc
      | _ => cases hbc
    · cases c with
      | callable k => exact Callable.same_trans hab hbc
      | _ => cases hbc
    · cases c with
      | list id' zs => exact hbc
      | _ => cases hbc
    · exact hbc

/-! ### Structural equality -/

theorem structEq_symm (h : a.structEq b = true) : b.structEq a = true := by
  induction a using Value.descend generalizing b with
  | h a hitems hentries =>
    rcases structEq_cases h with ⟨id, xs, id', ys, rfl, rfl⟩ | ⟨t, u, rfl, rfl⟩ | ⟨hstrict, -, -⟩
    · rw [structEq, Bool.or_eq_true] at h ⊢
      refine h.imp (fun hid => beq_iff_eq.2 (beq_iff_eq.1 hid).symm) fun hpairs => ?_
      refine structItems_iff.2 (forall₂_symm_of_mem ?_ (structItems_iff.1 hpairs))
      exact fun x hx y _ hxy => hitems id xs rfl x hx hxy
    · refine structTables_iff.2 (forall₂_symm_of_mem ?_ (structTables_iff.1 h))
      rintro e he f - ⟨hkey, hvalue⟩
      exact ⟨hkey.symm, hentries t rfl e.2 (Table.snd_mem_values he) hvalue⟩
    · exact structEq_of_strictEq (strictEq_symm hstrict)

/-- Structural equality is symmetric. -/
theorem structEq_comm (a b : Value) : a.structEq b = b.structEq a :=
  Bool.eq_iff_iff.2 ⟨structEq_symm, structEq_symm⟩

/-- Structural equality is transitive for values in which lists of one identity have the same items. -/
theorem structEq_trans (hshared : a.SharesLists b) (hshared' : b.SharesLists c)
    (hab : a.structEq b = true) (hbc : b.structEq c = true) : a.structEq c = true := by
  induction a using Value.descend generalizing b c with
  | h a hitems hentries =>
    rcases structEq_cases hab with ⟨id, xs, id', ys, rfl, rfl⟩ | ⟨t, u, rfl, rfl⟩ |
      ⟨hstrict, hlist, htable⟩
    · cases c with
      | list id'' zs =>
        rw [structEq, Bool.or_eq_true] at hab hbc
        rcases hab with hid | hxy
        · -- The first two lists are one list, and the third one is compared with it.
          obtain rfl : id = id' := beq_iff_eq.1 hid
          obtain rfl : xs = ys := hshared id xs ys .self .self
          rwa [structEq, Bool.or_eq_true]
        · rcases hbc with hid | hyz
          · obtain rfl : id' = id'' := beq_iff_eq.1 hid
            obtain rfl : ys = zs := hshared' id' ys zs .self .self
            rw [structEq, hxy, Bool.or_true]
          · have hxz := forall₂_trans_of_mem (fun x hx y hy z hz => hitems id xs rfl x hx
              (hshared.item hx hy) (hshared'.item hy hz)) (structItems_iff.1 hxy)
              (structItems_iff.1 hyz)
            rw [structEq, structItems_iff.2 hxz, Bool.or_true]
      | _ => cases hbc
    · cases c with
      | array w =>
        refine structTables_iff.2
          (forall₂_trans_of_mem ?_ (structTables_iff.1 hab) (structTables_iff.1 hbc))
        rintro e he f hf g hg ⟨hkey, hvalue⟩ ⟨hkey', hvalue'⟩
        have hx : e.2 ∈ t.values := Table.snd_mem_values he
        have hy : f.2 ∈ u.values := Table.snd_mem_values hf
        have hz : g.2 ∈ w.values := Table.snd_mem_values hg
        exact ⟨hkey.trans hkey', hentries t rfl e.2 hx (hshared.entry hx hy) (hshared'.entry hy hz)
          hvalue hvalue'⟩
      | _ => cases hbc
    · rcases structEq_cases hbc with ⟨id, xs, id', ys, rfl, rfl⟩ | ⟨t, u, rfl, rfl⟩ | ⟨hstrict', -, -⟩
      · cases a with
        | list id xs => exact absurd rfl (hlist id xs)
        | _ => cases hstrict
      · cases a with
        | array t => exact absurd rfl (htable t)
        | _ => cases hstrict
      · exact structEq_of_strictEq (strictEq_trans hstrict hstrict')

/-! ### Equality of a value with itself -/

/-- Being found in a value through tables alone. -/
inductive InTables (part : Value) : Value → Prop where
  | self : InTables part part
  | entry {t : Table Value} {v : Value} : v ∈ t.values → InTables part v → InTables part (.array t)

/-- NaN keeps a value from being strictly equal to itself, if it is found through tables alone, and
nothing else does. -/
theorem strictEq_self_iff : a.strictEq a = true ↔
    ∀ x, (Value.float x).InTables a → x.isNaN = false := by
  induction a using Value.descend with
  | h a _ hentries =>
    cases a with
    | array t =>
      refine strictTables_iff.trans (List.forall₂_same.trans ⟨fun h x hx => ?_, fun h e he => ?_⟩)
      · cases hx with
        | entry hv hx =>
          obtain ⟨e, he, rfl⟩ := List.mem_map.1 hv
          exact (hentries t rfl e.2 hv).1 (h e he).2 x hx
      · have hv : e.2 ∈ t.values := Table.snd_mem_values he
        exact ⟨rfl, (hentries t rfl e.2 hv).2 fun x hx => h x (.entry hv hx)⟩
    | float x =>
      refine Double.beq_self_iff.trans ⟨fun h y hy => ?_, fun h => h x .self⟩
      cases hy
      exact h
    | callable f =>
      refine ⟨fun _ x hx => ?_, fun _ => f.same_self⟩
      cases hx
    | _ =>
      refine ⟨fun _ x hx => ?_, fun _ => by simp [strictEq]⟩
      cases hx

/-- A value is structurally equal to itself exactly if it is strictly so. -/
theorem structEq_self (a : Value) : a.structEq a = a.strictEq a := by
  refine Bool.eq_iff_iff.2 ⟨fun h => ?_, structEq_of_strictEq⟩
  induction a using Value.descend with
  | h a _ hentries =>
    cases a with
    | list id xs => exact beq_self_eq_true id
    | array t =>
      have hsame := List.forall₂_same.1 (structTables_iff.1 h)
      refine strictTables_iff.2 (List.forall₂_same.2 fun e he => ⟨rfl, ?_⟩)
      exact hentries t rfl e.2 (Table.snd_mem_values he) (hsame e he).2
    | _ => simpa only [structEq] using h

end Value

/-! ### The operations -/

namespace Operation

variable {a : Value} {others : List Value}

/-- Comparing each operand with the first one tells whether any two are strictly equal. -/
theorem allStrict_iff_pairwise :
    (others.all fun v => a.strictEq v) = true ↔
      (a :: others).Pairwise fun v w => v.strictEq w = true := by
  rw [List.all_eq_true, List.pairwise_cons]
  refine ⟨fun h => ⟨h, ?_⟩, And.left⟩
  exact List.pairwise_of_forall_mem_list fun v hv w hw =>
    Value.strictEq_trans (Value.strictEq_symm (h v hv)) (h w hw)

/-- If there is another operand, this also tells that each one is strictly equal to itself. -/
theorem allStrict_iff_forall (hne : others ≠ []) :
    (others.all fun v => a.strictEq v) = true ↔
      ∀ v ∈ a :: others, ∀ w ∈ a :: others, v.strictEq w = true := by
  rw [List.all_eq_true]
  refine ⟨fun h => ?_, fun h w hw => h a (by simp) w (by simp [hw])⟩
  obtain ⟨b, hb⟩ := List.exists_mem_of_ne_nil others hne
  have hfirst : ∀ v ∈ a :: others, a.strictEq v = true :=
    List.forall_mem_cons.2 ⟨Value.strictEq_trans (h b hb) (Value.strictEq_symm (h b hb)), h⟩
  exact fun v hv w hw => Value.strictEq_trans (Value.strictEq_symm (hfirst v hv)) (hfirst w hw)

/-- What `eq` and `not-eq` give of two operands or more. -/
theorem exists_run_eq {operands : List Value} (hlength : 2 ≤ operands.length) (s : Store) :
    ∃ answer, Operation.eq.run operands s = (.ok (.bool answer), s) ∧
      Operation.notEq.run operands s = (.ok (.bool !answer), s) ∧
      (answer = true ↔ operands.Pairwise fun v w => v.strictEq w = true) ∧
      (answer = true ↔ ∀ v ∈ operands, ∀ w ∈ operands, v.strictEq w = true) := by
  obtain _ | ⟨a, _ | ⟨b, rest⟩⟩ := operands
  · cases hlength
  · exact absurd hlength (by simp)
  · exact ⟨_, rfl, rfl, allStrict_iff_pairwise, allStrict_iff_forall (List.cons_ne_nil b rest)⟩

end Operation

namespace Underway

/-- The laws of the two equalities for all values at any moment of an evaluation. Both are symmetric and
transitive, and a value equals itself in both unless NaN is found in it through tables. Of two operands
or more, `eq` gives true exactly if any two of them are strictly equal, `not-eq` gives the opposite, and
the order of the operands does not matter. -/
theorem equality_laws {s : Store} {hand : List Value} (h : Underway s hand) :
    (∀ a b : Value, a.strictEq b = b.strictEq a ∧ a.structEq b = b.structEq a) ∧
    (∀ a b c : Value, a.strictEq b = true → b.strictEq c = true → a.strictEq c = true) ∧
    (∀ a b c : Value, s.Has hand a → s.Has hand b → s.Has hand c →
      a.structEq b = true → b.structEq c = true → a.structEq c = true) ∧
    (∀ a : Value, a.structEq a = a.strictEq a ∧
      (a.strictEq a = true ↔ ∀ x, (Value.float x).InTables a → x.isNaN = false)) ∧
    ∀ operands operands' : List Value, 2 ≤ operands.length → operands.Perm operands' → ∃ answer,
      (Operation.eq.run operands s = (.ok (.bool answer), s) ∧
        Operation.eq.run operands' s = (.ok (.bool answer), s)) ∧
      (Operation.notEq.run operands s = (.ok (.bool !answer), s) ∧
        Operation.notEq.run operands' s = (.ok (.bool !answer), s)) ∧
      (answer = true ↔ operands.Pairwise fun v w => v.strictEq w = true) ∧
      (answer = true ↔ ∀ v ∈ operands, ∀ w ∈ operands, v.strictEq w = true) := by
  refine ⟨fun a b => ⟨Value.strictEq_comm a b, Value.structEq_comm a b⟩,
    fun a b c => Value.strictEq_trans, fun a b c ha hb hc => ?_,
    fun a => ⟨Value.structEq_self a, Value.strictEq_self_iff⟩,
    fun operands operands' hlength hperm => ?_⟩
  · exact Value.structEq_trans (h.sharesLists ha hb) (h.sharesLists hb hc)
  · obtain ⟨answer, heq, hnotEq, hpairwise, hforall⟩ := Operation.exists_run_eq hlength s
    obtain ⟨answer', heq', hnotEq', -, hforall'⟩ :=
      Operation.exists_run_eq (hperm.length_eq ▸ hlength) s
    -- That any two operands are equal says nothing about their order.
    obtain rfl : answer = answer' := by
      rw [Bool.eq_iff_iff, hforall, hforall']
      simp only [hperm.mem_iff]
    exact ⟨answer, ⟨heq, heq'⟩, ⟨hnotEq, hnotEq'⟩, hpairwise, hforall⟩

/-- Three lists that hold one and the same list with NaN in it. -/
theorem equality_laws_shared_nan :
    let nan : Value := .float (0.0 / 0.0)
    let inner : Value := .list 0 [nan]
    let outer (id : Identity) : Value := .list id [inner]
    let s := Store.empty.freshened.freshened.freshened.freshened
    Underway s [outer 3, outer 2, outer 1, inner, nan] ∧ nan.structEq nan = false ∧
      (outer 1).structEq (outer 2) = true ∧ (outer 2).structEq (outer 3) = true ∧
      (outer 1).structEq (outer 3) = true ∧
      Operation.eq.run [inner, outer 1, inner] s = Operation.eq.run [inner, inner, outer 1] s := by
  intro nan inner outer s
  have hnan : Underway .empty [nan] := .reachable (Reachable.start.plain trivial trivial nofun)
  have hinner : Underway Store.empty.freshened [inner, nan] := hnan.list [nan] (by simp)
  have hfirst : Underway Store.empty.freshened.freshened [outer 1, inner, nan] :=
    hinner.list [inner] (by simp)
  have hsecond : Underway Store.empty.freshened.freshened.freshened [outer 2, outer 1, inner, nan] :=
    hfirst.list [inner] (by simp)
  have hunderway : Underway s [outer 3, outer 2, outer 1, inner, nan] :=
    hsecond.list [inner] (by simp)
  obtain ⟨-, -, htrans, -, hruns⟩ := equality_laws hunderway
  refine ⟨hunderway, by decide +kernel, rfl, rfl, ?_, ?_⟩
  · exact htrans _ (outer 2) _ (.of_mem (by simp)) (.of_mem (by simp)) (.of_mem (by simp)) rfl rfl
  · obtain ⟨answer, ⟨heq, heq'⟩, -⟩ := hruns [inner, outer 1, inner] [inner, inner, outer 1]
      (by decide) (.cons _ (.swap _ _ _))
    exact heq.trans heq'.symm

end Underway

end ConfinedLisp
