import ConfinedLisp.Proofs.Comparison

/-!
# Loose equality is symmetric

Two tables are compared by looking the keys of the one up in the other. This has a direction: only the
keys of the first one are looked up. That it makes no difference rests on a count, as tables of the same
size with distinct keys have the same keys if one has all keys of the other. The order in which entries
are compared does make a difference to whether the comparison ends, so the two directions are compared
where both have an answer; both have one if no vector leads back to itself.

## Main definitions

- `Loose.Agree`: two answers that do not contradict each other.
- `Store.LoopsBack`: a value holds a vector from which one reaches a vector that holds itself.

## Main results

- `Value.looseEqWith_agree`: the two directions agree if they do for vectors.
- `Store.looseVectors_agree`: they do for vectors.
- `Store.ComparisonLoops.loopsBack`: a comparison without an end leads through such vectors on both
  sides.
- `Store.Tidy.looseEq_symmetric`: what follows for loose equality.
-/

namespace ConfinedLisp

/-! ### Values that are compared at once -/

theorem Callable.same_comm {α : Type} (c d : Callable α) : c.same d = d.same c := by
  have hcomm : ∀ {β : Type} [DecidableEq β] (x y : β), decide (x = y) = decide (y = x) :=
    fun x y => decide_eq_decide.2 eq_comm
  cases c <;> cases d <;> simp [Callable.same, hcomm]

theorem Loose.texts_comm (s t : String) : texts s t = texts t s := by
  have hcomm : (s == t) = (t == s) := BEq.comm
  unfold texts
  cases numberOf? s <;> cases numberOf? t <;> simp [hcomm, Double.beq_comm]

namespace Loose

/-- Two answers do not contradict each other. -/
def Agree (p q : Option Bool) : Prop := ∀ x y, p = some x → q = some y → x = y

theorem Agree.of_eq {p q : Option Bool} (h : p = q) : Agree p q := by
  intro x y hx hy
  exact Option.some.inj (hx.symm.trans (h.trans hy))

theorem Agree.symm {p q : Option Bool} (h : Agree p q) : Agree q p :=
  fun x y hx hy => (h y x hy hx).symm

/-- Two answers agree unless one is true and the other one false. -/
theorem Agree.of_not {p q : Option Bool} (h : ¬ (p = some true ∧ q = some false))
    (h' : ¬ (q = some true ∧ p = some false)) : Agree p q := by
  intro x y hx hy
  cases x <;> cases y
  · rfl
  · exact absurd ⟨hy, hx⟩ h'
  · exact absurd ⟨hx, hy⟩ h
  · rfl

theorem Agree.not {p q : Option Bool} (h : Agree p q) (hp : p = some true) : q ≠ some false :=
  fun hq => Bool.noConfusion (h true false hp hq)

variable {vectors : VectorId → VectorId → Option Bool}

/-- If the one pairs are all equal, then the others are among them, turned round. -/
def Mirrors (vectors : VectorId → VectorId → Option Bool) (pairs pairs' : List (Value × Option Value)) :
    Prop :=
  allWith vectors pairs = some true → ∀ q ∈ pairs', ∃ x, q.2 = some x ∧ (x, some q.1) ∈ pairs

theorem Mirrors.not_true_false {pairs pairs' : List (Value × Option Value)}
    (h : Mirrors vectors pairs pairs')
    (hagree : ∀ x y, (x, some y) ∈ pairs →
      Agree (Value.looseEqWith vectors x y) (Value.looseEqWith vectors y x)) :
    ¬ (allWith vectors pairs = some true ∧ allWith vectors pairs' = some false) := by
  rintro ⟨htrue, hfalse⟩
  obtain ⟨q, hq, hdiffer⟩ := exists_of_allWith_eq_false hfalse
  obtain ⟨x, hx, hpair⟩ := h htrue q hq
  obtain ⟨y, hy, hequal⟩ := allWith_eq_true_iff.1 htrue _ hpair
  cases hy
  exact (hagree x q.1 hpair).not hequal (hdiffer x hx)

/-- Pairs that mirror each other agree if each of them agrees with itself turned round. -/
theorem Mirrors.agree {pairs pairs' : List (Value × Option Value)} (h : Mirrors vectors pairs pairs')
    (h' : Mirrors vectors pairs' pairs)
    (hagree : ∀ x y, (x, some y) ∈ pairs ∨ (y, some x) ∈ pairs' →
      Agree (Value.looseEqWith vectors x y) (Value.looseEqWith vectors y x)) :
    Agree (allWith vectors pairs) (allWith vectors pairs') :=
  .of_not (h.not_true_false fun x y hxy => hagree x y (Or.inl hxy))
    (h'.not_true_false fun y x hyx => (hagree x y (Or.inr hyx)).symm)

theorem mirrors_items (xs ys : List Value) :
    Mirrors vectors (xs.zip (ys.map some)) (ys.zip (xs.map some)) := by
  rintro - ⟨y, x?⟩ hq
  obtain ⟨i, hi⟩ := List.mem_iff_getElem?.1 hq
  obtain ⟨hy, hx?⟩ := List.getElem?_zip_eq_some.1 hi
  obtain ⟨x, hx, rfl⟩ : ∃ x, xs[i]? = some x ∧ some x = x? := by simpa using hx?
  refine ⟨x, rfl, List.mem_of_getElem? (i := i) (List.getElem?_zip_eq_some.2 ⟨hx, ?_⟩)⟩
  rw [List.getElem?_map, hy]
  rfl

/-- Of two tables of the same size, each has all keys of the other if one has. -/
theorem mirrors_tables {t u : Table Value} (ht : t.Indexed) (hu : u.Indexed)
    (hsize : t.size = u.size) :
    Mirrors vectors (t.entries.map fun e => (e.2, u.get? e.1))
      (u.entries.map fun e => (e.2, t.get? e.1)) := by
  intro htrue q hq
  obtain ⟨⟨key, w⟩, hw, rfl⟩ := List.mem_map.1 hq
  have hsubset : t.keys ⊆ u.keys := by
    intro k hk
    obtain ⟨⟨k, v⟩, hv, rfl⟩ := List.mem_map.1 hk
    obtain ⟨x, hx, -⟩ := allWith_eq_true_iff.1 htrue _ (List.mem_map.2 ⟨_, hv, rfl⟩)
    exact List.mem_map.2 ⟨_, hu.get?_eq_some_iff.1 hx, rfl⟩
  have hperm : t.keys.Perm u.keys := by
    refine (List.subperm_of_subset ht.distinct hsubset).perm_of_length_le ?_
    rw [← Table.size_eq_length_keys, ← Table.size_eq_length_keys, hsize]
  have hkey : key ∈ t.keys := hperm.mem_iff.2 (List.mem_map.2 ⟨_, hw, rfl⟩)
  obtain ⟨⟨key, v⟩, hv, rfl⟩ := List.mem_map.1 hkey
  refine ⟨v, ht.get?_eq_some_iff.2 hv, List.mem_map.2 ⟨_, hv, ?_⟩⟩
  rw [hu.get?_eq_some_iff.2 hw]

end Loose

namespace Value

variable {vectors : VectorId → VectorId → Option Bool} {a b : Value}

/-- All but two lists, two tables or two vectors are compared the same way in both directions. -/
theorem looseEqWith_comm_cases (a b : Value) :
    (∃ id xs id' ys, a = .list id xs ∧ b = .list id' ys) ∨ (∃ t u, a = .array t ∧ b = .array u) ∨
      (∃ i j, a = .object i ∧ b = .object j) ∨
      ∀ vectors, looseEqWith vectors a b = looseEqWith vectors b a := by
  have hbool : ∀ x y : Bool, (x == y) = (y == x) := fun x y => Bool.beq_comm
  have hint : ∀ x y : Int64, (x == y) = (y == x) := fun x y => BEq.comm
  have hstr : ∀ x y : String, (x == y) = (y == x) := fun x y => BEq.comm
  have hscope : ∀ x y : FrameId, (x == y) = (y == x) := fun x y => BEq.comm
  cases a <;> cases b
  case list.list id xs id' ys => exact Or.inl ⟨id, xs, id', ys, rfl, rfl⟩
  case array.array t u => exact Or.inr (Or.inl ⟨t, u, rfl, rfl⟩)
  case object.object i j => exact Or.inr (Or.inr (Or.inl ⟨i, j, rfl, rfl⟩))
  all_goals refine Or.inr (Or.inr (Or.inr fun vectors => ?_))
  case bool.bool x y => simp only [looseEqWith, isTruthy, hbool x y]
  case int.int x y => simp only [looseEqWith, hint x y]
  case sym.sym x y => simp only [looseEqWith, hstr x y]
  case scope.scope x y => simp only [looseEqWith, hscope x y]
  case callable.callable c d => simp only [looseEqWith, Callable.same_comm c d]
  case str.str x y => simp only [looseEqWith, Loose.texts_comm x y]
  case float.float x y => simp only [looseEqWith, Double.beq_comm x y]
  case int.float n x => simp only [looseEqWith, Double.beq_comm x]
  case float.int x n => simp only [looseEqWith, Double.beq_comm x]
  all_goals rfl

/-- If the comparison of vectors agrees in its two directions, so does that of values whose tables
were built. -/
theorem looseEqWith_agree (hvectors : ∀ i j, Loose.Agree (vectors i j) (vectors j i))
    (ha : a.TablesBuilt) (hb : b.TablesBuilt) :
    Loose.Agree (looseEqWith vectors a b) (looseEqWith vectors b a) := by
  induction a using Value.descend generalizing b with
  | h a hitems hentries =>
    rcases looseEqWith_comm_cases a b with ⟨id, xs, id', ys, rfl, rfl⟩ | ⟨t, u, rfl, rfl⟩ |
      ⟨i, j, rfl, rfl⟩ | hcomm
    · rw [looseEqWith, looseEqWith]
      by_cases hlength : xs.length = ys.length
      · rw [if_pos hlength, if_pos hlength.symm, Loose.looseItemsWith_eq, Loose.looseItemsWith_eq]
        refine (Loose.mirrors_items xs ys).agree (Loose.mirrors_items ys xs) fun x y hxy => ?_
        obtain ⟨hx, hy⟩ : x ∈ xs ∧ y ∈ ys :=
          hxy.elim Loose.mem_of_mem_zip fun h => (Loose.mem_of_mem_zip h).symm
        exact hitems id xs rfl x hx (ha.item hx) (hb.item hy)
      · rw [if_neg hlength, if_neg fun h => hlength h.symm]
        exact .of_eq rfl
    · rw [looseEqWith, looseEqWith]
      by_cases hsize : t.size = u.size
      · rw [if_pos hsize, if_pos hsize.symm, Loose.looseTablesWith_eq, Loose.looseTablesWith_eq]
        refine (Loose.mirrors_tables ha.indexed hb.indexed hsize).agree
          (Loose.mirrors_tables hb.indexed ha.indexed hsize.symm) fun x y hxy => ?_
        obtain ⟨hx, hy⟩ : x ∈ t.values ∧ y ∈ u.values :=
          hxy.elim Loose.mem_values_of_mem_map fun h => (Loose.mem_values_of_mem_map h).symm
        exact hentries t rfl x hx (ha.entry hx) (hb.entry hy)
      · rw [if_neg hsize, if_neg fun h => hsize h.symm]
        exact .of_eq rfl
    · rw [looseEqWith, looseEqWith]
      by_cases hij : i = j
      · rw [if_pos hij, if_pos hij.symm]
        exact .of_eq rfl
      · rw [if_neg hij, if_neg fun h => hij h.symm]
        exact hvectors i j
    · exact .of_eq (hcomm vectors)

end Value

/-! ### Vectors -/

namespace Store

variable {s : Store} {a b : Value}

/-- The two directions agree for vectors, over any number of steps from vector to vector. -/
theorem looseVectors_agree (h : ∀ i, ∀ x ∈ s.vector i, x.TablesBuilt) (fuel : Nat)
    (i j : VectorId) : Loose.Agree (s.looseVectors fuel i j) (s.looseVectors fuel j i) := by
  have hvector : ∀ i, (Value.list 0 (s.vector i)).TablesBuilt := by
    intro i t ht
    cases ht with
    | item hx ht => exact h i _ hx t ht
  induction fuel generalizing i j with
  | zero => exact .of_eq rfl
  | succ fuel ih =>
    -- Two vectors are compared like the lists of their items.
    exact Value.looseEqWith_agree (a := .list 0 (s.vector i)) (b := .list 0 (s.vector j)) ih
      (hvector i) (hvector j)

/-- One vector is found in an item of another one. -/
def VectorLeads (s : Store) (i j : VectorId) : Prop := ∃ x ∈ s.vector i, (Value.object j).Within x

/-- From a vector in a value, one comes to a vector that can be reached from itself. -/
def LoopsBack (s : Store) (v : Value) : Prop :=
  ∃ i j, (Value.object i).Within v ∧ Relation.ReflTransGen s.VectorLeads i j ∧
    Relation.TransGen s.VectorLeads j j

end Store

/-- The vectors that a comparison comes to lie in the two values. -/
theorem Loose.ComesTo.within {vectors : VectorId → VectorId → Option Bool} {p : VectorId × VectorId}
    {a b : Value} (h : ComesTo vectors p a b) :
    (Value.object p.1).Within a ∧ (Value.object p.2).Within b := by
  induction h with
  | here => exact ⟨.self, .self⟩
  | @inside a b x y before after hinner _ _ ih =>
    have hmem : (x, some y) ∈ inner a b := by
      rw [hinner]
      simp
    unfold inner at hmem
    split at hmem
    · split at hmem
      · obtain ⟨hx, hy⟩ := mem_of_mem_zip hmem
        exact ⟨.item hx ih.1, .item hy ih.2⟩
      · cases hmem
    · split at hmem
      · obtain ⟨hx, hy⟩ := mem_values_of_mem_map hmem
        exact ⟨.entry hx ih.1, .entry hy ih.2⟩
      · cases hmem
    · cases hmem

namespace Store

variable {s : Store} {a b : Value}

theorem ComparisonLeads.vectorLeads {p q : VectorId × VectorId} (h : s.ComparisonLeads p q) :
    s.VectorLeads p.1 q.1 ∧ s.VectorLeads p.2 q.2 := by
  have hitem : ∀ i j, (Value.object j).Within (.list 0 (s.vector i)) → s.VectorLeads i j := by
    intro i j hj
    cases hj with
    | item hx hj => exact ⟨_, hx, hj⟩
  obtain ⟨hleft, hright⟩ := Loose.ComesTo.within h
  exact ⟨hitem _ _ hleft, hitem _ _ hright⟩

/-- A comparison that does not end leads through vectors that hold themselves, on both sides. -/
theorem ComparisonLoops.loopsBack (h : s.ComparisonLoops a b) : s.LoopsBack a ∧ s.LoopsBack b := by
  obtain ⟨p, q, hcomes, hleads, hloop⟩ := h
  obtain ⟨ha, hb⟩ := hcomes.within
  exact ⟨⟨p.1, q.1, ha, hleads.lift Prod.fst fun _ _ h => h.vectorLeads.1,
      hloop.lift Prod.fst fun _ _ h => h.vectorLeads.1⟩,
    ⟨p.2, q.2, hb, hleads.lift Prod.snd fun _ _ h => h.vectorLeads.2,
      hloop.lift Prod.snd fun _ _ h => h.vectorLeads.2⟩⟩

/-- Comparing two values that compare as `answer`, in the language. -/
theorem run_equal_pair {answer : Bool} (h : s.looseEq a b = some answer) :
    Operation.equal.run [a, b] s = (.ok (.bool answer), s) := by
  have hpair := allLoose_pair "equal" a b s
  rw [h] at hpair
  exact Eval.bind_of_ok hpair _

/-- Loose equality is symmetric. Where every table was built, as it is in every store that a host can
come to (`Reachable.tidy`) and at every moment of an evaluation there (`Store.Tidy.throughout`), the two
directions of a comparison never contradict each other. If no vector in one of the two values leads to a
vector that can be reached from itself, both directions end, and `equal` gives the same answer for
both. -/
theorem Tidy.looseEq_symmetric (h : s.Tidy [a, b]) :
    (∀ answer answer', s.looseEq a b = some answer → s.looseEq b a = some answer' →
      answer = answer') ∧
    (¬ s.LoopsBack a ∨ ¬ s.LoopsBack b →
      ∃ answer, s.looseEq a b = some answer ∧ s.looseEq b a = some answer ∧
        Operation.equal.run [a, b] s = (.ok (.bool answer), s) ∧
        Operation.equal.run [b, a] s = (.ok (.bool answer), s)) := by
  have hvectors : ∀ i, ∀ x ∈ s.vector i, x.TablesBuilt :=
    fun i x hx => h.tablesBuilt ⟨x, Or.inr (Or.inr ⟨i, hx⟩), .self⟩
  have hagree : Loose.Agree (s.looseEq a b) (s.looseEq b a) :=
    Value.looseEqWith_agree (looseVectors_agree hvectors _) (h.tablesBuilt (.of_mem (by simp)))
      (h.tablesBuilt (.of_mem (by simp)))
  refine ⟨hagree, fun hloop => ?_⟩
  have hends : ¬ (s.LoopsBack a ∧ s.LoopsBack b) := not_and_or.2 hloop
  cases hab : s.looseEq a b with
  | none => exact absurd (looseEq_eq_none_iff.1 hab).loopsBack hends
  | some answer =>
    cases hba : s.looseEq b a with
    | none => exact absurd (looseEq_eq_none_iff.1 hba).loopsBack.symm hends
    | some answer' =>
      obtain rfl := hagree answer answer' hab hba
      exact ⟨answer, rfl, rfl, run_equal_pair hab, run_equal_pair hba⟩

/-- Two tables with the same keys in another order, one of them with a vector of an integer and the
other one with a vector of its text. -/
theorem Tidy.looseEq_symmetric_reordered :
    let s : Store := { Store.empty with vectors := #[#[.int 1], #[.str "1"]] }
    let t : Table Value := (Table.empty.insert (.name "a") (.object 0)).insert (.name "b") .nil
    let u : Table Value := (Table.empty.insert (.name "b") (.bool false)).insert (.name "a") (.object 1)
    s.Tidy [.array t, .array u] ∧ ¬ s.LoopsBack (.array t) ∧
      ∃ answer, s.looseEq (.array t) (.array u) = some answer ∧
        s.looseEq (.array u) (.array t) = some answer := by
  intro s t u
  have hvector : ∀ i, ∀ x ∈ s.vector i, x = .int 1 ∨ x = .str "1" := by
    rintro (_ | _ | i) x hx
    · exact Or.inl (List.mem_singleton.1 hx)
    · exact Or.inr (List.mem_singleton.1 hx)
    · cases hx
  have hleads : ∀ i j, ¬ s.VectorLeads i j := by
    rintro i j ⟨x, hx, hj⟩
    rcases hvector i x hx with rfl | rfl <;> cases hj
  have hloop : ¬ s.LoopsBack (.array t) := by
    rintro ⟨i, j, -, -, hloop⟩
    obtain ⟨k, hk, -⟩ := Relation.TransGen.head'_iff.1 hloop
    exact hleads j k hk
  have hleaf : ∀ v : Value, v.IsLeaf → v.All Value.Tidy := by
    intro v hv
    refine hv.all_iff.2 fun t ht => ?_
    subst ht
    cases hv
  have htable : ∀ (k k' : Key) (v w : Value), v.All Value.Tidy → w.All Value.Tidy →
      (Value.array ((Table.empty.insert k v).insert k' w)).All Value.Tidy := by
    intro k k' v w hv hw
    have hbuilt : ((Table.empty.insert k v).insert k' w).Built := .insert _ _ (.insert _ _ .empty)
    refine Value.all_array.2 ⟨hbuilt.tidy, fun x hx => ?_⟩
    rcases Table.mem_values_insert hx with rfl | hx
    · exact hw
    · rcases Table.mem_values_insert hx with rfl | hx
      · exact hv
      · cases hx
  have htidy : s.Tidy [.array t, .array u] := by
    refine tidy_iff.2 ⟨?_, fun v hv => ?_⟩
    · rintro v (⟨f, name, hv⟩ | ⟨i, hv⟩)
      · simp [bindings, s, empty] at hv
      · rcases hvector i v hv with rfl | rfl
        · exact hleaf (.int 1) trivial
        · exact hleaf (.str "1") trivial
    · rcases List.mem_pair.1 hv with rfl | rfl
      · exact htable _ _ _ _ (hleaf (.object 0) trivial) (hleaf .nil trivial)
      · exact htable _ _ _ _ (hleaf (.bool false) trivial) (hleaf (.object 1) trivial)
  obtain ⟨answer, hab, hba, -⟩ := htidy.looseEq_symmetric.2 (Or.inl hloop)
  exact ⟨htidy, hloop, answer, hab, hba⟩

end Store

end ConfinedLisp
