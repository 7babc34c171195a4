import ConfinedLisp.Operation.Run

/-!
# Exact arithmetic on integers

Arithmetic operations go over their operands from left to right. As long as all operands are integers
and each result on the way is an exact integer that a machine integer can hold, the result stays one.
From the first step on where this is not so it is a float, and it remains a float whatever comes later.
Nothing ever wraps around.

## Main definitions

- `Arithmetic.Steps`: a chain of results, each of them a machine integer.
- `Number.Follows`: what an operation on two numbers gives of integers, and that it gives floats of
  floats.
- `Combination`: the operations `+`, `-` and `*`, with their partial results.

## Main results

- `Number.Follows.foldl_eq_int_iff`: when a fold over numbers ends with an integer.
- `Combination.exact_or_promoted`: the results of `+`, `-` and `*`.
-/

namespace ConfinedLisp

open Integer (InRange)

/-! ### Operands that are numbers -/

/-- A value is a number. -/
def Value.IsNumber (v : Value) : Prop := v.kind = .int ∨ v.kind = .float

namespace Number

theorem toValue_inj {n m : Number} (h : n.toValue = m.toValue) : n = m := by
  cases n <;> cases m <;> cases h <;> rfl

theorem toValue_eq_int_iff {n : Number} {k : Int64} : n.toValue = .int k ↔ n = .int k :=
  ⟨toValue_inj (m := .int k), fun h => h ▸ rfl⟩

theorem map_toValue_eq_iff {ns : List Number} {xs : List Int64} :
    ns.map toValue = xs.map Value.int ↔ ns = xs.map .int := by
  have hxs : xs.map Value.int = (xs.map Number.int).map toValue := by
    rw [List.map_map]
    rfl
  rw [hxs, List.map_inj_right fun _ _ => toValue_inj]

theorem exists_toValue {v : Value} (h : v.IsNumber) : ∃ n : Number, n.toValue = v := by
  cases v with
  | int n => exact ⟨.int n, rfl⟩
  | float x => exact ⟨.float x, rfl⟩
  | _ => simp [Value.IsNumber, Value.kind] at h

/-- Operands that are numbers, as numbers. -/
theorem exists_map_toValue {vs : List Value} (h : ∀ v ∈ vs, v.IsNumber) :
    ∃ ns : List Number, ns.map toValue = vs := by
  induction vs with
  | nil => exact ⟨[], rfl⟩
  | cons v vs ih =>
    obtain ⟨n, rfl⟩ := exists_toValue (h v (by simp))
    obtain ⟨ns, rfl⟩ := ih fun w hw => h w (by simp [hw])
    exact ⟨n :: ns, rfl⟩

end Number

theorem Value.exists_first_not_number {vs : List Value} (h : ¬ ∀ v ∈ vs, v.IsNumber) :
    ∃ before w after, vs = before ++ w :: after ∧ (∀ v ∈ before, v.IsNumber) ∧ ¬ w.IsNumber := by
  induction vs with
  | nil => exact absurd (List.forall_mem_nil _) h
  | cons v vs ih =>
    by_cases hv : v.IsNumber
    · obtain ⟨before, w, after, rfl, hbefore, hw⟩ := ih fun hvs => h (List.forall_mem_cons.2 ⟨hv, hvs⟩)
      exact ⟨v :: before, w, after, rfl, List.forall_mem_cons.2 ⟨hv, hbefore⟩, hw⟩
    · exact ⟨[], v, vs, rfl, List.forall_mem_nil _, hv⟩

theorem Operands.number_toValue (callee : String) (n : Number) :
    Operands.number callee n.toValue = .ok n := by
  cases n <;> rfl

theorem Operands.number_of_not {callee : String} {v : Value} (h : ¬ v.IsNumber) :
    Operands.number callee v = .error (.typeMismatch callee .number v.kind) := by
  cases v with
  | int n => exact absurd (Or.inl rfl) h
  | float x => exact absurd (Or.inr rfl) h
  | _ => rfl

/-! ### Steps on integers -/

/-- A chain of results from left to right: each one comes from the one before it and the next operand,
and is a machine integer. -/
def Arithmetic.Steps (R : Int → Int → Int → Prop) : Int → List Int → Int → Prop
  | a, [], c => c = a
  | a, b :: bs, c => ∃ next, R a b next ∧ InRange next ∧ Steps R next bs c

namespace Arithmetic.Steps

variable {R R' : Int → Int → Int → Prop} {a c : Int} {bs : List Int}

theorem congr (h : ∀ b ∈ bs, ∀ a c, R a b c ↔ R' a b c) : Steps R a bs c ↔ Steps R' a bs c := by
  induction bs generalizing a with
  | nil => exact Iff.rfl
  | cons b bs ih =>
    simp only [Steps, h b (by simp), ih fun b hb => h b (by simp [hb])]

/-- If each result is that of an operation on integers, the results are those of a fold. -/
theorem iff_scanl (op : Int → Int → Int) (ha : InRange a) :
    Steps (fun a b c => op a b = c) a bs c ↔
      (∀ i ∈ bs.scanl op a, InRange i) ∧ bs.foldl op a = c := by
  induction bs generalizing a with
  | nil => simp [Steps, ha, eq_comm]
  | cons b bs ih =>
    simp only [Steps, exists_eq_left', List.scanl_cons, List.forall_mem_cons, List.foldl_cons]
    constructor
    · rintro ⟨hnext, hsteps⟩
      obtain ⟨hall, hlast⟩ := (ih hnext).1 hsteps
      exact ⟨⟨ha, hall⟩, hlast⟩
    · rintro ⟨⟨-, hall⟩, hlast⟩
      have hnext : InRange (op a b) := hall _ (List.mem_of_mem_head? List.head?_scanl)
      exact ⟨hnext, (ih hnext).2 ⟨hall, hlast⟩⟩

end Arithmetic.Steps

namespace Number

/-- Of two integers, an operation on numbers gives an integer exactly if it is as described, and it
gives a float if either of the two is one. -/
structure Follows (f : Number → Number → Number) (R : Int → Int → Int → Prop) : Prop where
  int_iff : ∀ x y n, f (.int x) (.int y) = .int n ↔ R x.toInt y.toInt n.toInt
  floats : ∀ x b, (∃ z, f (.float x) b = .float z) ∧ ∃ z, f b (.float x) = .float z

theorem exactOr_eq_int_iff {i : Int} {x : Float} {n : Int64} : exactOr i x = .int n ↔ i = n.toInt := by
  unfold exactOr
  cases hi : Integer.ofInt? i with
  | none =>
    have hout : ¬ InRange i := Integer.ofInt?_eq_none_iff.1 hi
    simp only [reduceCtorEq, false_iff]
    rintro rfl
    exact hout (Integer.inRange_toInt n)
  | some m =>
    rw [← Integer.toInt_of_ofInt?_eq_some hi, Int64.toInt_inj, Number.int.injEq]

theorem add_follows : Follows add fun a b c => a + b = c where
  int_iff _ _ _ := exactOr_eq_int_iff
  floats _ b := by cases b <;> exact ⟨⟨_, rfl⟩, _, rfl⟩

theorem subtract_follows : Follows subtract fun a b c => a - b = c where
  int_iff _ _ _ := exactOr_eq_int_iff
  floats _ b := by cases b <;> exact ⟨⟨_, rfl⟩, _, rfl⟩

theorem multiply_follows : Follows multiply fun a b c => a * b = c where
  int_iff _ _ _ := exactOr_eq_int_iff
  floats _ b := by cases b <;> exact ⟨⟨_, rfl⟩, _, rfl⟩

namespace Follows

variable {f : Number → Number → Number} {R : Int → Int → Int → Prop}

theorem eq_int_iff (h : Follows f R) {a b : Number} {n : Int64} :
    f a b = .int n ↔ ∃ x y, a = .int x ∧ b = .int y ∧ R x.toInt y.toInt n.toInt := by
  cases a with
  | float x =>
    obtain ⟨⟨z, hz⟩, -⟩ := h.floats x b
    simp [hz]
  | int x =>
    cases b with
    | float y =>
      obtain ⟨-, z, hz⟩ := h.floats y (.int x)
      simp [hz]
    | int y => simp [h.int_iff]

/-- A fold over numbers ends with an integer exactly if all of them are integers and each result on the
way is one. -/
theorem foldl_eq_int_iff (h : Follows f R) {acc : Number} {ns : List Number} {n : Int64} :
    ns.foldl f acc = .int n ↔ ∃ (x : Int64) (ys : List Int64), acc = .int x ∧ ns = ys.map .int ∧
      Arithmetic.Steps R x.toInt (ys.map Int64.toInt) n.toInt := by
  -- The result of the first step is where the rest of the fold begins.
  induction ns generalizing acc with
  | nil => simp [Arithmetic.Steps, Int64.toInt_inj]
  | cons b ns ih =>
    rw [List.foldl_cons, ih]
    constructor
    · rintro ⟨next, ys, hnext, rfl, hsteps⟩
      obtain ⟨x, y, rfl, rfl, hR⟩ := h.eq_int_iff.1 hnext
      exact ⟨x, y :: ys, rfl, rfl, next.toInt, hR, Integer.inRange_toInt next, hsteps⟩
    · rintro ⟨x, ys, rfl, hns, hsteps⟩
      cases ys with
      | nil => cases hns
      | cons y ys =>
        obtain ⟨rfl, rfl⟩ := List.cons.inj hns
        obtain ⟨next, hR, hrange, hsteps⟩ := hsteps
        rw [← Integer.toInt_ofInt hrange] at hR hsteps
        exact ⟨_, ys, h.eq_int_iff.2 ⟨x, y, rfl, rfl, hR⟩, rfl, hsteps⟩

end Follows

end Number

/-! ### Folds over operands -/

namespace Arithmetic

variable {callee : String} {f : Number → Number → Number} {n acc : Number} {ns : List Number}

theorem foldFrom_numbers :
    foldFrom callee (fun a b => .ok (f a b)) acc (ns.map Number.toValue) = .ok (ns.foldl f acc) := by
  induction ns generalizing acc with
  | nil => rfl
  | cons n ns ih =>
    rw [List.map_cons, foldFrom, Operands.number_toValue]
    exact ih

/-- A fold over numbers gives their result. -/
theorem fold_numbers : fold callee (fun a b => .ok (f a b)) ((n :: ns).map Number.toValue) =
    .ok (ns.foldl f n).toValue := by
  rw [List.map_cons, fold, Operands.number_toValue]
  show Except.map Number.toValue (foldFrom _ _ n (ns.map Number.toValue)) = _
  rw [foldFrom_numbers]
  rfl

theorem foldFrom_not_number {w : Value} (hw : ¬ w.IsNumber) (after : List Value) :
    foldFrom callee (fun a b => .ok (f a b)) acc (ns.map Number.toValue ++ w :: after) =
      .error (.typeMismatch callee .number w.kind) := by
  induction ns generalizing acc with
  | nil => rw [List.map_nil, List.nil_append, foldFrom, Operands.number_of_not hw]
  | cons n ns ih =>
    rw [List.map_cons, List.cons_append, foldFrom, Operands.number_toValue]
    exact ih

/-- A fold fails at the first operand that is not a number, whatever came before it. -/
theorem fold_not_number {w : Value} (hw : ¬ w.IsNumber) (after : List Value) :
    fold callee (fun a b => .ok (f a b)) (ns.map Number.toValue ++ w :: after) =
      .error (.typeMismatch callee .number w.kind) := by
  cases ns with
  | nil => rw [List.map_nil, List.nil_append, fold, Operands.number_of_not hw]
  | cons n ns =>
    rw [List.map_cons, List.cons_append, fold, Operands.number_toValue]
    show Except.map Number.toValue (foldFrom _ _ n (ns.map Number.toValue ++ w :: after)) = _
    rw [foldFrom_not_number hw]
    rfl

end Arithmetic

/-! ### Sums, differences and products -/

/-- The operations that take integers to integers. -/
inductive Combination where
  | sum
  | difference
  | product
deriving DecidableEq

namespace Combination

def operation : Combination → Operation
  | .sum => .add
  | .difference => .subtract
  | .product => .multiply

/-- What errors call the operation. -/
def name : Combination → String
  | .sum => "+"
  | .difference => "-"
  | .product => "*"

def onIntegers : Combination → Int → Int → Int
  | .sum, a, b => a + b
  | .difference, a, b => a - b
  | .product, a, b => a * b

def onNumbers : Combination → Number → Number → Number
  | .sum => Number.add
  | .difference => Number.subtract
  | .product => Number.multiply

/-- What is gone over from left to right: a single operand of `-` is taken from zero. -/
def folded {α : Type} (zero : α) (c : Combination) (xs : List α) : List α :=
  if c = .difference ∧ xs.length = 1 then zero :: xs else xs

/-- The results over the integers from left to right, of which the first one is that of no step. -/
def partials (c : Combination) (xs : List Int) : List Int :=
  match c.folded 0 xs with
  | [] => []
  | x :: xs => xs.scanl c.onIntegers x

/-- The operands are integers, a machine integer can hold each result on the way, and the last one is
`n`. -/
def Yields (c : Combination) (operands : List Value) (n : Int64) : Prop :=
  ∃ xs : List Int64, operands = xs.map .int ∧
    (∀ i ∈ c.partials (xs.map Int64.toInt), InRange i) ∧
    (c.partials (xs.map Int64.toInt)).getLast? = some n.toInt

variable {c : Combination}

theorem onNumbers_follows (c : Combination) :
    Number.Follows c.onNumbers fun a b n => c.onIntegers a b = n := by
  cases c
  · exact Number.add_follows
  · exact Number.subtract_follows
  · exact Number.multiply_follows

theorem folded_ne_nil {α : Type} (zero : α) {xs : List α} (h : xs ≠ []) :
    c.folded zero xs ≠ [] := by
  unfold folded
  split
  · exact List.cons_ne_nil _ _
  · exact h

theorem map_folded {α β : Type} (g : α → β) (zero : α) (xs : List α) :
    (c.folded zero xs).map g = c.folded (g zero) (xs.map g) := by
  unfold folded
  rw [List.length_map]
  split <;> rfl

theorem exists_of_folded_eq_map {α β : Type} {g : α → β} {zero : α} {ws : List β} {ys : List α}
    (h : c.folded (g zero) ws = ys.map g) : ∃ xs : List α, ws = xs.map g := by
  unfold folded at h
  split at h
  · cases ys with
    | nil => cases h
    | cons y ys => exact ⟨ys, (List.cons.inj h).2⟩
  · exact ⟨ys, h⟩

theorem partials_eq {xs ys : List Int64} {x : Int64} (h : c.folded 0 xs = x :: ys) :
    c.partials (xs.map Int64.toInt) = (ys.map Int64.toInt).scanl c.onIntegers x.toInt := by
  have hfolded : c.folded 0 (xs.map Int64.toInt) = x.toInt :: ys.map Int64.toInt := by
    rw [← List.map_cons, ← h]
    exact (map_folded Int64.toInt 0 xs).symm
  rw [partials, hfolded]

/-- The partial results are those of the steps from what is folded first. -/
theorem yields_iff {operands : List Value} (hne : operands ≠ []) {n : Int64} :
    c.Yields operands n ↔ ∃ x ys, c.folded (.int 0) operands = (x :: ys).map Value.int ∧
      Arithmetic.Steps (fun a b n => c.onIntegers a b = n) x.toInt (ys.map Int64.toInt) n.toInt := by
  constructor
  · rintro ⟨xs, rfl, hall, hlast⟩
    cases hfolded : c.folded 0 xs with
    | nil => exact absurd hfolded (c.folded_ne_nil 0 fun h => hne (h ▸ rfl))
    | cons x ys =>
      rw [partials_eq hfolded] at hall hlast
      rw [List.getLast?_scanl, Option.some.injEq] at hlast
      refine ⟨x, ys, ?_, (Arithmetic.Steps.iff_scanl _ (Integer.inRange_toInt x)).2 ⟨hall, hlast⟩⟩
      rw [← hfolded, map_folded]
  · rintro ⟨x, ys, h, hsteps⟩
    obtain ⟨xs, rfl⟩ := exists_of_folded_eq_map h
    have hfolded : c.folded 0 xs = x :: ys := by
      rw [← map_folded] at h
      exact (List.map_inj_right fun _ _ => Value.int.inj).1 h
    obtain ⟨hall, hlast⟩ := (Arithmetic.Steps.iff_scanl _ (Integer.inRange_toInt x)).1 hsteps
    refine ⟨xs, rfl, ?_⟩
    rw [partials_eq hfolded, List.getLast?_scanl, hlast]
    exact ⟨hall, rfl⟩

/-- Each of the three operations is a fold. -/
theorem run_eq {operands : List Value} (hne : operands ≠ []) (s : Store) :
    c.operation.run operands s = Eval.ofExcept (Arithmetic.fold c.name
      (fun a b => .ok (c.onNumbers a b)) (c.folded (.int 0) operands)) s := by
  obtain _ | ⟨v, rest⟩ := operands
  · exact absurd rfl hne
  cases c with
  | sum => rfl
  | product => rfl
  | difference =>
    cases rest with
    | nil =>
      show Eval.ofExcept (Except.map _ (Operands.number "-" v)) s =
        Eval.ofExcept (Except.map _ (Arithmetic.foldFrom "-" _ (.int 0) [v])) s
      rw [Arithmetic.foldFrom]
      cases Operands.number "-" v <;> rfl
    | cons w rest => rfl

/-- Numbers give a number, which is an integer exactly if the operands yield it. -/
theorem exists_run_numbers {operands : List Value} (hne : operands ≠ [])
    (h : ∀ v ∈ operands, v.IsNumber) (s : Store) : ∃ result : Number,
      c.operation.run operands s = (.ok result.toValue, s) ∧
        ∀ n, result = .int n ↔ c.Yields operands n := by
  obtain ⟨ns, rfl⟩ := Number.exists_map_toValue h
  have hns : ns ≠ [] := fun h => hne (h ▸ rfl)
  obtain ⟨m, ms, hfolded⟩ := List.exists_cons_of_ne_nil (c.folded_ne_nil (.int 0) hns)
  have hvalues : c.folded (.int 0) (ns.map Number.toValue) = (m :: ms).map Number.toValue := by
    rw [← hfolded, map_folded]
    rfl
  refine ⟨ms.foldl c.onNumbers m, ?_, fun n => ?_⟩
  · rw [run_eq hne, hvalues, Arithmetic.fold_numbers]
    rfl
  · rw [(onNumbers_follows c).foldl_eq_int_iff, yields_iff hne, hvalues]
    simp only [Number.map_toValue_eq_iff]
    simp only [List.map_cons, List.cons_eq_cons, and_assoc]

/-- The first operand that is not a number is reported, whatever came before it. -/
theorem run_not_number {before : List Value} {w : Value} (hbefore : ∀ x ∈ before, x.IsNumber)
    (hw : ¬ w.IsNumber) (after : List Value) (s : Store) : c.operation.run (before ++ w :: after) s =
      (.error (.error (.typeMismatch c.name .number w.kind)), s) := by
  obtain ⟨ns, rfl⟩ := Number.exists_map_toValue hbefore
  have hfolded : ∃ ms : List Number, c.folded (.int 0) (ns.map Number.toValue ++ w :: after) =
      ms.map Number.toValue ++ w :: after := by
    unfold folded
    split
    · exact ⟨.int 0 :: ns, rfl⟩
    · exact ⟨ns, rfl⟩
  obtain ⟨ms, hms⟩ := hfolded
  rw [run_eq (by simp), hms, Arithmetic.fold_not_number hw]
  rfl

/-- What `+`, `-` and `*` give of at least one operand. They fail exactly if some operand is not a
number, and report the first such operand. They give an integer exactly if all operands are integers
and each result from left to right is in range, and then it is the last of these results. In all other
cases they give a float. -/
theorem exact_or_promoted (c : Combination) (v : Value) (rest : List Value) (s : Store) :
    ∃ result, c.operation.run (v :: rest) s = (result, s) ∧
      ((∃ kind, result = .error (.error (.typeMismatch c.name .number kind))) ↔
        ∃ w ∈ v :: rest, ¬ w.IsNumber) ∧
      (∀ halt, result = .error halt ↔ ∃ before w after, v :: rest = before ++ w :: after ∧
        (∀ x ∈ before, x.IsNumber) ∧ ¬ w.IsNumber ∧
          halt = .error (.typeMismatch c.name .number w.kind)) ∧
      (∀ n, result = .ok (.int n) ↔ c.Yields (v :: rest) n) ∧
      ((∀ w ∈ v :: rest, w.IsNumber) → (∀ n, ¬ c.Yields (v :: rest) n) →
        ∃ x, result = .ok (.float x)) := by
  by_cases h : ∀ w ∈ v :: rest, w.IsNumber
  · obtain ⟨result, hrun, hint⟩ := c.exists_run_numbers (List.cons_ne_nil v rest) h s
    refine ⟨.ok result.toValue, hrun, ⟨?_, ?_⟩, fun halt => ⟨?_, ?_⟩, fun n => ?_, fun _ hno => ?_⟩
    · rintro ⟨kind, hkind⟩
      cases hkind
    · rintro ⟨w, hw, hnot⟩
      exact absurd (h w hw) hnot
    · intro herror
      cases herror
    · rintro ⟨before, w, after, hsplit, -, hnot, -⟩
      exact absurd (h w (by simp [hsplit])) hnot
    · rw [Except.ok.injEq, Number.toValue_eq_int_iff, hint n]
    · cases result with
      | int n => exact absurd ((hint n).1 rfl) (hno n)
      | float x => exact ⟨x, rfl⟩
  · obtain ⟨before, w, after, hsplit, hbefore, hw⟩ := Value.exists_first_not_number h
    have hmem : w ∈ v :: rest := by simp [hsplit]
    have hrun := c.run_not_number hbefore hw after s
    rw [← hsplit] at hrun
    refine ⟨_, hrun, ⟨fun _ => ⟨w, hmem, hw⟩, fun _ => ⟨w.kind, rfl⟩⟩, fun halt => ⟨?_, ?_⟩,
      fun n => ⟨?_, ?_⟩, fun hall => absurd hall h⟩
    · intro herror
      cases herror
      exact ⟨before, w, after, hsplit, hbefore, hw, rfl⟩
    · rintro ⟨before', w', after', hsplit', hbefore', hw', rfl⟩
      have hrun' := c.run_not_number hbefore' hw' after' s
      rw [← hsplit'] at hrun'
      exact congrArg Prod.fst (hrun.symm.trans hrun')
    · intro hok
      cases hok
    · rintro ⟨xs, hxs, -⟩
      rw [hxs] at hmem
      obtain ⟨n, -, rfl⟩ := List.mem_map.1 hmem
      exact absurd (Or.inl rfl) hw

/-- A sum that is in range is a float if a result on the way is not. -/
theorem exact_or_promoted_halfway :
    let operands : List Value := [.int 9223372036854775807, .int 1, .int (-1)]
    (∀ n, ¬ Combination.sum.Yields operands n) ∧
      ∃ x, Operation.add.run operands .empty = (.ok (.float x), .empty) := by
  intro operands
  have hno : ∀ n, ¬ Combination.sum.Yields operands n := by
    rintro n ⟨xs, hxs, hall, -⟩
    obtain rfl : [9223372036854775807, 1, -1] = xs :=
      (List.map_inj_right fun _ _ => Value.int.inj).1 hxs
    exact absurd (hall 9223372036854775808 (by decide)) (by decide)
  obtain ⟨result, hrun, -, -, -, hfloat⟩ := exact_or_promoted .sum _ [.int 1, .int (-1)] .empty
  obtain ⟨x, rfl⟩ := hfloat (by simp [Value.IsNumber, Value.kind]) hno
  exact ⟨hno, x, hrun⟩

end Combination

end ConfinedLisp
