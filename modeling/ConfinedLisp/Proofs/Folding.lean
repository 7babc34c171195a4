import ConfinedLisp.Proofs.ErrorKinds
import ConfinedLisp.Proofs.ExactArithmetic
import ConfinedLisp.Proofs.ListIdentities
import ConfinedLisp.Proofs.Wrappers

/-!
# Folding with an operator

`fold` calls an operator once for each element, with the result so far as a value. `apply` hands it all
elements at once. If the fold starts with the operator's result for no operands, and no element is a
float, this makes no difference: the results on the way become floats at the same step, and the first
element that is not a number is reported in the same way.

## Main definitions

- `Value.elements?`: the elements of a list or table.
- `Combination.unit?`: the result of an operation for no operands.

## Main results

- `Combination.foldCalls_eq`: folding with an operation is what the operation does by itself.
- `Combination.fold_agrees_with_apply`: `fold` and `apply` with `+` and `*`.
-/

namespace ConfinedLisp

/-- The elements of a list or table, in order. -/
def Value.elements? : Value → Option (List Value)
  | .list _ items => some items
  | .array t => some t.values
  | _ => none

/-- A list or table with some elements, none of which is a float. -/
def Value.HasNoFloats (v : Value) (items : List Value) : Prop :=
  v.elements? = some items ∧ ∀ w ∈ items, w.kind ≠ .float

theorem Operands.sequence_of_elements? {v : Value} {items : List Value}
    (h : v.elements? = some items) (callee : String) :
    Operands.sequence callee v = .ok items := by
  cases v with
  | list id vs =>
    cases h
    rfl
  | array t =>
    cases h
    rfl
  | _ => cases h

namespace Combination

/-! ### Going over the elements -/

variable {c : Combination} {u : Int64} {items : List Value}

/-- The result for no operands, if there is one. -/
def unit? : Combination → Option Int64
  | .sum => some 0
  | .difference => none
  | .product => some 1

theorem onNumbers_unit (hu : c.unit? = some u) (n : Int64) :
    c.onNumbers (.int u) (.int n) = .int n := by
  refine (onNumbers_follows c).eq_int_iff.2 ⟨u, n, rfl, rfl, ?_⟩
  cases c with
  | sum =>
    cases hu
    exact Int.zero_add _
  | difference => cases hu
  | product =>
    cases hu
    exact Int.one_mul _

/-- What an operation gives of two operands, of which the first one is a number. -/
theorem run_pair (c : Combination) (a : Number) (v : Value) (s : Store) :
    c.operation.run [a.toValue, v] s =
      Eval.ofExcept ((Operands.number c.name v).map fun n => (c.onNumbers a n).toValue) s := by
  have hfolded : c.folded (.int 0) [a.toValue, v] = [a.toValue, v] := if_neg fun h => by cases h.2
  rw [run_eq (List.cons_ne_nil _ _), hfolded, Arithmetic.fold, Operands.number_toValue]
  show Eval.ofExcept (Except.map _ (Arithmetic.foldFrom _ _ a [v])) s = _
  rw [Arithmetic.foldFrom]
  cases Operands.number c.name v with
  | error e => rfl
  | ok n => rfl

/-- Calling an operation with the result so far and each element in turn is going over the elements from
that result. -/
theorem foldCalls_eq (c : Combination) (a : Number) (items : List Value) (s : Store) :
    Control.foldCalls (fun acc v => c.operation.run [acc, v]) a.toValue items s =
      Eval.ofExcept ((Arithmetic.foldFrom c.name (fun a b => .ok (c.onNumbers a b)) a items).map
        Number.toValue) s := by
  -- A call that succeeds gives a number, from which the next call goes on.
  induction items generalizing a with
  | nil => rfl
  | cons v rest ih =>
    have hstep := c.run_pair a v s
    rw [Arithmetic.foldFrom]
    cases hv : Operands.number c.name v with
    | error e =>
      rw [hv] at hstep
      exact Eval.bind_of_error hstep _
    | ok n =>
      rw [hv] at hstep
      exact (Eval.bind_of_ok hstep _).trans (ih (c.onNumbers a n))

/-- An operation that has a result for no operands goes over all of them from that result, unless the
first one is a float: zero and minus zero make zero, and not minus zero. -/
theorem run_eq_foldFrom (hu : c.unit? = some u) (hfirst : ∀ v, items.head? = some v → v.kind ≠ .float)
    (s : Store) : c.operation.run items s =
      Eval.ofExcept ((Arithmetic.foldFrom c.name (fun a b => .ok (c.onNumbers a b)) (.int u)
        items).map Number.toValue) s := by
  cases items with
  | nil =>
    cases c with
    | sum =>
      cases hu
      rfl
    | difference => cases hu
    | product =>
      cases hu
      rfl
  | cons v rest =>
    have hfolded : c.folded (.int 0) (v :: rest) = v :: rest := by
      refine if_neg fun h => ?_
      rw [h.1] at hu
      cases hu
    rw [run_eq (List.cons_ne_nil _ _), hfolded, Arithmetic.fold, Arithmetic.foldFrom]
    by_cases hv : v.IsNumber
    · obtain ⟨n, rfl⟩ := Number.exists_toValue hv
      cases n with
      | float x => exact absurd rfl (hfirst _ rfl)
      | int n =>
        rw [Operands.number_toValue]
        simp only [onNumbers_unit hu]
    · rw [Operands.number_of_not hv]
      rfl

/-- Folding from the result for no operands gives what the operation gives of the elements. -/
theorem foldCalls_unit (hu : c.unit? = some u) (h : ∀ v ∈ items, v.kind ≠ .float) (s : Store) :
    Control.foldCalls (fun acc v => c.operation.run [acc, v]) (.int u) items s =
      c.operation.run items s := by
  have hfirst : ∀ v, items.head? = some v → v.kind ≠ .float := fun v hv =>
    h v (List.mem_of_mem_head? hv)
  exact (c.foldCalls_eq (.int u) items s).trans (run_eq_foldFrom hu hfirst s).symm

end Combination

/-! ### Control operations that call an operation -/

theorem Control.checking_callable {scope : FrameId} {c : Callable Value} {rest : List Value}
    {callee : String} {arity : Arity} (harity : arity.allows (rest.length + 1) = true)
    (x : Eval Value) (s : Store) :
    checking scope (.callable c :: rest) callee arity x s = x s := by
  have hcount : Eval.ofExcept (Operands.count callee arity (.callable c :: rest)) s = (.ok (), s) := by
    rw [Operands.count, List.length_cons, if_pos harity]
    rfl
  have hcallable : expectCallable callee scope (.callable c) s = (.ok (), s) := rfl
  exact (Eval.bind_of_ok hcount _).trans (Eval.bind_of_ok hcallable _)

namespace Evaluator

variable (ev : Evaluator) (scope : FrameId) (o : Operation) (copy : Option Identity) {v : Value}
  {items : List Value}

theorem call_operation (args : List Value) :
    ev.call scope (.callable (.primitive (.operation o) copy)) args = o.run args := by
  rw [call_callable]
  rfl

theorem runControl_apply_operation (h : v.elements? = some items) (s : Store) :
    ev.runControl scope .apply [.callable (.primitive (.operation o) copy), v] s = o.run items s := by
  rw [runControl, Control.runWith_apply, Control.checking_callable rfl]
  refine (congrFun (Eval.bind_ofExcept_of_ok (Operands.sequence_of_elements? h "apply") _) s).trans ?_
  exact congrFun (ev.call_operation scope o copy items) s

theorem runControl_fold_operation (init : Value) (h : v.elements? = some items) (s : Store) :
    ev.runControl scope .fold [.callable (.primitive (.operation o) copy), init, v] s =
      Control.foldCalls (fun acc w => o.run [acc, w]) init items s := by
  have hcalls : (fun acc w : Value => ev.call scope (.callable (.primitive (.operation o) copy))
      [acc, w]) = fun acc w => o.run [acc, w] :=
    funext fun acc => funext fun w => ev.call_operation scope o copy [acc, w]
  rw [runControl, Control.runWith_fold, Control.checking_callable rfl]
  refine (congrFun (Eval.bind_ofExcept_of_ok (Operands.sequence_of_elements? h "fold") _) s).trans ?_
  exact congrFun (congrArg (Control.foldCalls · init items) hcalls) s

variable {c : Combination} {u : Int64}

/-- Folding with an operation from its result for no operands is applying it. -/
theorem runControl_fold_eq_apply (hu : c.unit? = some u) (h : v.HasNoFloats items) (s : Store) :
    ev.runControl scope .fold [.callable (.primitive (.operation c.operation) copy), .int u, v] s =
        c.operation.run items s ∧
      ev.runControl scope .apply [.callable (.primitive (.operation c.operation) copy), v] s =
        c.operation.run items s :=
  ⟨(ev.runControl_fold_operation scope _ copy _ h.1 s).trans (Combination.foldCalls_unit hu h.2 s),
    ev.runControl_apply_operation scope _ copy h.1 s⟩

end Evaluator

/-! ### Programs that fold -/

namespace Store

variable {s v : Store} {f : FrameId} {name : String}

/-- An application of a control operation by its name evaluates the operands and runs it. -/
theorem evaluate_control {k : Control} {copy : Option Identity}
    (hname : s.lookup? f name = some (.callable (.primitive (.control k) copy)))
    (henter : s.enter f = (.ok (), v)) (id : Identity) (forms : List Value) :
    evaluate (.list id (.sym name :: forms)) f s =
      ((((v.evaluator.values f forms).bind (v.evaluator.runControl f k)) v.freshened).1,
        (((v.evaluator.values f forms).bind (v.evaluator.runControl f k)) v.freshened).2.leave f) := by
  have hframes : v.frames = s.frames := by
    rw [← s.frames_enter f, henter]
  have hhead : v.evaluator (.sym name) f v = (.ok (.callable (.primitive (.control k) copy)), v) :=
    evaluate_name ((lookup?_congr hframes f name).trans hname) v.headroom
  rw [evaluator_of_enter henter] at hhead ⊢
  exact evaluateWithin_application henter hhead id forms

variable {c : Combination} {u : Int64} {x : Value}

/-- The bodies of a fold and of an application of the operation, in a store that was entered. -/
theorem fold_body_eq_apply_body (hu : c.unit? = some u)
    (hname : v.lookup? f c.name = some (.callable (.primitive (.operation c.operation) none)))
    (hx : ∀ w t, evaluate x f v.freshened = (.ok w, t) → ∃ items, w.HasNoFloats items) :
    (v.evaluator.values f [.sym c.name, .int u, x]).bind (v.evaluator.runControl f .fold) v.freshened =
      (v.evaluator.values f [.sym c.name, x]).bind (v.evaluator.runControl f .apply) v.freshened := by
  have hframes : v.freshened.frames = v.frames := rfl
  have hoperator : v.evaluator (.sym c.name) f v.freshened =
      (.ok (.callable (.primitive (.operation c.operation) none)), v.freshened) :=
    evaluate_name ((lookup?_congr hframes f c.name).trans hname) v.headroom
  have hunit : v.evaluator (.int u) f v.freshened = (.ok (.int u), v.freshened) := rfl
  cases helements : v.evaluator x f v.freshened with
  | mk result t =>
    have hlast := Evaluator.values_singleton helements
    have hfold := Evaluator.values_cons hoperator (Evaluator.values_cons hunit hlast)
    have happly := Evaluator.values_cons hoperator hlast
    cases result with
    | error halt => exact (Eval.bind_of_error hfold _).trans (Eval.bind_of_error happly _).symm
    | ok w =>
      obtain ⟨items, hitems⟩ := hx w t helements
      obtain ⟨hleft, hright⟩ := v.evaluator.runControl_fold_eq_apply f none hu hitems t
      calc _ = _ := Eval.bind_of_ok hfold _
        _ = _ := hleft.trans hright.symm
        _ = _ := (Eval.bind_of_ok happly _).symm

end Store

namespace Combination

variable {c : Combination} {u : Int64}

theorem find?_seed (c : Combination) : Assoc.find? c.name Engine.seed =
    some (.callable (.primitive (.operation c.operation) none)) := by
  cases c <;> rfl

/-- Folding with `+` from zero is applying `+`, and folding with `*` from one is applying `*`.

Called with an operation and a list or table without floats, `fold` and `apply` give what the operation
gives of the elements: the same integer, the same float or the same error. Programs that fold and apply,
where the names mean what they mean in a fresh sandbox, do the same to the store as well. -/
theorem fold_agrees_with_apply (hu : c.unit? = some u) (s : Store) (f : FrameId) :
    (∀ v items, v.HasNoFloats items → ∀ copy copy',
      invoke f (.primitive (.control .fold) copy)
          [.callable (.primitive (.operation c.operation) copy'), .int u, v] s =
        c.operation.run items s ∧
      invoke f (.primitive (.control .apply) copy)
          [.callable (.primitive (.operation c.operation) copy'), v] s =
        c.operation.run items s) ∧
    ∀ x, (∀ name ∈ ["fold", "apply", c.name], s.lookup? f name = Assoc.find? name Engine.seed) →
      (∀ v t, evaluate x f (s.enter f).2.freshened = (.ok v, t) → ∃ items, v.HasNoFloats items) →
      ∀ id id', evaluate (.list id [.sym "fold", .sym c.name, .int u, x]) f s =
        evaluate (.list id' [.sym "apply", .sym c.name, x]) f s := by
  refine ⟨fun v items h copy copy' => s.evaluator.runControl_fold_eq_apply f copy' hu h s,
    fun x hnames hx id id' => ?_⟩
  have hfold : s.lookup? f "fold" = some (.callable (.primitive (.control .fold) none)) :=
    hnames "fold" (by simp)
  have happly : s.lookup? f "apply" = some (.callable (.primitive (.control .apply) none)) :=
    hnames "apply" (by simp)
  cases henter : s.enter f with
  | mk entered v =>
    cases entered with
    | error e =>
      -- Neither program gets a place in the budget.
      have hrefused : (s.enter f).1 = .error e := by rw [henter]
      exact (Eval.within_of_error _ hrefused).trans (Eval.within_of_error _ hrefused).symm
    | ok =>
      have hframes : v.frames = s.frames := by
        rw [← s.frames_enter f, henter]
      have hname := (Store.lookup?_congr hframes f c.name).trans
        ((hnames c.name (by simp)).trans c.find?_seed)
      rw [henter] at hx
      rw [Store.evaluate_control hfold henter, Store.evaluate_control happly henter,
        Store.fold_body_eq_apply_body hu hname hx]

/-- In a fresh sandbox, a table whose sum is in range, but not the sum of the first two elements. -/
theorem fold_agrees_with_apply_halfway :
    let s := Store.empty.withEngine .standard ⟨3, none⟩
    let items : List Value := [.int 9223372036854775807, .int 1, .int (-1)]
    let xs : Value := .array (Table.ofValues items)
    let plus : Value := .callable (.primitive (.operation .add) none)
    Combination.sum.unit? = some 0 ∧ xs.HasNoFloats items ∧
      (∀ name ∈ ["fold", "apply", "+"], s.lookup? 0 name = Assoc.find? name Engine.seed) ∧
      (∃ z, invoke 0 (.primitive (.control .fold) none) [plus, .int 0, xs] s = (.ok (.float z), s) ∧
        invoke 0 (.primitive (.control .apply) none) [plus, xs] s = (.ok (.float z), s)) ∧
      evaluate (.list 0 [.sym "fold", .sym "+", .int 0, xs]) 0 s =
        evaluate (.list 0 [.sym "apply", .sym "+", xs]) 0 s := by
  intro s items xs plus
  have hxs : xs.HasNoFloats items := ⟨rfl, by simp [items, Value.kind]⟩
  have hnames : ∀ name ∈ ["fold", "apply", "+"], s.lookup? 0 name = Assoc.find? name Engine.seed := by
    intro name hname
    simp only [List.mem_cons, List.not_mem_nil, or_false] at hname
    rcases hname with rfl | rfl | rfl <;> exact Store.lookup?_withEngine .empty .standard _ rfl
  clear_value s
  obtain ⟨hcalls, hprograms⟩ := fold_agrees_with_apply (c := .sum) rfl s 0
  obtain ⟨hfold, happly⟩ := hcalls xs items hxs none none
  refine ⟨rfl, hxs, hnames, ⟨_, hfold, happly⟩, hprograms xs hnames (fun v t hv => ?_) 0 0⟩
  cases hv
  exact ⟨items, hxs⟩

end Combination

end ConfinedLisp
