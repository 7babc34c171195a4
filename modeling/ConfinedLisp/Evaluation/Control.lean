import ConfinedLisp.Eval
import ConfinedLisp.Value.Nesting

/-!
# Control operations

Control operations call their first operand with items of the other ones: `Control.runWith` says how,
given the means to call. What they call with reaches less deep than their own operands, which is why a
chain of control operations that call each other ends.
-/

namespace ConfinedLisp

/-- Whether a value can be called: a callable, or the name of a registered host function. -/
def Store.isCallable (s : Store) (scope : FrameId) : Value → Bool
  | .callable _ => true
  | .str name => ((s.registry scope).function? name).isSome
  | _ => false

namespace Control

/-- Checks that an operand can be called. -/
def expectCallable (callee : String) (scope : FrameId) (v : Value) : Eval Unit := do
  if ← Eval.read fun s => s.isCallable scope v then pure ()
  else Eval.fail (Operands.mismatch callee .callable v)

/-- The first items of some lists, the second ones, and so on while every list has one, after the rows
that are done, the last one first. -/
def lockstepOnto {α : Type} (done : List (List α)) : List α → List (List α) → List (List α)
  | [], _ => done.reverse
  | x :: xs, others =>
    if others.any List.isEmpty then done.reverse
    else lockstepOnto ((x :: others.filterMap List.head?) :: done) xs (others.map List.tail)

/-- The first items of some lists, the second ones, and so on while every list has one. -/
def lockstep {α : Type} (columns : List (List α)) : List (List α) :=
  match columns with
  | [] => []
  | xs :: others => lockstepOnto [] xs others

/-- A row that is not done has an item, and all its items come from the lists. -/
theorem mem_of_mem_lockstepOnto {α : Type} {done others : List (List α)} {row xs : List α}
    (h : row ∈ lockstepOnto done xs others) (hnew : row ∉ done) :
    row ≠ [] ∧ ∀ x ∈ row, ∃ column ∈ xs :: others, x ∈ column := by
  induction xs generalizing done others with
  | nil => exact absurd (by simpa [lockstepOnto] using h) hnew
  | cons y ys ih =>
    rw [lockstepOnto] at h
    split at h
    · exact absurd (by simpa using h) hnew
    · by_cases hfirst : row = y :: others.filterMap List.head?
      · subst hfirst
        refine ⟨by simp, fun x hx => ?_⟩
        rcases List.mem_cons.1 hx with rfl | hx
        · exact ⟨x :: ys, by simp, by simp⟩
        · obtain ⟨column, hcolumn, hhead⟩ := List.mem_filterMap.1 hx
          exact ⟨column, by simp [hcolumn], List.mem_of_mem_head? (by simp [hhead])⟩
      · obtain ⟨hsome, hinner⟩ := ih h (by simp [hfirst, hnew])
        refine ⟨hsome, fun x hx => ?_⟩
        obtain ⟨column, hcolumn, hinside⟩ := hinner x hx
        rcases List.mem_cons.1 hcolumn with hsame | hcolumn
        · exact ⟨y :: ys, by simp, by simp [← hsame, hinside]⟩
        · obtain ⟨whole, hwhole, rfl⟩ := List.mem_map.1 hcolumn
          exact ⟨whole, by simp [hwhole], List.mem_of_mem_tail hinside⟩

/-- A row has an item, and all its items come from the columns. -/
theorem mem_of_mem_lockstep {α : Type} {columns : List (List α)} {row : List α}
    (h : row ∈ lockstep columns) :
    row ≠ [] ∧ ∀ x ∈ row, ∃ column ∈ columns, x ∈ column := by
  cases columns with
  | nil => simp [lockstep] at h
  | cons xs others => exact mem_of_mem_lockstepOnto h (by simp)

/-- Calls with each row of arguments in turn: the results, after those that are done, the last one
first. -/
def callEachOnto {ρ : Type} (call : ρ → Eval Value) (done : List Value) :
    List ρ → Eval (List Value)
  | [] => pure done.reverse
  | row :: rest => do
    let v ← call row
    callEachOnto call (v :: done) rest

/-- Calls with each row of arguments in turn: the results. -/
def callEach {ρ : Type} (call : ρ → Eval Value) (rows : List ρ) : Eval (List Value) :=
  callEachOnto call [] rows

/-- The items for which a call gives a true value, after those that are kept, the last one first. -/
def keepTruthyOnto (call : Value → Eval Value) (kept : List Value) : List Value → Eval (List Value)
  | [] => pure kept.reverse
  | v :: rest => do
    let answer ← call v
    keepTruthyOnto call (if answer.isTruthy then v :: kept else kept) rest

/-- The items for which a call gives a true value. -/
def keepTruthy (call : Value → Eval Value) (items : List Value) : Eval (List Value) :=
  keepTruthyOnto call [] items

/-- Calls with the result so far and each item in turn. -/
def foldCalls {ι : Type} (call : Value → ι → Eval Value) : Value → List ι → Eval Value
  | acc, [] => pure acc
  | acc, v :: rest => do
    let acc ← call acc v
    foldCalls call acc rest

/-- How deep the operands after the first are nested. A control operation calls its first operand with
items of the others; only a fold puts something else, a result, before such an item. -/
def reach (operands : List Value) : Nat := Value.nestingOf (operands.drop 1)

/-- Operands reach at most as deep as they are nested. -/
theorem reach_le_nestingOf (operands : List Value) : reach operands ≤ Value.nestingOf operands := by
  cases operands with
  | nil => exact Nat.le_refl _
  | cons v vs =>
    rw [Value.nestingOf]
    exact Nat.le_max_right ..

/-- The items of an operand after the first are nested less deep than the operands reach. -/
theorem nestingOf_lt_reach {callee : String} {v : Value} {operands items : List Value}
    (hv : v ∈ operands.drop 1) (h : Operands.sequence callee v = .ok items) :
    Value.nestingOf items < reach operands :=
  Nat.lt_of_lt_of_le (Operands.nestingOf_lt_of_sequence h) (Value.nesting_le_nestingOf hv)

/-- An operand that is a sequence is one that is there. -/
theorem getD_mem_of_sequence {callee : String} {operands items : List Value} {i : Nat}
    (h : Operands.sequence callee (operands.getD (i + 1) .nil) = .ok items) :
    operands.getD (i + 1) .nil ∈ operands.drop 1 := by
  by_cases hlt : i + 1 < operands.length
  · rw [List.mem_iff_getElem?]
    exact ⟨i, by simp [List.getD, hlt]⟩
  · rw [List.getD, List.getElem?_eq_none (by omega)] at h
    cases h

/-- The items of an operand after the first, as operands, reach less deep. -/
theorem reach_lt_of_sequence {callee : String} {operands items : List Value} {i : Nat}
    (h : Operands.sequence callee (operands.getD (i + 1) .nil) = .ok items) :
    reach items < reach operands :=
  Nat.lt_of_le_of_lt (reach_le_nestingOf items) (nestingOf_lt_reach (getD_mem_of_sequence h) h)

/-- A single operand reaches less deep than operands with a sequence after the first. -/
theorem reach_singleton_lt {callee : String} {operands items : List Value} {i : Nat}
    (h : Operands.sequence callee (operands.getD (i + 1) .nil) = .ok items) (v : Value) :
    reach [v] < reach operands :=
  Nat.lt_of_le_of_lt (Nat.zero_le _) (reach_lt_of_sequence h)

/-- A result before an item of an operand after the first reaches less deep. -/
theorem reach_pair_lt {callee : String} {operands items : List Value} {i : Nat}
    (h : Operands.sequence callee (operands.getD (i + 1) .nil) = .ok items) {v : Value}
    (hv : v ∈ items) (result : Value) : reach [result, v] < reach operands := by
  refine Value.nestingOf_lt (Nat.lt_of_le_of_lt (Nat.zero_le _) (reach_lt_of_sequence h)) ?_
  intro w hw
  obtain rfl : w = v := by simpa using hw
  exact Nat.lt_of_le_of_lt (Value.nesting_le_nestingOf hv)
    (nestingOf_lt_reach (getD_mem_of_sequence h) h)

/-- The rows of some sequences reach less deep than the operands that are these sequences. -/
theorem reach_lt_of_mem_lockstep {callee : String} {operands row : List Value}
    {columns : List (List Value)}
    (h : (operands.drop 1).mapM (Operands.sequence callee) = .ok columns)
    (hrow : row ∈ lockstep columns) : reach row < reach operands := by
  obtain ⟨hsome, hitems⟩ := mem_of_mem_lockstep hrow
  have hinner : ∀ v ∈ row, v.nesting < reach operands := by
    intro v hv
    obtain ⟨column, hcolumn, hinside⟩ := hitems v hv
    obtain ⟨operand, hoperand, hitem⟩ := Operands.mem_of_mapM_sequence h hcolumn
    exact Nat.lt_of_le_of_lt (Value.nesting_le_nestingOf hinside) (nestingOf_lt_reach hoperand hitem)
  obtain ⟨x, hx⟩ := List.exists_mem_of_ne_nil row hsome
  exact Nat.lt_of_le_of_lt (reach_le_nestingOf row)
    (Value.nestingOf_lt (Nat.lt_of_le_of_lt (Nat.zero_le _) (hinner x hx)) hinner)

/-- Runs a control operation, given the means to call with operands that reach less deep. -/
def runWith (control : Control) (scope : FrameId) (operands : List Value)
    (call : Value → (args : List Value) → reach args < reach operands → Eval Value) : Eval Value :=
  let callee := operands.headD .nil
  match control with
  | .apply => do
    Eval.ofExcept (Operands.count "apply" (.exactly 2) operands)
    expectCallable "apply" scope callee
    match h : Operands.sequence "apply" (operands.getD 1 .nil) with
    | .error e => Eval.fail e
    | .ok args => call callee args (reach_lt_of_sequence h)
  | .map => do
    Eval.ofExcept (Operands.count "map" (.atLeast 2) operands)
    expectCallable "map" scope callee
    match h : (operands.drop 1).mapM (Operands.sequence "map") with
    | .error e => Eval.fail e
    | .ok columns => do
      let rows := (lockstep columns).attachWith
        (fun row => reach row < reach operands) fun _ => reach_lt_of_mem_lockstep h
      Eval.newList (← callEach (fun row => call callee row.1 row.2) rows)
  | .filter => do
    Eval.ofExcept (Operands.count "filter" (.exactly 2) operands)
    expectCallable "filter" scope callee
    match h : Operands.sequence "filter" (operands.getD 1 .nil) with
    | .error e => Eval.fail e
    | .ok items => do
      Eval.newList (← keepTruthy (fun v => call callee [v] (reach_singleton_lt h v)) items)
  | .fold => do
    Eval.ofExcept (Operands.count "fold" (.exactly 3) operands)
    expectCallable "fold" scope callee
    match h : Operands.sequence "fold" (operands.getD 2 .nil) with
    | .error e => Eval.fail e
    | .ok items =>
      let items := items.attachWith (fun v => ∀ acc, reach [acc, v] < reach operands)
        fun _ hv acc => reach_pair_lt h hv acc
      foldCalls (fun acc v => call callee [acc, v.1] (v.2 acc)) (operands.getD 1 .nil) items
  | .isCallable => do
    Eval.ofExcept (Operands.count "callable?" (.exactly 1) operands)
    return .bool (← Eval.read fun s => s.isCallable scope callee)

end Control

end ConfinedLisp
