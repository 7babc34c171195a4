import ConfinedLisp.Evaluation.Budget
import ConfinedLisp.Evaluation.Call

/-!
# Evaluation

A symbol evaluates to its value, a list with a head is an application, and everything else evaluates to
itself. Applications nest within the limits of the budget, so the remaining depth of all runtimes
together bounds the recursion.
-/

namespace ConfinedLisp

/-- The evaluator for fewer than `fuel` nested applications. -/
def evaluateWithin : Nat → Evaluator
  | 0 => fun _ _ => Eval.endless
  | fuel + 1 => fun form scope =>
    match form with
    | .sym name => Eval.read fun s => s.get scope name
    | .list _ (head :: rest) =>
      Eval.within scope (Evaluator.applyForm (evaluateWithin fuel) scope head rest)
    | v => pure v

/-- The evaluator for as many nested applications as the budgets of a store still allow. -/
def Store.evaluator (s : Store) : Evaluator := evaluateWithin (s.headroom + 1)

/-- Evaluates a form in a scope. -/
def evaluate (form : Value) (scope : FrameId) : Eval Value := fun s => s.evaluator form scope s

/-- Evaluates forms in turn: the last value, or nil if there is none. -/
def evaluateAll (forms : List Value) (scope : FrameId) : Eval Value :=
  Evaluator.body evaluate scope forms

/-- Calls a value with values. -/
def call (scope : FrameId) (callee : Value) (args : List Value) : Eval Value := fun s =>
  s.evaluator.call scope callee args s

/-- Applies a callable to unevaluated operands. -/
def applyCallable (scope : FrameId) (c : Callable Value) (operands : List Value) : Eval Value := do
  let id ← Eval.freshIdentity
  fun s => s.evaluator.apply scope c id operands s

/-- Calls a callable with values. -/
def invoke (scope : FrameId) (c : Callable Value) (args : List Value) : Eval Value := fun s =>
  s.evaluator.invoke scope c args s

end ConfinedLisp
