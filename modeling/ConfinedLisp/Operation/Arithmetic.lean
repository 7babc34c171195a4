import ConfinedLisp.Number

/-!
# Arithmetic operations

The operations `+`, `-`, `*`, `/` and `%` on any number of operands, taken from left to right.
-/

namespace ConfinedLisp

namespace Arithmetic

/-- A step of a division: the divisor must not be zero. -/
def dividing (callee : String) (step : Number → Number → Number) (a b : Number) :
    Except EvalError Number :=
  if b.isZero then .error (.divisionByZero callee) else .ok (step a b)

/-- Goes on from a number over the remaining operands. Each operand is checked when it is reached. -/
def foldFrom (callee : String) (step : Number → Number → Except EvalError Number) :
    Number → List Value → Except EvalError Number
  | acc, [] => .ok acc
  | acc, v :: vs =>
    match Operands.number callee v with
    | .error e => .error e
    | .ok n =>
      match step acc n with
      | .error e => .error e
      | .ok acc => foldFrom callee step acc vs

/-- Folds operands from the left, starting with the first one. -/
def fold (callee : String) (step : Number → Number → Except EvalError Number) :
    List Value → Except EvalError Value
  | [] => .error (.arity callee (.atLeast 1) 0)
  | v :: vs =>
    match Operands.number callee v with
    | .error e => .error e
    | .ok n => (foldFrom callee step n vs).map Number.toValue

/-- The sum of the operands, zero of none. -/
def sum (operands : List Value) : Except EvalError Value :=
  match operands with
  | [] => .ok (.int 0)
  | _ => fold "+" (fun a b => .ok (a.add b)) operands

/-- The first operand less the others, or the negation of a single one. -/
def difference (operands : List Value) : Except EvalError Value :=
  match operands with
  | [v] => (Operands.number "-" v).map fun n => (Number.subtract (.int 0) n).toValue
  | _ => fold "-" (fun a b => .ok (a.subtract b)) operands

/-- The product of the operands, one of none. -/
def product (operands : List Value) : Except EvalError Value :=
  match operands with
  | [] => .ok (.int 1)
  | _ => fold "*" (fun a b => .ok (a.multiply b)) operands

/-- The first operand divided by each of the others in turn. -/
def quotient (operands : List Value) : Except EvalError Value := do
  Operands.count "/" (.atLeast 2) operands
  fold "/" (dividing "/" Number.divide) operands

/-- The remainder of the first operand by each of the others in turn. -/
def modulus (operands : List Value) : Except EvalError Value := do
  Operands.count "%" (.atLeast 2) operands
  fold "%" (dividing "%" Number.remainder) operands

end Arithmetic

end ConfinedLisp
