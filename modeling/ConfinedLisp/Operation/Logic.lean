import ConfinedLisp.Number
import ConfinedLisp.Value.Equality

/-!
# Truth, order and type tests

Operations that ask something of their operands. `and` and `or` give one of their operands; every
operand has been evaluated by then.
-/

namespace ConfinedLisp

namespace Logic

/-- Whether the only operand counts as false. -/
def negation (operands : List Value) : Except EvalError Value := do
  Operands.count "not" (.exactly 1) operands
  .ok (.bool (!(operands.headD .nil).isTruthy))

/-- The first operand that counts as false, else the last; true of none. -/
def conjunction (operands : List Value) : Value :=
  match operands.getLast? with
  | none => .bool true
  | some last => (operands.find? fun v => !v.isTruthy).getD last

/-- The first operand that counts as true, else the last; false of none. -/
def disjunction (operands : List Value) : Value :=
  match operands.getLast? with
  | none => .bool false
  | some last => (operands.find? fun v => v.isTruthy).getD last

/-- How two floats compare; not at all if one of them is NaN. -/
def compareFloats (x y : Float) : Option Ordering :=
  if x < y then some .lt
  else if x == y then some .eq
  else if y < x then some .gt
  else none

/-- How two texts compare, by code points. -/
def compareTexts (s t : String) : Ordering :=
  if s < t then .lt else if s = t then .eq else .gt

/-- How two values compare. Numbers compare with numbers and strings with strings; two integers compare
exactly, any other two numbers as floats. -/
def compare (callee : String) (a b : Value) : Except EvalError (Option Ordering) :=
  match a, b with
  | .int x, .int y => .ok (some (Ord.compare x.toInt y.toInt))
  | .int x, .float y => .ok (compareFloats (Double.ofInteger x) y)
  | .float x, .int y => .ok (compareFloats x (Double.ofInteger y))
  | .float x, .float y => .ok (compareFloats x y)
  | .str s, .str t => .ok (some (compareTexts s t))
  | .int _, other | .float _, other | .str _, other =>
    .error (Operands.mismatch callee (.kind a.kind) other)
  | other, _ => .error (Operands.mismatch callee .ordered other)

/-- Whether each operand and the next compare as accepted, up to the first pair that does not. -/
def ordered (callee : String) (accept : Ordering → Bool) : List Value → Except EvalError Bool
  | a :: b :: rest =>
    match compare callee a b with
    | .error e => .error e
    | .ok (some ordering) => if accept ordering then ordered callee accept (b :: rest) else .ok false
    | .ok none => .ok false
  | _ => .ok true

/-- An ordering operation on two or more operands. -/
def chain (callee : String) (accept : Ordering → Bool) (operands : List Value) :
    Except EvalError Value := do
  Operands.count callee (.atLeast 2) operands
  (ordered callee accept operands).map .bool

/-- Whether the type of the only operand is accepted. -/
def typeTest (callee : String) (accept : Kind → Bool) (operands : List Value) :
    Except EvalError Value := do
  Operands.count callee (.exactly 1) operands
  .ok (.bool (accept (operands.headD .nil).kind))

/-- Whether every operand after the first strictly equals the first. -/
def allStrict (callee : String) (operands : List Value) : Except EvalError Bool := do
  Operands.count callee (.atLeast 2) operands
  match operands with
  | first :: others => .ok (others.all fun v => first.strictEq v)
  | [] => .ok true

end Logic

end ConfinedLisp
