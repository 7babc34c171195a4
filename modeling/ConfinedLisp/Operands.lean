import ConfinedLisp.Error
import ConfinedLisp.Double.View

/-!
# Checking operands

How callables check the number and the types of their operands. Every failure names the callee.
-/

namespace ConfinedLisp

namespace Operands

/-- Checks the number of operands. -/
def count (callee : String) (expected : Arity) (operands : List Value) : Except EvalError Unit :=
  if expected.allows operands.length then .ok ()
  else .error (.arity callee expected operands.length)

/-- The failure of an operand that is not what was expected. -/
def mismatch (callee : String) (expected : Expectation) (found : Value) : EvalError :=
  .typeMismatch callee expected found.kind

/-- A symbol's name. -/
def symbol (callee : String) : Value → Except EvalError String
  | .sym name => .ok name
  | v => .error (mismatch callee .symbol v)

/-- A string. -/
def string (callee : String) : Value → Except EvalError String
  | .str s => .ok s
  | v => .error (mismatch callee .string v)

/-- The items of a list. -/
def list (callee : String) : Value → Except EvalError (List Value)
  | .list _ items => .ok items
  | v => .error (mismatch callee .list v)

/-- An integer, or the machine integer nearest to a whole float. -/
def integer (callee : String) : Value → Except EvalError Int64
  | .int n => .ok n
  | .float x =>
    match Double.whole? x with
    | some i => .ok (Integer.saturate i)
    | none => .error (mismatch callee .integer (.float x))
  | v => .error (mismatch callee .integer v)

/-- The items of a list, or the values of a table in order. -/
def sequence (callee : String) : Value → Except EvalError (List Value)
  | .list _ items => .ok items
  | .array table => .ok table.values
  | v => .error (mismatch callee .sequence v)

/-- A table, or the one with the items of a list. -/
def table (callee : String) : Value → Except EvalError (Table Value)
  | .array table => .ok table
  | .list _ items => .ok (Table.ofValues items)
  | v => .error (mismatch callee .table v)

end Operands

/-- The key that a value stands for in a table, if it can stand for one. Floats lose their fraction, nil
is the empty name, and a symbol is always a name. -/
def Key.ofValue? : Value → Option Key
  | .int n => some (.index n)
  | .float x => (Double.truncate? x).map fun i => .index (Integer.saturate i)
  | .bool b => some (.index (if b then 1 else 0))
  | .nil => some (.name "")
  | .str s => some (Key.ofText s)
  | .sym s => some (.name s)
  | _ => none

/-- A key as a value. -/
def Key.toValue : Key → Value
  | .index n => .int n
  | .name s => .str s

/-- The key that an operand stands for. -/
def Operands.key (callee : String) (v : Value) : Except EvalError Key :=
  match Key.ofValue? v with
  | some key => .ok key
  | none => .error (Operands.mismatch callee .key v)

end ConfinedLisp
