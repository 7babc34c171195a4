import ConfinedLisp.Double.Remainder
import ConfinedLisp.Operands

/-!
# Numbers

Arithmetic on integers and floats. A result of two integers is the exact integer if a machine integer
can hold it, and the float of the operation otherwise; with a float on either side it is a float.
-/

namespace ConfinedLisp

/-- A number of the language. -/
inductive Number where
  | int (n : Int64)
  | float (x : Float)

namespace Number

/-- The number that a value is. -/
def ofValue? : Value → Option Number
  | .int n => some (.int n)
  | .float x => some (.float x)
  | _ => none

/-- A number as a value. -/
def toValue : Number → Value
  | .int n => .int n
  | .float x => .float x

/-- The float nearest to a number. -/
def toFloat : Number → Float
  | .int n => Double.ofInteger n
  | .float x => x

/-- Whether a number is zero. -/
def isZero : Number → Bool
  | .int n => n == 0
  | .float x => x == 0.0

/-- The exact integer if it fits, else the float. -/
def exactOr (i : Int) (x : Float) : Number :=
  match Integer.ofInt? i with
  | some n => .int n
  | none => .float x

/-- The sum of two numbers. -/
def add : Number → Number → Number
  | .int x, .int y => exactOr (x.toInt + y.toInt) (Double.ofInteger x + Double.ofInteger y)
  | a, b => .float (a.toFloat + b.toFloat)

/-- The difference of two numbers. -/
def subtract : Number → Number → Number
  | .int x, .int y => exactOr (x.toInt - y.toInt) (Double.ofInteger x - Double.ofInteger y)
  | a, b => .float (a.toFloat - b.toFloat)

/-- The product of two numbers. -/
def multiply : Number → Number → Number
  | .int x, .int y => exactOr (x.toInt * y.toInt) (Double.ofInteger x * Double.ofInteger y)
  | a, b => .float (a.toFloat * b.toFloat)

/-- The quotient of two numbers; an integer if an integer divides another. -/
def divide : Number → Number → Number
  | .int x, .int y =>
    let quotient := Double.ofInteger x / Double.ofInteger y
    if Integer.remainder? x y = some 0 then ((Integer.quotient? x y).map .int).getD (.float quotient)
    else .float quotient
  | a, b => .float (a.toFloat / b.toFloat)

/-- The remainder of a division that truncates; an integer if both numbers are. Where integers have no
quotient that fits, nothing is left. -/
def remainder : Number → Number → Number
  | .int x, .int y => .int ((Integer.remainder? x y).getD 0)
  | a, b => .float (Double.remainder a.toFloat b.toFloat)

end Number

/-- The number that an operand is. -/
def Operands.number (callee : String) (v : Value) : Except EvalError Number :=
  match Number.ofValue? v with
  | some n => .ok n
  | none => .error (Operands.mismatch callee .number v)

end ConfinedLisp
