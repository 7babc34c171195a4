/-!
# Doubles as binary fractions

A finite double is `significand · 2^exponent` with a sign. `Double.view` reads that fraction off the
bits, and `Double.ofFraction` writes one back, so that questions about a double (its whole part, its
remainder by another, its decimal digits) are answered by exact arithmetic on natural numbers.
-/

namespace ConfinedLisp

namespace Double

/-- A signed binary fraction: `significand · 2^exponent`, negated if `negative`. -/
structure Fraction where
  negative : Bool
  significand : Nat
  exponent : Int
deriving DecidableEq, Repr

/-- What a double stands for. -/
inductive View where
  | nan
  | infinite (negative : Bool)
  | finite (fraction : Fraction)
deriving DecidableEq, Repr

/-- The exponent of the least positive double. -/
def leastExponent : Int := -1074

/-- The first significand of full length. -/
def fullSignificand : Nat := Nat.pow 2 52

/-- Positive infinity. -/
def infinity : Float := Float.ofBits 0x7FF0000000000000

/-- Reads a double off its bits: one for the sign, eleven for the exponent, the rest for the
significand, whose leading one is left out except in the lowest binade. -/
def view (x : Float) : View :=
  let bits := x.toBits.toNat
  let negative := bits / Nat.pow 2 63 = 1
  let biased : Nat := bits / Nat.pow 2 52 % Nat.pow 2 11
  let low := bits % Nat.pow 2 52
  if biased = 2047 then
    if low = 0 then .infinite negative else .nan
  else if biased = 0 then .finite ⟨negative, low, leastExponent⟩
  else .finite ⟨negative, fullSignificand + low, (biased : Int) - 1075⟩

/-- The double equal to a fraction whose significand is below `2^53` and whose exponent is not below
that of the least double. -/
def ofFraction (f : Fraction) : Float :=
  let sign := if f.negative then Nat.pow 2 63 else 0
  if f.significand = 0 then Float.ofBits (UInt64.ofNat sign)
  else
    let room := 52 - Nat.log2 f.significand
    let shift := min room (f.exponent - leastExponent).toNat
    let significand := f.significand * Nat.pow 2 shift
    let exponent := f.exponent - shift
    let bits :=
      if significand < fullSignificand then significand
      else (exponent + 1075).toNat * Nat.pow 2 52 + (significand - fullSignificand)
    Float.ofBits (UInt64.ofNat (sign + bits))

/-- The integer nearest to zero between which and zero the fraction lies. -/
def Fraction.truncate (f : Fraction) : Int :=
  let whole :=
    if 0 ≤ f.exponent then f.significand * Nat.pow 2 f.exponent.toNat
    else f.significand / Nat.pow 2 (-f.exponent).toNat
  if f.negative then -(whole : Int) else whole

/-- Whether a fraction is a whole number. -/
def Fraction.isWhole (f : Fraction) : Bool :=
  decide (0 ≤ f.exponent) || f.significand % Nat.pow 2 (-f.exponent).toNat = 0

/-- The whole part of a finite double. -/
def truncate? (x : Float) : Option Int :=
  match view x with
  | .finite f => some f.truncate
  | _ => none

/-- The value of a finite double that is a whole number. -/
def whole? (x : Float) : Option Int :=
  match view x with
  | .finite f => if f.isWhole then some f.truncate else none
  | _ => none

/-- The double nearest to a machine integer, in the model of floats that proofs can open. -/
def ofInteger (n : Int64) : Float := .ofModel (.ofInt64 n)

end Double

end ConfinedLisp
