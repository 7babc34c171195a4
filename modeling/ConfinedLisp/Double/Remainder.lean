import ConfinedLisp.Double.View

/-!
# Remainders of doubles

The remainder of a division that truncates: it has the sign of the dividend, is smaller than the
divisor in absolute value, and is always exact.
-/

namespace ConfinedLisp

namespace Double

/-- The remainder of two fractions, on the finer of their two binary grids. -/
def Fraction.remainder (a b : Fraction) : Fraction :=
  let grid := min a.exponent b.exponent
  let dividend := a.significand * Nat.pow 2 (a.exponent - grid).toNat
  let divisor := b.significand * Nat.pow 2 (b.exponent - grid).toNat
  ⟨a.negative, dividend % divisor, grid⟩

/-- The remainder of two doubles. A divisor of zero and an infinite dividend have none; an infinite
divisor leaves the dividend. -/
def remainder (x y : Float) : Float :=
  match view x, view y with
  | .finite a, .finite b =>
    if b.significand = 0 then 0.0 / 0.0
    else if a.significand = 0 then x
    else ofFraction (a.remainder b)
  | .finite _, .infinite _ => x
  | _, _ => 0.0 / 0.0

end Double

end ConfinedLisp
