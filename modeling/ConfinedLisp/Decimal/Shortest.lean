import ConfinedLisp.Double.View

/-!
# The shortest decimal of a double

Among the decimals that round to a given double, the one with the fewest digits, and of those the
nearest. The reals that round to `m · 2^q` form an interval around it that holds its ends exactly when
`m` is even. On each grid of decimals, coarse to fine, only the two neighbours of the value can be the
answer; the first grid on which one of them lies in the interval decides.
-/

namespace ConfinedLisp

namespace Decimal

/-- Which of two equally near decimals is taken. -/
inductive Tie where
  | up
  | even
deriving DecidableEq, Repr

/-- `a · 2^q / 10^k` as a pair of natural numbers, numerator and denominator. -/
def onGrid (a : Nat) (q k : Int) : Nat × Nat :=
  (a * Nat.pow 2 q.toNat * Nat.pow 10 (-k).toNat, Nat.pow 2 (-q).toNat * Nat.pow 10 k.toNat)

/-- The exponent of the leading decimal digit of `m · 2^q`, for positive `m`. -/
def leadingExponent (m : Nat) (q : Int) : Int :=
  let atLeast (k : Int) : Bool :=
    let (num, den) := onGrid m q k
    decide (den ≤ num)
  let guess := (Nat.log2 m + q) * 30103 / 100000
  if atLeast (guess + 1) then guess + 1
  else if atLeast guess then guess
  else guess - 1

/-- The multiple of `10^k` that rounds to `m · 2^q` and is nearest to it, as a count of `10^k`. -/
def gridPoint? (tie : Tie) (m : Nat) (q k : Int) : Option Nat :=
  -- Quarters of the last binary place: below a power of two the doubles lie twice as close.
  let below := if m = Double.fullSignificand ∧ Double.leastExponent < q then 1 else 2
  let (value, unit) := onGrid (4 * m) (q - 2) k
  let (low, _) := onGrid (4 * m - below) (q - 2) k
  let (high, _) := onGrid (4 * m + 2) (q - 2) k
  let floor := value / unit
  let closed := m % 2 = 0
  let lowerFits := low < floor * unit ∨ (closed ∧ low = floor * unit)
  let upperFits := (floor + 1) * unit < high ∨ (closed ∧ (floor + 1) * unit = high)
  let toLower := value - floor * unit
  let toUpper := (floor + 1) * unit - value
  if lowerFits ∧ upperFits then
    if toLower < toUpper then some floor
    else if toUpper < toLower then some (floor + 1)
    else match tie with
      | .up => some (floor + 1)
      | .even => some (if floor % 2 = 0 then floor else floor + 1)
  else if lowerFits then some floor
  else if upperFits then some (floor + 1)
  else none

/-- The shortest decimal of `m · 2^q` for positive `m`: a count and the power of ten it counts. -/
def shortest (tie : Tie) (m : Nat) (q : Int) : Nat × Int :=
  let lead := leadingExponent m q
  let finest := lead - 16
  let found := (List.range 17).findSome? fun (i : Nat) =>
    let k := lead - (i : Int)
    (gridPoint? tie m q k).map fun n => (n, k)
  found.getD ((onGrid m q finest).1 / (onGrid m q finest).2, finest)

end Decimal

end ConfinedLisp
