import ConfinedLisp.Double.View

/-!
# Rounding to doubles

The double nearest to a quotient of natural numbers. The quotient is counted in units of the last
binary place that a double of its size has, and the count is rounded; a half goes to the even neighbour.
-/

namespace ConfinedLisp

namespace Double

/-- The exponent of the greatest doubles. -/
def greatestExponent : Int := 971

/-- `num / den` rounded to a natural number; a half goes to the even neighbour. -/
def roundQuotient (num den : Nat) : Nat :=
  let quotient := num / den
  let twice := 2 * (num % den)
  if den < twice ∨ (den = twice ∧ quotient % 2 = 1) then quotient + 1 else quotient

/-- Rounding goes at most half a unit away from the quotient. -/
theorem roundQuotient_near (num : Nat) {den : Nat} (h : 0 < den) :
    2 * num ≤ 2 * (den * roundQuotient num den) + den ∧
      2 * (den * roundQuotient num den) ≤ 2 * num + den := by
  have hsplit := Nat.div_add_mod num den
  have hsmall := Nat.mod_lt num h
  unfold roundQuotient
  by_cases hup : den < 2 * (num % den) ∨ (den = 2 * (num % den) ∧ num / den % 2 = 1)
  · simp only [hup, if_true, Nat.mul_add, Nat.mul_one]
    omega
  · simp only [hup, if_false]
    omega

/-- `num / den / 2^place`, as a numerator and a denominator. -/
def inUnitsOf (place : Int) (num den : Nat) : Nat × Nat :=
  (num <<< (-place).toNat, den <<< place.toNat)

/-- The exponent of the leading binary digit of `num / den`, for positive numbers. -/
def leadingPlace (num den : Nat) : Int :=
  let guess : Int := (Nat.log2 num : Int) - Nat.log2 den
  let (n, d) := inUnitsOf guess num den
  if d ≤ n then guess else guess - 1

/-- The double nearest to `num / den`, for a positive `den`. -/
def nearest (num den : Nat) : Float :=
  if num = 0 then 0.0
  else
    let place := max (leadingPlace num den - 52) leastExponent
    let (n, d) := inUnitsOf place num den
    let count := roundQuotient n d
    -- Rounding up may lead to the next power of two.
    let fraction : Fraction :=
      if count = 2 * fullSignificand then ⟨false, fullSignificand, place + 1⟩
      else ⟨false, count, place⟩
    if greatestExponent < fraction.exponent then infinity else ofFraction fraction

/-- The double nearest to an integer. -/
def ofInt (i : Int) : Float := if i < 0 then -(nearest i.natAbs 1) else nearest i.natAbs 1

end Double

end ConfinedLisp
