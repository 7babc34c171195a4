/-!
# Machine integers

The integers of the language are the 64-bit signed ones. Arithmetic is done on `Int` and brought back
by `Integer.ofInt?`, which refuses what does not fit, or by `Integer.saturate`, which goes to the
nearer end of the range.
-/

namespace ConfinedLisp

namespace Integer

/-- The least machine integer. -/
def least : Int := -9223372036854775808

/-- The greatest machine integer. -/
def greatest : Int := 9223372036854775807

/-- The integers that a machine integer can hold. -/
def InRange (i : Int) : Prop := least ≤ i ∧ i ≤ greatest

instance (i : Int) : Decidable (InRange i) := inferInstanceAs (Decidable (_ ∧ _))

/-- The machine integer equal to `i`, if there is one. -/
def ofInt? (i : Int) : Option Int64 :=
  if InRange i then some (Int64.ofInt i) else none

/-- The machine integer nearest to `i`. -/
def saturate (i : Int) : Int64 :=
  if i < least then Int64.minValue
  else if greatest < i then Int64.maxValue
  else Int64.ofInt i

/-- The sum of two machine integers, if it fits. -/
def plus? (a b : Int64) : Option Int64 := ofInt? (a.toInt + b.toInt)

/-- The sum of two machine integers, or the end of the range beyond which it lies. -/
def saturatingPlus (a b : Int64) : Int64 := saturate (a.toInt + b.toInt)

/-- The product of two machine integers, if it fits. -/
def times? (a b : Int64) : Option Int64 := ofInt? (a.toInt * b.toInt)

/-- The quotient of two machine integers, cut off toward zero, if there is one and it fits. -/
def quotient? (a b : Int64) : Option Int64 :=
  if b = 0 then none else ofInt? (a.toInt.tdiv b.toInt)

/-- What the quotient of two machine integers leaves, if there is a quotient that fits. -/
def remainder? (a b : Int64) : Option Int64 :=
  (quotient? a b).map fun _ => Int64.ofInt (a.toInt.tmod b.toInt)

/-- The product of `acc` and a power of `base` by repeated squaring, where every product must fit. The
base is squared only as long as there is a factor to come. -/
def timesPower? (acc base : Int64) (exponent : Nat) : Option Int64 :=
  if exponent = 0 then some acc
  else if exponent = 1 then times? acc base
  else do
    let acc ← if exponent % 2 = 1 then times? acc base else some acc
    let square ← times? base base
    timesPower? acc square (exponent / 2)

/-- The decimal digits of a natural number. -/
def digits (n : Nat) : List Char := Nat.toDigits 10 n

/-- The number that decimal digits stand for. -/
def ofDigits (ds : List Char) : Nat := Nat.ofDigitChars 10 ds 0

/-- Decimal characters of an integer, with a minus sign in front of a negative one. -/
def chars (i : Int) : List Char :=
  if i < 0 then '-' :: digits i.natAbs else digits i.natAbs

/-- Decimal text of an integer. -/
def text (i : Int) : String := String.ofList (chars i)

/-- Whether a character is one of the ten decimal digits. -/
def isDigit (c : Char) : Bool := '0' ≤ c && c ≤ '9'

/-- The machine integer of a decimal text: a sign, which may be missing, and digits. -/
def ofText? (cs : List Char) : Option Int64 :=
  let (negative, ds) := match cs with
    | '-' :: rest => (true, rest)
    | '+' :: rest => (false, rest)
    | rest => (false, rest)
  if ds.isEmpty || !ds.all isDigit then none
  else ofInt? (if negative then -(ofDigits ds : Int) else ofDigits ds)

/-- How many digits a machine integer has at most. -/
def mostDigits : Nat := 19

/-- The machine integer whose own decimal text is `s`: no plus sign, no needless zeros, no `-0`. -/
def ofCanonicalText? (s : String) : Option Int64 :=
  let (negative, ds) := match s.toList with
    | '-' :: rest => (true, rest)
    | cs => (false, cs)
  if ds.isEmpty || mostDigits < ds.length || !ds.all isDigit then none
  else
    let n : Int := if negative then -(ofDigits ds : Int) else ofDigits ds
    if text n = s then ofInt? n else none

@[simp] theorem ofDigits_digits (n : Nat) : ofDigits (digits n) = n :=
  Nat.ofDigitChars_toDigits (by decide) (by decide)

theorem ofInt?_eq_some_iff {i : Int} {n : Int64} :
    ofInt? i = some n ↔ InRange i ∧ Int64.ofInt i = n := by
  unfold ofInt?
  split <;> simp_all

theorem ofInt?_eq_none_iff {i : Int} : ofInt? i = none ↔ ¬ InRange i := by
  unfold ofInt?
  split <;> simp_all

/-- Every machine integer is in range. -/
theorem inRange_toInt (n : Int64) : InRange n.toInt := by
  have h₁ := n.le_toInt
  have h₂ := n.toInt_lt
  constructor
  · simpa [least] using h₁
  · have : n.toInt < 9223372036854775808 := by simpa using h₂
    simp only [greatest]
    omega

/-- An integer in range keeps its value. -/
theorem toInt_ofInt {i : Int} (h : InRange i) : (Int64.ofInt i).toInt = i := by
  obtain ⟨h₁, h₂⟩ := h
  simp only [least, greatest] at h₁ h₂
  exact Int64.toInt_ofInt_of_le (by simpa using h₁) (by simp; omega)

/-- What fits is kept exactly. -/
theorem toInt_of_ofInt?_eq_some {i : Int} {n : Int64} (h : ofInt? i = some n) : n.toInt = i := by
  obtain ⟨hr, rfl⟩ := ofInt?_eq_some_iff.mp h
  exact toInt_ofInt hr

/-- The nearest machine integer is the end of the range beyond which a number lies, or the number. -/
theorem toInt_saturate (i : Int) : (saturate i).toInt = max least (min i greatest) := by
  have hmin : Int64.minValue.toInt = least := rfl
  have hmax : Int64.maxValue.toInt = greatest := rfl
  have hends : least ≤ greatest := by decide
  unfold saturate
  by_cases hlow : i < least
  · rw [if_pos hlow]
    omega
  · rw [if_neg hlow]
    by_cases hhigh : greatest < i
    · rw [if_pos hhigh]
      omega
    · rw [if_neg hhigh, toInt_ofInt ⟨by omega, by omega⟩]
      omega

/-- An integer in range has no more digits than a machine integer may have. -/
theorem length_digits_natAbs {i : Int} (h : InRange i) : (digits i.natAbs).length ≤ mostDigits := by
  obtain ⟨h₁, h₂⟩ := h
  simp only [least, greatest] at h₁ h₂
  refine (Nat.length_toDigits_le_iff (by decide) (by decide)).2 ?_
  show i.natAbs < 10 ^ 19
  omega

@[simp] theorem ofInt?_toInt (n : Int64) : ofInt? n.toInt = some n := by
  rw [ofInt?_eq_some_iff]
  exact ⟨inRange_toInt n, Int64.ofInt_toInt n⟩

end Integer

end ConfinedLisp
