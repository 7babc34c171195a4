import ConfinedLisp.Decimal.Shortest
import ConfinedLisp.Integer

/-!
# Decimal text of doubles

How the digits of a double are laid out: positionally or with an exponent. A `Decimal.Style` holds the
decisions of one output format, and `Style.render` follows them.
-/

namespace ConfinedLisp

namespace Decimal

/-- The layout decisions of one number format. -/
structure Style where
  /-- The exponents of the leading digit that are written positionally; all of them if `none`. -/
  positional : Option (Int × Int)
  /-- Whether a positional whole number ends in `.0`. -/
  keepsPoint : Bool
  /-- Whether a positive exponent has a plus sign. -/
  plusSign : Bool
  /-- Which of two equally near shortest decimals is written. -/
  tie : Tie

/-- The decimal digits `d₁d₂…` of a number and the exponent of `d₁`. -/
structure Digits where
  digits : List Char
  exponent : Int

/-- A list of zeros. -/
def zeros (n : Nat) : List Char := List.replicate n '0'

/-- Digits without the zeros at their end; one digit always stays. -/
def dropTrailingZeros (ds : List Char) : List Char :=
  match (ds.reverse.dropWhile (· = '0')).reverse with
  | [] => ['0']
  | kept => kept

/-- The shortest digits of a fraction. -/
def Digits.ofFraction (tie : Tie) (f : Double.Fraction) : Digits :=
  if f.significand = 0 then ⟨['0'], 0⟩
  else
    let (n, k) := shortest tie f.significand f.exponent
    let ds := Integer.digits n
    ⟨dropTrailingZeros ds, k + ds.length - 1⟩

/-- Digits with the decimal point at its place. -/
def Digits.positional (keepsPoint : Bool) (d : Digits) : List Char :=
  if d.exponent < 0 then '0' :: '.' :: zeros (-d.exponent - 1).toNat ++ d.digits
  else
    let whole := d.exponent.toNat + 1
    if d.digits.length ≤ whole then
      d.digits ++ zeros (whole - d.digits.length) ++ (if keepsPoint then ['.', '0'] else [])
    else d.digits.take whole ++ '.' :: d.digits.drop whole

/-- Digits with the point after the first one and an exponent. -/
def Digits.scientific (plusSign : Bool) (d : Digits) : List Char :=
  let fraction := d.digits.drop 1
  d.digits.take 1 ++ (if fraction.isEmpty then [] else '.' :: fraction)
    ++ 'e' :: (if plusSign && 0 ≤ d.exponent then ['+'] else []) ++ Integer.chars d.exponent

/-- Digits in the layout that a style chooses for their exponent. -/
def Style.layOut (style : Style) (d : Digits) : List Char :=
  match style.positional with
  | none => d.positional style.keepsPoint
  | some (low, high) =>
    if low ≤ d.exponent ∧ d.exponent ≤ high then d.positional style.keepsPoint
    else d.scientific style.plusSign

/-- The text of a double in a style. -/
def Style.render (style : Style) (x : Float) : String :=
  match Double.view x with
  | .nan => "NaN"
  | .infinite negative => if negative then "-inf" else "inf"
  | .finite f =>
    let body := style.layOut (Digits.ofFraction style.tie f)
    String.ofList (if f.negative then '-' :: body else body)

end Decimal

end ConfinedLisp
