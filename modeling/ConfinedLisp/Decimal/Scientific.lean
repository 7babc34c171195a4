import ConfinedLisp.Double.Nearest
import ConfinedLisp.Integer

/-!
# Decimals read from text

A decimal `±significand · 10^exponent` is read from its characters and rounded to the nearest double.
`Scientific.ofUnsigned?` takes the free form in which the whole part or the fraction may be missing.
-/

namespace ConfinedLisp

namespace Decimal

/-- A decimal number: `significand · 10^exponent`, negated if `negative`. -/
structure Scientific where
  negative : Bool
  significand : Nat
  exponent : Int
deriving DecidableEq, Repr

/-- The double nearest to `significand · 10^exponent`. Numbers far outside the range of doubles are
settled by their count of digits alone. -/
def magnitude (significand : Nat) (exponent : Int) : Float :=
  if significand = 0 then 0.0
  else
    let top := (Integer.digits significand).length + exponent
    if 310 < top then Double.infinity
    else if top < -330 then 0.0
    else Double.nearest (significand * Nat.pow 10 exponent.toNat) (Nat.pow 10 (-exponent).toNat)

/-- The double nearest to a decimal number; zero keeps its sign. -/
def Scientific.toFloat (s : Scientific) : Float :=
  if s.negative then -(magnitude s.significand s.exponent)
  else magnitude s.significand s.exponent

/-- Splits off the leading digits. -/
def spanDigits (cs : List Char) : List Char × List Char :=
  (cs.takeWhile Integer.isDigit, cs.dropWhile Integer.isDigit)

/-- The number that digits stand for, as long as it is below a bound: once the number reaches the bound,
the digits that follow are passed over. -/
def takeDigits (bound : Nat) (ds : List Char) : Nat :=
  ds.foldl (fun n d => if n < bound then 10 * n + (d.toNat - '0'.toNat) else n) 0

/-- The bound up to which an exponent takes in digits. An exponent that reaches it is far outside the
range of doubles, unless as many zeros stand before it. -/
def exponentBound : Nat := 65536

/-- Reads an exponent mark with its sign and digits, up to the end of the text. -/
def exponent? : List Char → Option Int
  | c :: rest =>
    if c = 'e' || c = 'E' then
      let (negative, ds) := match rest with
        | '-' :: ds => (true, ds)
        | '+' :: ds => (false, ds)
        | ds => (false, ds)
      if ds.isEmpty || !ds.all Integer.isDigit then none
      else if negative then some (-(takeDigits exponentBound ds : Int))
      else some (takeDigits exponentBound ds)
    else none
  | [] => some 0

/-- Splits a text into its whole digits, its fraction digits if it has a point, and the rest. -/
def parts (cs : List Char) : List Char × Option (List Char) × List Char :=
  let (whole, rest) := spanDigits cs
  match rest with
  | '.' :: rest =>
    let (fraction, rest) := spanDigits rest
    (whole, some fraction, rest)
  | _ => (whole, none, rest)

/-- How many digits of a decimal are told apart. The point halfway between two doubles has at most 767
digits, so of the digits after these it only matters whether they are all zero. -/
def digitBound : Nat := 800

/-- A decimal that rounds like the one with the given digits before and after the point, times a power
of ten. It is equal to it unless there are digits beyond `digitBound`. -/
def Scientific.ofDigits (negative : Bool) (whole fraction : List Char) (exponent : Int) :
    Scientific :=
  let ds := (whole ++ fraction).dropWhile (· = '0')
  let exponent := exponent - fraction.length
  match ds.drop digitBound with
  | [] => ⟨negative, Integer.ofDigits ds, exponent⟩
  | beyond =>
    let last := if beyond.all (· = '0') then '0' else '1'
    ⟨negative, Integer.ofDigits (ds.take digitBound ++ [last]), exponent + beyond.length - 1⟩

/-- Reads a decimal without sign. At least one digit stands before the exponent. -/
def Scientific.ofUnsigned? (cs : List Char) : Option Scientific :=
  let (whole, fraction, rest) := parts cs
  let fraction := fraction.getD []
  if whole.isEmpty && fraction.isEmpty then none
  else (exponent? rest).map (Scientific.ofDigits false whole fraction)

/-- The lower-case ASCII form of a character. -/
def lowerAscii (c : Char) : Char :=
  if 'A' ≤ c && c ≤ 'Z' then Char.ofNat (c.toNat + 32) else c

/-- The double that a whole text denotes: a decimal, an infinity or a NaN, with an optional sign. -/
def ofText? (cs : List Char) : Option Float :=
  let (negative, body) := match cs with
    | '-' :: rest => (true, rest)
    | '+' :: rest => (false, rest)
    | rest => (false, rest)
  let signed (x : Float) : Float := if negative then -x else x
  let word := String.ofList (body.map lowerAscii)
  if word = "inf" || word = "infinity" then some (signed Double.infinity)
  else if word = "nan" then some (0.0 / 0.0)
  else (Scientific.ofUnsigned? body).map fun s => signed s.toFloat

end Decimal

end ConfinedLisp
