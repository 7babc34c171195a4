import ConfinedLisp.Decimal.Scientific

/-!
# Forms

A form is what the reader makes of source text: a number, a string, a symbol or a list of forms.
`Form.ofAtom` decides what a run of characters without delimiters stands for.
-/

namespace ConfinedLisp

/-- A form of source text. -/
inductive Form where
  | int (n : Int64)
  | float (x : Float)
  | str (s : String)
  | sym (name : String)
  | list (items : List Form)

namespace Form

/-- The name at the head of a quotation. -/
def quoteName : String := "quote"

/-- The form of a quote mark followed by `f`. -/
def quoted (f : Form) : Form := .list [.sym quoteName, f]

/-- A whole number read from its sign and digits. What no machine integer holds is a float. -/
def ofInteger (negative : Bool) (digits : List Char) : Form :=
  let n := Integer.ofDigits digits
  match Integer.ofInt? (if negative then -(n : Int) else n) with
  | some i => .int i
  | none => .float (Decimal.Scientific.ofDigits negative digits [] 0).toFloat

/-- The form that a run of characters without delimiters stands for. It is a number if it consists of
an optional minus sign, digits, and optionally a fraction, an exponent or both; otherwise a symbol. -/
def ofAtom (cs : List Char) : Form :=
  let symbol := Form.sym (String.ofList cs)
  let (negative, body) := match cs with
    | '-' :: rest => (true, rest)
    | rest => (false, rest)
  match Decimal.parts body with
  | ([], _, _) => symbol
  | (whole, none, []) => ofInteger negative whole
  | (_, some [], _) => symbol
  | (whole, fraction, rest) =>
    match Decimal.exponent? rest with
    | none => symbol
    | some e => .float (Decimal.Scientific.ofDigits negative whole (fraction.getD []) e).toFloat

end Form

end ConfinedLisp
