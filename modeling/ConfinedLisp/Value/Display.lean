import ConfinedLisp.Decimal.Style
import ConfinedLisp.Text.Quoted
import ConfinedLisp.Value

/-!
# Printed values

The text of a value as programs see it: strings bare, lists in parentheses, tables in braces with their
keys, everything else by a short description.
-/

namespace ConfinedLisp

namespace Display

/-- Floats are printed positionally, with the fewest digits. -/
def floatStyle : Decimal.Style := ⟨none, false, false, .up⟩

/-- Whole floats below this bound are printed exactly, with `.0` at the end. -/
def wholeBound : Float := 1e16

/-- The text of a float. -/
def float (x : Float) : String :=
  match Double.view x with
  | .finite f =>
    if f.isWhole && x.abs < wholeBound then
      String.ofList ((if f.negative then ['-'] else []) ++ Integer.digits f.truncate.natAbs
        ++ ['.', '0'])
    else floatStyle.render x
  | _ => floatStyle.render x

/-- The text of a truth value. -/
def bool (b : Bool) : String := if b then "true" else "false"

end Display

/-- The text of a key: an integer bare, a name between quotes. -/
def Key.display : Key → String
  | .index n => Integer.text n.toInt
  | .name s => Text.quote s

mutual

/-- The text of a value. -/
def Value.display : Value → String
  | .nil => "nil"
  | .bool b => Display.bool b
  | .int n => Integer.text n.toInt
  | .float x => Display.float x
  | .str s => s
  | .sym name => name
  | .list _ items => "(" ++ String.intercalate " " (Value.displayItems items) ++ ")"
  | .array table => "\x7b" ++ String.intercalate ", " (Value.displayTable table) ++ "\x7d"
  | .scope _ => "#<scope>"
  | .callable c => "#<" ++ c.describe ++ ">"
  | .object _ => "#<" ++ vectorTypeName ++ ">"

/-- The texts of some values. -/
def Value.displayItems : List Value → List String
  | [] => []
  | v :: vs => v.display :: Value.displayItems vs

/-- The texts of the entries of a table. -/
def Value.displayTable : Table Value → List String
  | ⟨⟨entries⟩, _, _⟩ => Value.displayEntries entries

/-- The texts of some entries. -/
def Value.displayEntries : List (Key × Value) → List String
  | [] => []
  | e :: es => Value.displayEntry e :: Value.displayEntries es

/-- The text of an entry. -/
def Value.displayEntry : Key × Value → String
  | (key, v) => key.display ++ ": " ++ v.display

end

end ConfinedLisp
