import ConfinedLisp.Text.CaseForms
import ConfinedLisp.Text.Cased

/-!
# Changing the case of texts

Every character is replaced by its upper-case or lower-case form. The only character whose form
depends on its place is the capital sigma, which has a form of its own at the end of a word.
-/

namespace ConfinedLisp

namespace Text

/-- A text in upper case. -/
def toUpper (s : String) : String := String.ofList (s.toList.flatMap upperForm)

/-- Whether the first character that is not case-ignorable is cased. -/
def startsCased (cs : List Char) : Bool :=
  match cs.dropWhile isCaseIgnorable with
  | c :: _ => isCased c
  | [] => false

/-- Lower-case forms of characters, given those before them, the last one first. -/
def lowerAfter (before : List Char) : List Char → List Char
  | [] => []
  | c :: rest =>
    let form :=
      if c = 'Σ' then if startsCased before && !startsCased rest then ['ς'] else ['σ']
      else lowerForm c
    form ++ lowerAfter (c :: before) rest

/-- A text in lower case. -/
def toLower (s : String) : String := String.ofList (lowerAfter [] s.toList)

end Text

end ConfinedLisp
