import ConfinedLisp.Form
import ConfinedLisp.Text.Blank

/-!
# Reading source text

Text is read one character at a time. A `Reading` holds the forms completed so far, the lists and
quote marks still open, and what the last characters belong to; `Reading.step` takes it over the next
character or stops with a `Fault`. Reading a text is therefore a fold over its characters, and the
state after a text determines how any continuation of it is read.

Brackets come in three kinds and close their own kind only. A comment runs from a semicolon to the end
of its line.
-/

namespace ConfinedLisp

/-- The three kinds of brackets. -/
inductive Bracket where
  | round
  | square
  | curly
deriving DecidableEq, Repr

namespace Bracket

/-- The bracket that a character opens. -/
def ofOpening? (c : Char) : Option Bracket :=
  if c = '(' then some .round
  else if c = '[' then some .square
  else if c = '\x7b' then some .curly
  else none

/-- The bracket that a character closes. -/
def ofClosing? (c : Char) : Option Bracket :=
  if c = ')' then some .round
  else if c = ']' then some .square
  else if c = '\x7d' then some .curly
  else none

end Bracket

/-- What was wanted where reading failed. -/
inductive Wanted where
  /-- Anything at all, at the very start of the text. -/
  | program
  /-- A form, inside a list or after a quote mark. -/
  | form
  /-- A form or the end of the text. -/
  | formOrEnd
  /-- Exactly one form, where the text holds another number of them. -/
  | oneForm (found : Nat)
deriving DecidableEq, Repr

namespace Wanted

/-- The wording of what was wanted. -/
def text : Wanted → String
  | .program => "expected program"
  | .form => "expected quote, list, float, integer, string, or symbol"
  | .formOrEnd => "expected EOI, quote, list, float, integer, string, or symbol"
  | .oneForm found => "expected exactly one form, found " ++ Integer.text found

end Wanted

/-- A failure to read: what was wanted, and a span of the text in bytes. -/
structure Fault where
  wanted : Wanted
  offset : Nat
  length : Nat
deriving DecidableEq, Repr

/-- Something begun and not yet complete. -/
inductive Pending where
  /-- A quote mark waits for its form. -/
  | quoted
  /-- A list is open; its forms so far, the last one first. -/
  | list (bracket : Bracket) (items : List Form)

/-- What the last characters belong to. Characters are kept the last one first. -/
inductive Mode where
  | gap
  | comment
  | atom (chars : List Char)
  | string (start : Nat) (chars : List Char)
  | escape (start : Nat) (chars : List Char)

/-- The state of reading between two characters. -/
structure Reading where
  /-- The number of bytes read. -/
  offset : Nat
  mode : Mode
  /-- What is open, the innermost first. -/
  pending : List Pending
  /-- The forms completed outside of any list, the last one first. -/
  forms : List Form

namespace Reading

/-- The state before the first character. -/
def start : Reading := ⟨0, .gap, [], []⟩

/-- Whether a character ends an atom. -/
def isDelimiter (c : Char) : Bool :=
  Text.isBlank c || (Bracket.ofOpening? c).isSome || (Bracket.ofClosing? c).isSome
    || c = '"' || c = ';' || c = '\''

/-- The character that a backslash and `c` denote in a string. -/
def unescape? (c : Char) : Option Char :=
  if c = '"' then some '"'
  else if c = '\\' then some '\\'
  else if c = 'n' then some '\n'
  else if c = 't' then some '\t'
  else if c = 'r' then some '\r'
  else if c = '0' then some '\x00'
  else none

/-- Hands a completed form to whatever is innermost, completing the quote marks that wait for it. -/
def deliver (forms : List Form) : List Pending → Form → List Pending × List Form
  | [], f => ([], f :: forms)
  | .list bracket items :: rest, f => (.list bracket (f :: items) :: rest, forms)
  | .quoted :: rest, f => deliver forms rest f.quoted

/-- The state after a form is complete. -/
def supply (r : Reading) (f : Form) : Reading :=
  let (pending, forms) := deliver r.forms r.pending f
  { r with mode := .gap, pending, forms }

/-- What was wanted at a position, given what is open there. -/
def wantedAt (position : Nat) (pending : List Pending) : Wanted :=
  if position = 0 then .program
  else if pending.isEmpty then .formOrEnd
  else .form

/-- The failure at a character of the text. -/
def faultAt (r : Reading) (position : Nat) : Fault := ⟨wantedAt position r.pending, position, 1⟩

/-- Closes the innermost list, if it has the given bracket. -/
def close? (r : Reading) (bracket : Bracket) : Option Reading :=
  match r.pending with
  | .list opened items :: rest =>
    if opened = bracket then some ({ r with pending := rest }.supply (.list items.reverse))
    else none
  | _ => none

/-- Reads a character that does not continue an atom, a string or a comment. The offset is left to the
caller. -/
def stepGap (r : Reading) (c : Char) : Except Fault Reading :=
  if Text.isBlank c then .ok r
  else if c = ';' then .ok { r with mode := .comment }
  else if c = '"' then .ok { r with mode := .string r.offset [] }
  else if c = '\'' then .ok { r with pending := .quoted :: r.pending }
  else match Bracket.ofOpening? c, Bracket.ofClosing? c with
    | some bracket, _ => .ok { r with pending := .list bracket [] :: r.pending }
    | none, some bracket =>
      match r.close? bracket with
      | some r => .ok r
      | none => .error (r.faultAt r.offset)
    | none, none => .ok { r with mode := .atom [c] }

/-- Reads a character, leaving the offset to the caller. -/
def stepMode (r : Reading) (c : Char) : Except Fault Reading :=
  match r.mode with
  | .gap => r.stepGap c
  | .comment => .ok (if c = '\n' || c = '\r' then { r with mode := .gap } else r)
  | .atom chars =>
    if isDelimiter c then (r.supply (.ofAtom chars.reverse)).stepGap c
    else .ok { r with mode := .atom (c :: chars) }
  | .string start chars =>
    if c = '"' then .ok (r.supply (.str (String.ofList chars.reverse)))
    else if c = '\\' then .ok { r with mode := .escape start chars }
    else .ok { r with mode := .string start (c :: chars) }
  | .escape start chars =>
    match unescape? c with
    | some c => .ok { r with mode := .string start (c :: chars) }
    | none => .error (r.faultAt start)

/-- Reads one character. -/
def step (r : Reading) (c : Char) : Except Fault Reading :=
  match r.stepMode c with
  | .ok next => .ok { next with offset := r.offset + c.utf8Size }
  | .error fault => .error fault

/-- Reads a run of characters. -/
def run (r : Reading) (cs : List Char) : Except Fault Reading := cs.foldlM step r

/-- A text is read by reading its first part and going on from there. -/
theorem run_append (r : Reading) (cs ds : List Char) :
    r.run (cs ++ ds) = (r.run cs).bind (fun r' => r'.run ds) := by
  simp only [run, List.foldlM_append]
  rfl

/-- The forms of the text at whose end this state is. -/
def finish (r : Reading) : Except Fault (List Form) :=
  match r.mode with
  | .string start _ | .escape start _ => .error (r.faultAt start)
  | _ =>
    let r := match r.mode with
      | .atom chars => r.supply (.ofAtom chars.reverse)
      | _ => r
    if r.pending.isEmpty then .ok r.forms.reverse
    else .error ⟨wantedAt r.offset r.pending, r.offset, 0⟩

end Reading

namespace Form

/-- Reads every form of a text. -/
def read (source : String) : Except Fault (List Form) :=
  match Reading.start.run source.toList with
  | .ok r => r.finish
  | .error fault => .error fault

/-- Reads a text that holds exactly one form. -/
def readOne (source : String) : Except Fault Form :=
  match read source with
  | .ok [f] => .ok f
  | .ok fs => .error ⟨.oneForm fs.length, 0, source.utf8ByteSize⟩
  | .error fault => .error fault

end Form

end ConfinedLisp
