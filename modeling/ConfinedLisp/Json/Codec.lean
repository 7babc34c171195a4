import ConfinedLisp.Eval
import ConfinedLisp.Json.Document
import ConfinedLisp.Value.Display

/-!
# Values as JSON documents

Lists and sequential tables are arrays, other tables are objects, symbols are strings, and a vector is
the array of its items. Decoding makes a list of an array and a table of an object; it never makes a
symbol or a vector.

A vector may lead back to itself. Encoding goes from vector to vector at most as often as there are
vectors; if it goes on longer it never ends.
-/

namespace ConfinedLisp

namespace Json

/-- The text of a key as the key of a member. -/
def keyText : Key → String
  | .index n => Integer.text n.toInt
  | .name s => s

/-- The failure to encode a value. -/
def encodeFailure (failure : HostFailure) : Halt := .error (.host "json_encode" failure)

mutual

/-- The document of a value, given those of vectors. -/
def encodeWith (vectors : VectorId → Except Halt Document) : Value → Except Halt Document
  | .nil => .ok .null
  | .bool b => .ok (.bool b)
  | .int n => .ok (.whole n.toInt)
  | .float x =>
    if x.isFinite then .ok (.float x)
    else .error (encodeFailure (.notRepresentable (Display.floatStyle.render x)))
  | .str s => .ok (.string s)
  | .sym name => .ok (.string name)
  | .list _ items => (encodeItems vectors items).map .array
  | .array table => encodeTable vectors table
  | .object v => vectors v
  | .scope _ => .error (encodeFailure (.cannotEncode .scope))
  | .callable _ => .error (encodeFailure (.cannotEncode .callable))
termination_by structural v => v

/-- The documents of some values. -/
def encodeItems (vectors : VectorId → Except Halt Document) :
    List Value → Except Halt (List Document)
  | [] => .ok []
  | v :: vs =>
    match encodeWith vectors v with
    | .error halt => .error halt
    | .ok d =>
      match encodeItems vectors vs with
      | .error halt => .error halt
      | .ok ds => .ok (d :: ds)
termination_by structural vs => vs

/-- The document of a table: an array if its keys are the indices from zero on, else an object. -/
def encodeTable (vectors : VectorId → Except Halt Document) : Table Value → Except Halt Document
  | ⟨⟨entries⟩, _, _⟩ =>
    match encodeEntries vectors entries with
    | .error halt => .error halt
    | .ok members =>
      if Table.sequentialFrom 0 (entries.map Prod.fst) then .ok (.array (members.map Prod.snd))
      else .ok (.object (orderMembers (members.map fun m => (keyText m.1, m.2))))
termination_by structural t => t

/-- The keys and documents of some entries. -/
def encodeEntries (vectors : VectorId → Except Halt Document) :
    List (Key × Value) → Except Halt (List (Key × Document))
  | [] => .ok []
  | e :: es =>
    match encodeEntry vectors e with
    | .error halt => .error halt
    | .ok m =>
      match encodeEntries vectors es with
      | .error halt => .error halt
      | .ok ms => .ok (m :: ms)
termination_by structural es => es

/-- The key and document of an entry. -/
def encodeEntry (vectors : VectorId → Except Halt Document) :
    Key × Value → Except Halt (Key × Document)
  | (key, v) => (encodeWith vectors v).map fun d => (key, d)
termination_by structural e => e

end

/-- The document of a vector, over at most `fuel` steps from vector to vector. -/
def encodeVector (s : Store) : Nat → VectorId → Except Halt Document
  | 0, _ => .error .endless
  | fuel + 1, v => (encodeItems (encodeVector s fuel) (s.vector v)).map .array

/-- The document of a value. -/
def encode (s : Store) (v : Value) : Except Halt Document :=
  encodeWith (encodeVector s (s.vectors.size + 1)) v

mutual

/-- The value of a document. -/
def decode : Document → Eval Value
  | .null => Eval.pure .nil
  | .bool b => Eval.pure (.bool b)
  | .whole n =>
    match Integer.ofInt? n with
    | some i => Eval.pure (.int i)
    | none => Eval.pure (.float (Double.ofInt n))
  | .float x => Eval.pure (.float x)
  | .string s => Eval.pure (.str s)
  | .array items => (decodeItems items).bind Eval.newList
  | .object members => (decodeMembers members .empty).bind fun t => Eval.pure (.array t)

/-- The values of some documents. -/
def decodeItems : List Document → Eval (List Value)
  | [] => Eval.pure []
  | d :: ds => (decode d).bind fun v => (decodeItems ds).bind fun vs => Eval.pure (v :: vs)

/-- Adds the values of members to a table, under the keys that the texts of theirs stand for. -/
def decodeMembers : List (String × Document) → Table Value → Eval (Table Value)
  | [], t => Eval.pure t
  | m :: ms, t =>
    (decodeMember m).bind fun (key, v) => decodeMembers ms (t.insert key v)

/-- The key and value of a member. -/
def decodeMember : String × Document → Eval (Key × Value)
  | (key, d) => (decode d).bind fun v => Eval.pure (Key.ofText key, v)

end

end Json

end ConfinedLisp
