import ConfinedLisp.Decimal.Scientific
import ConfinedLisp.Store
import ConfinedLisp.Text.Blank
import ConfinedLisp.Value.Display

/-!
# Three equalities

Values are compared in three ways. Strict equality never converts and tells lists apart by identity.
Structural equality compares lists by their items. Loose equality converts: truth values and nil compare
by truthiness, numbers by magnitude, strings as numbers where both sides read as numbers.

Vectors compare loosely by their items, which lie in the store and may lead back to the vector. The
comparison of two vectors is therefore cut off after as many steps from vector to vector as there are
pairs of vectors; a comparison that goes on longer meets a pair within itself and never ends.
-/

namespace ConfinedLisp

mutual

/-- Strict equality. -/
def Value.strictEq : Value → Value → Bool
  | .nil, .nil => true
  | .bool a, .bool b => a == b
  | .int a, .int b => a == b
  | .float a, .float b => a == b
  | .str a, .str b => a == b
  | .sym a, .sym b => a == b
  | .list i _, .list j _ => i == j
  | .array t, .array u => Value.strictTables t u
  | .scope f, .scope g => f == g
  | .callable c, .callable d => c.same d
  | .object v, .object w => v == w
  | _, _ => false
termination_by structural v => v

/-- Strict equality of tables: the same entries in the same order. -/
def Value.strictTables : Table Value → Table Value → Bool
  | ⟨⟨es⟩, _, _⟩, u => Value.strictEntries es u.entries
termination_by structural t => t

/-- Strict equality of entries. -/
def Value.strictEntries : List (Key × Value) → List (Key × Value) → Bool
  | [], [] => true
  | e :: es, f :: fs => Value.strictEntry e f && Value.strictEntries es fs
  | _, _ => false
termination_by structural es => es

/-- Strict equality of two entries. -/
def Value.strictEntry : Key × Value → Key × Value → Bool
  | (k, v), f => k == f.1 && v.strictEq f.2
termination_by structural e => e

end

mutual

/-- Structural equality. Two lists of one identity are equal whatever they hold. -/
def Value.structEq : Value → Value → Bool
  | .list i xs, .list j ys => i == j || Value.structItems xs ys
  | .array t, .array u => Value.structTables t u
  | v, w => v.strictEq w
termination_by structural v => v

/-- Structural equality of items. -/
def Value.structItems : List Value → List Value → Bool
  | [], [] => true
  | x :: xs, y :: ys => x.structEq y && Value.structItems xs ys
  | _, _ => false
termination_by structural xs => xs

/-- Structural equality of tables: the same entries in the same order. -/
def Value.structTables : Table Value → Table Value → Bool
  | ⟨⟨es⟩, _, _⟩, u => Value.structEntries es u.entries
termination_by structural t => t

/-- Structural equality of entries. -/
def Value.structEntries : List (Key × Value) → List (Key × Value) → Bool
  | [], [] => true
  | e :: es, f :: fs => Value.structEntry e f && Value.structEntries es fs
  | _, _ => false
termination_by structural es => es

/-- Structural equality of two entries. -/
def Value.structEntry : Key × Value → Key × Value → Bool
  | (k, v), f => k == f.1 && v.structEq f.2
termination_by structural e => e

end

namespace Loose

/-- The number that a text denotes, blanks around it apart. -/
def numberOf? (s : String) : Option Float :=
  match Text.trimChars s.toList with
  | [] => none
  | cs => Decimal.ofText? cs

/-- Loose equality of texts: as numbers if both denote one, else as texts. -/
def texts (s t : String) : Bool :=
  match numberOf? s, numberOf? t with
  | some x, some y => x == y
  | _, _ => s == t

/-- Loose equality of a text and a number with the given value and text. -/
def textAndNumber (s : String) (y : Float) (printed : String) : Bool :=
  match numberOf? s with
  | some x => x == y
  | none => printed == s

end Loose

mutual

/-- Loose equality, given that of distinct vectors. There is no answer if the latter has none. -/
def Value.looseEqWith (vectors : VectorId → VectorId → Option Bool) : Value → Value → Option Bool
  | .nil, .nil => some true
  | .bool a, w => some (a == w.isTruthy)
  | v, .bool b => some (b == v.isTruthy)
  | .nil, w => some (!w.isTruthy)
  | v, .nil => some (!v.isTruthy)
  | .int a, .int b => some (a == b)
  | .str s, .str t => some (Loose.texts s t)
  | .str s, .int n => some (Loose.textAndNumber s (Double.ofInteger n) (Value.int n).display)
  | .str s, .float x => some (Loose.textAndNumber s x (Value.float x).display)
  | .int n, .str s => some (Loose.textAndNumber s (Double.ofInteger n) (Value.int n).display)
  | .float x, .str s => some (Loose.textAndNumber s x (Value.float x).display)
  | .int a, .float y => some (Double.ofInteger a == y)
  | .float x, .int b => some (x == Double.ofInteger b)
  | .float x, .float y => some (x == y)
  | .sym a, .sym b => some (a == b)
  | .list _ xs, .list _ ys =>
    if xs.length = ys.length then Value.looseItemsWith vectors xs ys else some false
  | .array t, .array u =>
    if t.size = u.size then Value.looseTablesWith vectors t u else some false
  | .object v, .object w => if v = w then some true else vectors v w
  | .scope f, .scope g => some (f == g)
  | .callable c, .callable d => some (c.same d)
  | _, _ => some false
termination_by structural v => v

/-- Loose equality of items, up to the first difference. -/
def Value.looseItemsWith (vectors : VectorId → VectorId → Option Bool) :
    List Value → List Value → Option Bool
  | x :: xs, y :: ys =>
    match Value.looseEqWith vectors x y with
    | some true => Value.looseItemsWith vectors xs ys
    | answer => answer
  | _, _ => some true
termination_by structural xs => xs

/-- Loose equality of tables of the same size: the same keys in any order. -/
def Value.looseTablesWith (vectors : VectorId → VectorId → Option Bool) :
    Table Value → Table Value → Option Bool
  | ⟨⟨es⟩, _, _⟩, u => Value.looseEntriesWith vectors es u
termination_by structural t => t

/-- Whether a table has some entries, up to the first that it has not. -/
def Value.looseEntriesWith (vectors : VectorId → VectorId → Option Bool) :
    List (Key × Value) → Table Value → Option Bool
  | [], _ => some true
  | e :: es, u =>
    match Value.looseEntryWith vectors e u with
    | some true => Value.looseEntriesWith vectors es u
    | answer => answer
termination_by structural es => es

/-- Whether a table has an entry. -/
def Value.looseEntryWith (vectors : VectorId → VectorId → Option Bool) :
    Key × Value → Table Value → Option Bool
  | (k, v), u =>
    match u.get? k with
    | some w => Value.looseEqWith vectors v w
    | none => some false
termination_by structural e => e

end

/-- Loose equality of two vectors, over at most `fuel` steps from vector to vector. -/
def Store.looseVectors (s : Store) : Nat → VectorId → VectorId → Option Bool
  | 0, _, _ => none
  | fuel + 1, v, w =>
    let xs := s.vector v
    let ys := s.vector w
    if xs.length = ys.length then Value.looseItemsWith (s.looseVectors fuel) xs ys else some false

/-- Loose equality. There is no answer if the comparison never ends. -/
def Store.looseEq (s : Store) (v w : Value) : Option Bool :=
  Value.looseEqWith (s.looseVectors (s.vectors.size * s.vectors.size + 1)) v w

end ConfinedLisp
