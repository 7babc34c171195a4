import ConfinedLisp.Json.Token

/-!
# JSON skeletons

A JSON text as a tree whose leaves are still as written. `Skeleton.ofText?` accepts exactly the texts of
the JSON grammar.
-/

namespace ConfinedLisp

namespace Json

/-- A JSON text as a tree. -/
inductive Skeleton where
  | null
  | bool (b : Bool)
  | number (n : NumberText)
  | string (units : List StringUnit)
  | array (items : List Skeleton)
  | object (members : List (List StringUnit × Skeleton))

namespace Skeleton

mutual

/-- Reads a value off the front of some tokens. -/
def value? : Nat → List Token → Option (Skeleton × List Token)
  | 0, _ => none
  | _ + 1, .null :: ts => some (.null, ts)
  | _ + 1, .bool b :: ts => some (.bool b, ts)
  | _ + 1, .number n :: ts => some (.number n, ts)
  | _ + 1, .string units :: ts => some (.string units, ts)
  | _ + 1, .openArray :: .closeArray :: ts => some (.array [], ts)
  | fuel + 1, .openArray :: ts =>
    match items? fuel ts with
    | some (items, ts) => some (.array items, ts)
    | none => none
  | _ + 1, .openObject :: .closeObject :: ts => some (.object [], ts)
  | fuel + 1, .openObject :: ts =>
    match members? fuel ts with
    | some (members, ts) => some (.object members, ts)
    | none => none
  | _ + 1, _ => none

/-- Reads the items of an array and its closing bracket. -/
def items? : Nat → List Token → Option (List Skeleton × List Token)
  | 0, _ => none
  | fuel + 1, ts =>
    match value? fuel ts with
    | some (v, .closeArray :: ts) => some ([v], ts)
    | some (v, .comma :: ts) =>
      match items? fuel ts with
      | some (vs, ts) => some (v :: vs, ts)
      | none => none
    | _ => none

/-- Reads the members of an object and its closing brace. -/
def members? : Nat → List Token → Option (List (List StringUnit × Skeleton) × List Token)
  | 0, _ => none
  | fuel + 1, .string key :: .colon :: ts =>
    match value? fuel ts with
    | some (v, .closeObject :: ts) => some ([(key, v)], ts)
    | some (v, .comma :: ts) =>
      match members? fuel ts with
      | some (vs, ts) => some ((key, v) :: vs, ts)
      | none => none
    | _ => none
  | _ + 1, _ => none

end

/-- The tree of some tokens. Every second step at the latest takes a token. -/
def ofTokens? (ts : List Token) : Option Skeleton :=
  match value? (2 * ts.length + 2) ts with
  | some (v, []) => some v
  | _ => none

/-- The tree of a text. -/
def ofText? (s : String) : Option Skeleton := (Token.split? s.toList).bind ofTokens?

end Skeleton

end Json

end ConfinedLisp
