import ConfinedLisp.Operands
import ConfinedLisp.Value.Display

/-!
# Operations on collections

Lists are indexed by position, tables by key, strings by character.
-/

namespace ConfinedLisp

namespace Collection

/-- The element at a position, if there is one. -/
def atPosition? {α : Type} (items : List α) (n : Int64) : Option α :=
  if n.toInt < 0 then none else items[n.toInt.toNat]?

/-- The element of a collection at a position or key, if there is one. The callee is named where a key
is no key, and `positional` where a position is no integer. -/
def element? (callee positional : String) (collection index : Value) :
    Except EvalError (Option Value) :=
  match collection with
  | .list _ items => (Operands.integer positional index).map fun n => atPosition? items n
  | .array table => (Operands.key callee index).map fun key => table.get? key
  | .str s =>
    (Operands.integer positional index).map fun n =>
      (atPosition? s.toList n).map fun c => .str (String.ofList [c])
  | other => .error (Operands.mismatch callee .collection other)

/-- Whether a collection has an element at a position or key: a position is compared with the number of
items of a list, and a key is sought among the keys of a table. The callee is named where a key is no
key, and `positional` where a position is no integer. -/
def hasElement (callee positional : String) (collection index : Value) : Except EvalError Bool :=
  match collection with
  | .list _ items =>
    (Operands.integer positional index).map fun n =>
      decide (0 ≤ n.toInt ∧ n.toInt < (items.length : Int))
  | .array table => (Operands.key callee index).map fun key => table.contains key
  | .str s => (Operands.integer positional index).map fun n => (atPosition? s.toList n).isSome
  | other => .error (Operands.mismatch callee .collection other)

/-- The number of elements, entries or characters. -/
def size (callee : String) : Value → Except EvalError Nat
  | .list _ items => .ok items.length
  | .array table => .ok table.size
  | .str s => .ok s.toList.length
  | other => .error (Operands.mismatch callee .collection other)

/-- The element at a position or key. -/
def elementAt (operands : List Value) : Except EvalError Value := do
  Operands.count "at" (.exactly 2) operands
  let collection := operands.headD .nil
  let index := operands.getD 1 .nil
  match ← element? "at" "at" collection index with
  | some v => .ok v
  | none => .error (.indexOutOfRange "at" index.display (← size "at" collection))

/-- Whether there is an element at a position or key. -/
def existsAt (operands : List Value) : Except EvalError Value := do
  Operands.count "exists-at?" (.exactly 2) operands
  (hasElement "exists-at?" "at" (operands.headD .nil) (operands.getD 1 .nil)).map .bool

/-- The number of elements of a collection. -/
def count (operands : List Value) : Except EvalError Value := do
  Operands.count "count" (.exactly 1) operands
  let n ← size "count" (operands.headD .nil)
  .ok (.int (Int64.ofNat n))

/-- The first item of a list. -/
def car (operands : List Value) : Except EvalError Value := do
  Operands.count "car" (.exactly 1) operands
  match ← Operands.list "car" (operands.headD .nil) with
  | v :: _ => .ok v
  | [] => .error (.emptyStructure "car")

/-- The items after the first one; nothing if there is no first one. -/
def cdr? (operands : List Value) : Except EvalError (Option (List Value)) := do
  Operands.count "cdr" (.exactly 1) operands
  match ← Operands.list "cdr" (operands.headD .nil) with
  | _ :: vs => .ok (some vs)
  | [] => .ok none

/-- The table of the operands. -/
def array (operands : List Value) : Value := .array (Table.ofValues operands)

/-- The symbol of a name. -/
def symbol (operands : List Value) : Except EvalError Value := do
  Operands.count "symbol" (.exactly 1) operands
  (Operands.string "symbol" (operands.headD .nil)).map .sym

/-- The texts of the operands, one after the other. -/
def string (operands : List Value) : Value :=
  .str (String.join (operands.map Value.display))

end Collection

end ConfinedLisp
