import ConfinedLisp.Eval
import ConfinedLisp.Operation.Arithmetic
import ConfinedLisp.Operation.Collection
import ConfinedLisp.Operation.Logic
import ConfinedLisp.Value.Equality

/-!
# Operations at work

`Operation.run` gives each operation its meaning. Apart from loose equality, which looks into vectors,
and the two operations that make a list, no operation touches the store.
-/

namespace ConfinedLisp

namespace Logic

/-- Whether the first value loosely equals each of some others, up to the first that it does not. -/
def allLooseWith (first : Value) (s : Store) : List Value → Option Bool
  | [] => some true
  | v :: vs =>
    match s.looseEq first v with
    | some true => allLooseWith first s vs
    | answer => answer

/-- Whether every operand after the first loosely equals the first. -/
def allLoose (callee : String) (operands : List Value) : Eval Bool := do
  Eval.ofExcept (Operands.count callee (.atLeast 2) operands)
  match ← Eval.read fun s => allLooseWith (operands.headD .nil) s (operands.drop 1) with
  | some answer => pure answer
  | none => Eval.endless

end Logic

/-- Runs an operation on evaluated operands. -/
def Operation.run (operation : Operation) (operands : List Value) : Eval Value :=
  match operation with
  | .add => Eval.ofExcept (Arithmetic.sum operands)
  | .subtract => Eval.ofExcept (Arithmetic.difference operands)
  | .multiply => Eval.ofExcept (Arithmetic.product operands)
  | .divide => Eval.ofExcept (Arithmetic.quotient operands)
  | .remainder => Eval.ofExcept (Arithmetic.modulus operands)
  | .not => Eval.ofExcept (Logic.negation operands)
  | .and => pure (Logic.conjunction operands)
  | .or => pure (Logic.disjunction operands)
  | .eq => do return .bool (← Eval.ofExcept (Logic.allStrict "eq" operands))
  | .equal => do return .bool (← Logic.allLoose "equal" operands)
  | .notEq => do return .bool (!(← Eval.ofExcept (Logic.allStrict "not-eq" operands)))
  | .notEqual => do return .bool (!(← Logic.allLoose "not-equal" operands))
  | .less => Eval.ofExcept (Logic.chain "<" Ordering.isLT operands)
  | .greater => Eval.ofExcept (Logic.chain ">" Ordering.isGT operands)
  | .atMost => Eval.ofExcept (Logic.chain "<=" Ordering.isLE operands)
  | .atLeast => Eval.ofExcept (Logic.chain ">=" Ordering.isGE operands)
  | .isNil => Eval.ofExcept (Logic.typeTest "nil?" (· = .nil) operands)
  | .isSymbol => Eval.ofExcept (Logic.typeTest "symbol?" (· = .symbol) operands)
  | .isList => Eval.ofExcept (Logic.typeTest "list?" (· = .list) operands)
  | .isArray => Eval.ofExcept (Logic.typeTest "array?" (· = .array) operands)
  | .isString => Eval.ofExcept (Logic.typeTest "string?" (· = .string) operands)
  | .isNumber => Eval.ofExcept (Logic.typeTest "number?" (fun k => k = .int || k = .float) operands)
  | .isInteger => Eval.ofExcept (Logic.typeTest "integer?" (· = .int) operands)
  | .isFloat => Eval.ofExcept (Logic.typeTest "float?" (· = .float) operands)
  | .isBool => Eval.ofExcept (Logic.typeTest "bool?" (· = .bool) operands)
  | .isScope => Eval.ofExcept (Logic.typeTest "scope?" (· = .scope) operands)
  | .list => Eval.newList operands
  | .car => Eval.ofExcept (Collection.car operands)
  | .cdr => do
    match ← Eval.ofExcept (Collection.cdr? operands) with
    | some items => Eval.newList items
    | none => return .nil
  | .at => Eval.ofExcept (Collection.elementAt operands)
  | .existsAt => Eval.ofExcept (Collection.existsAt operands)
  | .count => Eval.ofExcept (Collection.count operands)
  | .array => pure (Collection.array operands)
  | .symbol => Eval.ofExcept (Collection.symbol operands)
  | .string => pure (Collection.string operands)

end ConfinedLisp
