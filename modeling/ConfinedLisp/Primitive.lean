import ConfinedLisp.Assoc

/-!
# Primitives

The built-in operations that every sandbox binds, in three families by what they are given. A special
form gets its operands unevaluated. A control operation gets evaluated operands and the scope of its
caller. An operation gets evaluated operands only. `Primitive.seed` lists the names under which they
are bound, aliases included.
-/

namespace ConfinedLisp

/-- Built-ins that decide for themselves what to evaluate. -/
inductive SpecialForm where
  | define
  | letIn
  | lambda
  | operative
  | quote
  | branch
  | dict
  | eval
  | sequence
  | imports
deriving DecidableEq, Repr

/-- Built-ins that call other callables on behalf of their caller. -/
inductive Control where
  | apply
  | map
  | filter
  | fold
  | isCallable
deriving DecidableEq, Repr

/-- Built-ins on evaluated operands. -/
inductive Operation where
  | add
  | subtract
  | multiply
  | divide
  | remainder
  | not
  | and
  | or
  | eq
  | equal
  | notEq
  | notEqual
  | less
  | greater
  | atMost
  | atLeast
  | isNil
  | isSymbol
  | isList
  | isArray
  | isString
  | isNumber
  | isInteger
  | isFloat
  | isBool
  | isScope
  | list
  | car
  | cdr
  | at
  | existsAt
  | count
  | array
  | symbol
  | string
deriving DecidableEq, Repr

/-- A built-in operation. -/
inductive Primitive where
  | special (form : SpecialForm)
  | control (control : Control)
  | operation (operation : Operation)
deriving DecidableEq, Repr

/-- The name of a special form in the language. -/
def SpecialForm.name : SpecialForm → String
  | .define => "define"
  | .letIn => "let"
  | .lambda => "lambda"
  | .operative => "macro"
  | .quote => "quote"
  | .branch => "if"
  | .dict => "dict"
  | .eval => "eval"
  | .sequence => "do"
  | .imports => "use"

/-- The name of a control operation in the language. -/
def Control.name : Control → String
  | .apply => "apply"
  | .map => "map"
  | .filter => "filter"
  | .fold => "fold"
  | .isCallable => "callable?"

/-- The name of an operation in the language. -/
def Operation.name : Operation → String
  | .add => "+"
  | .subtract => "-"
  | .multiply => "*"
  | .divide => "/"
  | .remainder => "%"
  | .not => "not"
  | .and => "and"
  | .or => "or"
  | .eq => "eq"
  | .equal => "equal"
  | .notEq => "not-eq"
  | .notEqual => "not-equal"
  | .less => "<"
  | .greater => ">"
  | .atMost => "<="
  | .atLeast => ">="
  | .isNil => "nil?"
  | .isSymbol => "symbol?"
  | .isList => "list?"
  | .isArray => "array?"
  | .isString => "string?"
  | .isNumber => "number?"
  | .isInteger => "integer?"
  | .isFloat => "float?"
  | .isBool => "bool?"
  | .isScope => "scope?"
  | .list => "list"
  | .car => "car"
  | .cdr => "cdr"
  | .at => "at"
  | .existsAt => "exists-at?"
  | .count => "count"
  | .array => "array"
  | .symbol => "symbol"
  | .string => "string"

namespace Primitive

/-- The name of a primitive in the language. -/
def name : Primitive → String
  | .special f => f.name
  | .control c => c.name
  | .operation o => o.name

/-- Whether a primitive gets its operands unevaluated. -/
def isSpecial : Primitive → Bool
  | .special _ => true
  | _ => false

/-- All special forms. -/
def specialForms : List SpecialForm :=
  [.define, .letIn, .lambda, .operative, .quote, .branch, .dict, .eval, .sequence, .imports]

/-- All control operations. -/
def controls : List Control := [.apply, .map, .filter, .fold, .isCallable]

/-- All operations. -/
def operations : List Operation :=
  [.add, .subtract, .multiply, .divide, .remainder, .not, .and, .or, .eq, .equal, .notEq, .notEqual,
    .less, .greater, .atMost, .atLeast, .isNil, .isSymbol, .isList, .isArray, .isString, .isNumber,
    .isInteger, .isFloat, .isBool, .isScope, .list, .car, .cdr, .at, .existsAt, .count, .array,
    .symbol, .string]

/-- All primitives. -/
def all : List Primitive :=
  specialForms.map special ++ controls.map control ++ operations.map operation

/-- Further names of primitives. -/
def aliases : List (String × Primitive) :=
  [("mod", .operation .remainder), ("===", .operation .eq), ("==", .operation .equal),
    ("=", .operation .equal), ("!==", .operation .notEq), ("!=", .operation .notEqual),
    ("/=", .operation .notEqual), (".", .operation .string)]

/-- Every name that a fresh sandbox binds to a primitive. -/
def seed : List (String × Primitive) := all.map (fun p => (p.name, p)) ++ aliases

/-- The primitive that a fresh sandbox binds to a name. -/
def ofName? (name : String) : Option Primitive := Assoc.find? name seed

end Primitive

end ConfinedLisp
