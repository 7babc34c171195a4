import ConfinedLisp.Form.Reading
import ConfinedLisp.Value

/-!
# Errors

The ways in which evaluation fails. An error records its cause; `EvalError.message` words it,
`EvalError.code` classifies it for tools, and `EvalError.help?` says what could be done about it.
-/

namespace ConfinedLisp

/-- How many operands a callable takes. -/
inductive Arity where
  | exactly (n : Nat)
  | atLeast (n : Nat)
  | between (low high : Nat)
deriving DecidableEq, Repr

namespace Arity

/-- Whether a number of operands is allowed. -/
def allows : Arity → Nat → Bool
  | .exactly n, k => k = n
  | .atLeast n, k => n ≤ k
  | .between low high, k => low ≤ k && k ≤ high

/-- The wording of an arity. -/
def text : Arity → String
  | .exactly n => Integer.text n
  | .atLeast n => "at least " ++ Integer.text n
  | .between low high => Integer.text low ++ " to " ++ Integer.text high

end Arity

/-- What a callable expected an operand to be. -/
inductive Expectation where
  | callable
  | number
  | string
  | integer
  | symbol
  | list
  | sequence
  | collection
  | key
  | table
  | bindingList
  | binding
  | parameterList
  | parameter
  | scope
  | ordered
  | importName
  | vector
  | kind (kind : Kind)
deriving DecidableEq, Repr

/-- The wording of an expectation. -/
def Expectation.text : Expectation → String
  | .callable => "a callable"
  | .number => "a number"
  | .string => "a string"
  | .integer => "an integer"
  | .symbol => "a symbol"
  | .list => "a list"
  | .sequence => "a list or array"
  | .collection => "a list, array or string"
  | .key => "an array key"
  | .table => "an array or list"
  | .bindingList => "a binding list"
  | .binding => "a (symbol form) binding"
  | .parameterList => "a parameter list"
  | .parameter => "a parameter symbol"
  | .scope => "a scope"
  | .ordered => "a number or string"
  | .importName => "a name or (source alias) pair"
  | .vector => "a Vector"
  | .kind k => k.name

/-- The two sorts of names in a registry. -/
inductive HostSort where
  | function
  | type
deriving DecidableEq, Repr

/-- The wording of a sort of names. -/
def HostSort.text : HostSort → String
  | .function => "function"
  | .type => "type"

/-- Why a host function failed. -/
inductive HostFailure where
  /-- A float, given by its text, that JSON cannot express. -/
  | notRepresentable (number : String)
  /-- A value of a type that JSON cannot express. -/
  | cannotEncode (kind : Kind)
  /-- A text that is not a JSON document. -/
  | notJson
  /-- An extremum of no values. -/
  | nothingToCompare
  /-- Arguments other than one integer. -/
  | notOneInteger
deriving DecidableEq, Repr

/-- The wording of a host failure, if it has more to say than that it happened. -/
def HostFailure.detail? : HostFailure → Option String
  | .notRepresentable number => some (number ++ " is not representable")
  | .cannotEncode kind => some ("cannot encode a " ++ kind.name)
  | .notJson => none
  | .nothingToCompare => some "no values to compare"
  | .notOneInteger => some "expected one integer"

/-- A failure of evaluation. -/
inductive EvalError where
  | arity (callee : String) (expected : Arity) (actual : Nat)
  | typeMismatch (callee : String) (expected : Expectation) (actual : Kind)
  | indexOutOfRange (callee : String) (index : String) (length : Nat)
  | emptyStructure (callee : String)
  | unresolvedImport (name : String) (cause : EvalError)
  | unknownIdentifier (sort : HostSort) (name : String)
  | divisionByZero (callee : String)
  | recursionLimit (limit : Nat)
  | budgetExceeded (limit : Nat)
  | host (function : String) (failure : HostFailure)
  | unreadable (sourceName : String) (fault : Fault)
deriving DecidableEq, Repr

namespace EvalError

/-- The wording of an error. -/
def message : EvalError → String
  | .arity callee expected actual =>
    "incorrect arity for `" ++ callee ++ "`: expected " ++ expected.text ++ ", got "
      ++ Integer.text actual
  | .typeMismatch callee expected actual =>
    "type error in `" ++ callee ++ "`: expected " ++ expected.text ++ ", got " ++ actual.name
  | .indexOutOfRange callee index length =>
    "index " ++ index ++ " is out of range in `" ++ callee ++ "` (length " ++ Integer.text length
      ++ ")"
  | .emptyStructure callee => "`" ++ callee ++ "` cannot take an element of an empty list"
  | .unresolvedImport name _ => "cannot import `" ++ name ++ "`"
  | .unknownIdentifier sort name => "unknown host " ++ sort.text ++ " `" ++ name ++ "`"
  | .divisionByZero callee => "division by zero in `" ++ callee ++ "`"
  | .recursionLimit limit =>
    "recursion limit of " ++ Integer.text limit ++ " nested applications exceeded"
  | .budgetExceeded limit => "evaluation budget of " ++ Integer.text limit ++ " steps exhausted"
  | .host function failure =>
    "host function `" ++ function ++ "` failed" ++ match failure.detail? with
      | some detail => ": " ++ detail
      | none => ""
  | .unreadable _ fault => "syntax error: " ++ fault.wanted.text

/-- The classification of an error. -/
def code : EvalError → String
  | .arity .. => "sandlisp::eval::arity_mismatch"
  | .typeMismatch .. => "sandlisp::eval::type_mismatch"
  | .indexOutOfRange .. => "sandlisp::eval::index_out_of_range"
  | .emptyStructure _ => "sandlisp::eval::empty_structure"
  | .unresolvedImport .. => "sandlisp::import::unresolved"
  | .unknownIdentifier .. => "sandlisp::host::unknown_identifier"
  | .divisionByZero _ => "sandlisp::eval::division_by_zero"
  | .recursionLimit _ => "sandlisp::eval::recursion_limit"
  | .budgetExceeded _ => "sandlisp::eval::budget_exceeded"
  | .host .. => "sandlisp::host::call_failed"
  | .unreadable .. => "sandlisp::read::syntax"

/-- Advice on an error, where there is some. -/
def help? : EvalError → Option String
  | .unresolvedImport .. =>
    some "imports must name a registered host function, or a host type written as <Type>"
  | .recursionLimit _ =>
    some ("raise `max_depth` in the evaluation config if this program is expected to nest "
      ++ "deeply")
  | _ => none

/-- The error that led to this one. -/
def cause? : EvalError → Option EvalError
  | .unresolvedImport _ cause => some cause
  | _ => none

end EvalError

end ConfinedLisp
