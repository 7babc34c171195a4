import ConfinedLisp.Host.Registry
import ConfinedLisp.Primitive
import ConfinedLisp.Table

/-!
# Values

Forms and results share one type of values. Lists, functions and other callables have an identity,
which strict equality observes; scopes and vectors are references into the store.
-/

namespace ConfinedLisp

/-- The identity of a list or callable. -/
abbrev Identity := Nat

/-- A reference to a frame of bindings. -/
abbrev FrameId := Nat

/-- A reference to a growable vector of the host. -/
abbrev VectorId := Nat

/-- What can stand at the head of an application. -/
inductive Callable (α : Type) where
  /-- A built-in: the one that every sandbox shares, or a copy of it with an identity of its own. -/
  | primitive (primitive : Primitive) (copy : Option Identity)
  /-- A closure over a frame. -/
  | function (id : Identity) (frame : FrameId) (parameters : List String) (body : List α)
  /-- A closure over a frame that gets its operands unevaluated, and the scope of its caller. -/
  | operative (id : Identity) (frame : FrameId) (body : List α)
  /-- A host function, with the name by which it was bound. -/
  | foreign (id : Identity) (name : String) (function : HostFunction)
  /-- A host type; applying it makes an instance. -/
  | constructor (id : Identity) (type : HostType)

/-- A value of the language. -/
inductive Value where
  | nil
  | bool (b : Bool)
  | int (n : Int64)
  | float (x : Float)
  | str (s : String)
  | sym (name : String)
  | list (id : Identity) (items : List Value)
  | array (table : Table Value)
  | scope (frame : FrameId)
  | callable (callable : Callable Value)
  | object (vector : VectorId)

instance : Inhabited Value := ⟨.nil⟩

/-- The types of values. -/
inductive Kind where
  | nil
  | bool
  | int
  | float
  | string
  | symbol
  | list
  | array
  | scope
  | callable
  | object
deriving DecidableEq, Repr

/-- The name of a type of values. -/
def Kind.name : Kind → String
  | .nil => "nil"
  | .bool => "bool"
  | .int => "int"
  | .float => "float"
  | .string => "string"
  | .symbol => "symbol"
  | .list => "list"
  | .array => "array"
  | .scope => "scope"
  | .callable => "callable"
  | .object => "object"

/-- The name of the only type of host objects. -/
def vectorTypeName : String := "Vector"

namespace Callable

variable {α : Type}

/-- How a callable is described in print. -/
def describe : Callable α → String
  | .primitive p _ => (if p.isSpecial then "special form " else "primitive ") ++ p.name
  | .function .. => "function"
  | .operative .. => "macro"
  | .foreign _ name _ => "host function " ++ name
  | .constructor _ type => "host type " ++ type.name

/-- Whether two callables are the same one. -/
def same : Callable α → Callable α → Bool
  | .primitive p c, .primitive p' c' => p = p' && c = c'
  | .function i .., .function j .. => i = j
  | .operative i .., .operative j .. => i = j
  | .foreign i .., .foreign j .. => i = j
  | .constructor i _, .constructor j _ => i = j
  | _, _ => false

end Callable

namespace Value

/-- The type of a value. -/
def kind : Value → Kind
  | .nil => .nil
  | .bool _ => .bool
  | .int _ => .int
  | .float _ => .float
  | .str _ => .string
  | .sym _ => .symbol
  | .list .. => .list
  | .array _ => .array
  | .scope _ => .scope
  | .callable _ => .callable
  | .object _ => .object

/-- Whether a value counts as true: all do but nil, false, the two zeros and the empty string. -/
def isTruthy : Value → Bool
  | .nil => false
  | .bool b => b
  | .int n => n != 0
  | .float x => x != 0.0
  | .str s => !s.isEmpty
  | _ => true

/-- Whether a value is nil. -/
def isNil : Value → Bool
  | .nil => true
  | _ => false

end Value

end ConfinedLisp
