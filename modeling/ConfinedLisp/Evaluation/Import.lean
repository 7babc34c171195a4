import ConfinedLisp.Eval
import ConfinedLisp.Operands

/-!
# Imports

An import names a host function, or a host type between angle brackets, and may give it an alias.
Dashes and slashes in the name stand for underscores. Importing binds the alias, and for a type also
each static method under the alias, in the current frame alone.
-/

namespace ConfinedLisp

namespace Import

/-- What an import operand asks for: the name as written, and the name to bind. -/
structure Request where
  written : String
  label : String
deriving DecidableEq, Repr

/-- Reads an import operand. -/
def request : Value → Except EvalError Request
  | .sym name => .ok ⟨name, name⟩
  | .list _ [source, target] => do
    let written ← Operands.symbol "use" source
    let bound ← Operands.symbol "use" target
    .ok ⟨written, bound⟩
  | v => .error (Operands.mismatch "use" .importName v)

/-- The name in the registry of a written name. -/
def hostName (cs : List Char) : String :=
  String.ofList (cs.map fun c => if c = '-' || c = '/' then '_' else c)

/-- The characters between angle brackets, if the text has them around it. -/
def betweenAngles? (s : String) : Option (List Char) :=
  match s.toList with
  | '<' :: rest => if rest.getLast? = some '>' then some rest.dropLast else none
  | _ => none

/-- What a written name resolves to. -/
inductive Target where
  | function (name : String) (function : HostFunction)
  | type (type : HostType)

/-- Resolves a written name in a registry. -/
def resolve (registry : Registry) (written : String) : Except EvalError Target :=
  match betweenAngles? written with
  | some inner =>
    let name := hostName inner
    match registry.type? name with
    | some type => .ok (.type type)
    | none => .error (.unknownIdentifier .type name)
  | none =>
    let name := hostName written.toList
    match registry.function? name with
    | some function => .ok (.function name function)
    | none => .error (.unknownIdentifier .function name)

/-- Binds the static methods of a type under an alias. -/
def bindStatics (scope : FrameId) (label : String) (type : HostType) :
    List (String × HostFunction) → Eval Unit
  | [] => pure ()
  | (method, function) :: rest => do
    let id ← Eval.freshIdentity
    Eval.update fun s =>
      s.bind scope (label ++ "::" ++ method) (.callable (.foreign id (type.qualified method) function))
    bindStatics scope label type rest

/-- Carries out one import: the callable that the alias is now bound to. -/
def perform (scope : FrameId) (operand : Value) : Eval Value := do
  let request ← Eval.ofExcept (request operand)
  let registry ← Eval.read fun s => s.registry scope
  match resolve registry request.written with
  | .error cause => Eval.fail (.unresolvedImport request.written cause)
  | .ok (.function name function) =>
    let callable := Value.callable (.foreign (← Eval.freshIdentity) name function)
    Eval.update fun s => s.bind scope request.label callable
    return callable
  | .ok (.type type) =>
    bindStatics scope request.label type type.sortedStatics
    let callable := Value.callable (.constructor (← Eval.freshIdentity) type)
    Eval.update fun s => s.bind scope request.label callable
    return callable

/-- Carries out imports in turn, up to the first that fails: the callables. -/
def performAll (scope : FrameId) : List Value → Eval (List Value)
  | [] => pure []
  | operand :: rest => do
    let callable ← perform scope operand
    return callable :: (← performAll scope rest)

end Import

end ConfinedLisp
