import ConfinedLisp.Assoc

/-!
# Host registries

A registry is the boundary of a sandbox: it names the host functions and host types that programs may
import. What a host function computes is fixed by the `HostFunction` it stands for; a registry decides
only which of them are reachable, and under which names.
-/

namespace ConfinedLisp

/-- A function supplied by the host, on evaluated arguments. -/
inductive HostFunction where
  | trim
  | substr
  | toUppercase
  | toLowercase
  | strContains
  | arrayMerge
  | arraySlice
  | arrayKeys
  | arrayValues
  | abs
  | floor
  | ceil
  | sqrt
  | pow
  | min
  | max
  | jsonEncode
  | jsonDecode
  | vectorOf
  | vectorLen
  | vectorPush
  | vectorToList
  | symbolOf
  | listOf
  | listFrom
  /-- Twice its only argument, an integer, modulo `2^64`. -/
  | double
  /-- The number of its arguments. -/
  | argumentCount
  /-- The list of its two arguments. -/
  | pairOf
  /-- The same text whatever its arguments. -/
  | always (text : String)
deriving DecidableEq, Repr

/-- What applying a host type does. -/
inductive HostConstructor where
  /-- A function of the arguments alone. -/
  | plain (function : HostFunction)
  /-- A detached scope, or a child of the scope given. -/
  | newScope
  /-- The scope in which the type is applied. -/
  | callerScope
deriving DecidableEq, Repr

/-- A host type: a constructor and named static methods. -/
structure HostType where
  name : String
  construct : HostConstructor
  statics : List (String × HostFunction)
deriving DecidableEq, Repr

/-- The host functions and types that programs may import, by name. -/
structure Registry where
  functions : List (String × HostFunction)
  types : List (String × HostType)
deriving DecidableEq, Repr

/-- Texts in the order of their bytes. -/
def sortedTexts (names : List String) : List String := names.mergeSort fun a b => decide (a ≤ b)

namespace HostType

/-- The names of the static methods, in order. -/
def staticNames (t : HostType) : List String := sortedTexts (Assoc.keys t.statics)

/-- The name under which errors know a static method. -/
def qualified (t : HostType) (method : String) : String := t.name ++ "::" ++ method

/-- The static methods in the order of their names. -/
def sortedStatics (t : HostType) : List (String × HostFunction) :=
  t.statics.mergeSort fun a b => decide (a.1 ≤ b.1)

end HostType

namespace Registry

/-- The registry from which nothing can be imported. -/
def empty : Registry := ⟨[], []⟩

instance : Inhabited Registry := ⟨empty⟩

/-- Adds a function, in place of an earlier one of the same name. -/
def addFunction (r : Registry) (name : String) (f : HostFunction) : Registry :=
  { r with functions := Assoc.put name f r.functions }

/-- Adds a type under its own name, in place of an earlier one of that name. -/
def addType (r : Registry) (t : HostType) : Registry :=
  { r with types := Assoc.put t.name t r.types }

/-- The function of a name. -/
def function? (r : Registry) (name : String) : Option HostFunction := Assoc.find? name r.functions

/-- The type of a name. -/
def type? (r : Registry) (name : String) : Option HostType := Assoc.find? name r.types

/-- The names of the functions, in order. -/
def functionNames (r : Registry) : List String := sortedTexts (Assoc.keys r.functions)

/-- The names of the types, in order. -/
def typeNames (r : Registry) : List String := sortedTexts (Assoc.keys r.types)

/-- The standard library: texts, tables, numbers, JSON, vectors, and the language's own values. -/
def standard : Registry where
  functions :=
    [("trim", .trim), ("substr", .substr), ("to_uppercase", .toUppercase),
      ("to_lowercase", .toLowercase), ("str_contains", .strContains), ("array_merge", .arrayMerge),
      ("array_slice", .arraySlice), ("array_keys", .arrayKeys), ("array_values", .arrayValues),
      ("abs", .abs), ("floor", .floor), ("ceil", .ceil), ("sqrt", .sqrt), ("pow", .pow),
      ("min", .min), ("max", .max), ("json_encode", .jsonEncode), ("json_decode", .jsonDecode)]
  types :=
    [("Vector", ⟨"Vector", .plain .vectorOf,
        [("of", .vectorOf), ("len", .vectorLen), ("push", .vectorPush), ("to_list", .vectorToList)]⟩),
      ("Symbol", ⟨"Symbol", .plain .symbolOf, [("get", .symbolOf)]⟩),
      ("List", ⟨"List", .plain .listOf, [("from", .listFrom)]⟩),
      ("Scope", ⟨"Scope", .newScope, []⟩)]

/-- A small registry that shows what hosts can offer beside the standard library. -/
def sample : Registry :=
  empty
    |>.addFunction "double" .double
    |>.addFunction "a_b_c" .argumentCount
    |>.addType ⟨"Lisp_List", .plain .listOf, []⟩
    |>.addType ⟨"Pair", .plain .pairOf, [("a", .listOf), ("b", .always "b")]⟩
    |>.addType ⟨"Here", .callerScope, []⟩

end Registry

end ConfinedLisp
