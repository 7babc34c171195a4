import ConfinedLisp.Store
import ConfinedLisp.Value.Display

/-!
# Dumps

A dump shows how a value is built: every part with the name of what it is, strings quoted, scopes by
their size and depth, vectors by their items. A vector that leads back to itself has no dump.
-/

namespace ConfinedLisp

namespace Dump

/-- Floats in dumps are positional for leading exponents from -4 to 15, and never look like integers. -/
def floatStyle : Decimal.Style := ⟨some (-4, 15), true, false, .up⟩

/-- Parts between brackets. -/
def brackets (parts : List String) : String := "[" ++ String.intercalate ", " parts ++ "]"

/-- Named parts between braces. -/
def braces (parts : List String) : String := "\x7b " ++ String.intercalate ", " parts ++ " \x7d"

/-- The dump of a key. -/
def key : Key → String
  | .index n => "Index(" ++ Integer.text n.toInt ++ ")"
  | .name s => "Name(" ++ Text.quote s ++ ")"

/-- The dump of a symbol. -/
def symbol (name : String) : String := "Symbol(" ++ name ++ ")"

/-- The dump of a scope. -/
def scope (s : Store) (f : FrameId) : String :=
  "Scope " ++ braces
    ["locals: " ++ Integer.text (s.localCount f), "depth: " ++ Integer.text (s.depthOf f)]

mutual

/-- The dump of a value, given those of vectors. -/
def valueWith (s : Store) (vectors : VectorId → Option String) : Value → Option String
  | .nil => some "Nil"
  | .bool b => some ("Bool(" ++ Display.bool b ++ ")")
  | .int n => some ("Int(" ++ Integer.text n.toInt ++ ")")
  | .float x => some ("Float(" ++ floatStyle.render x ++ ")")
  | .str t => some ("Str(" ++ Text.quote t ++ ")")
  | .sym name => some ("Symbol(" ++ symbol name ++ ")")
  | .list _ items => (itemsWith s vectors items).map fun parts => "List(" ++ brackets parts ++ ")"
  | .array table => (tableWith s vectors table).map fun text => "Array(" ++ text ++ ")"
  | .scope f => some ("Scope(" ++ scope s f ++ ")")
  | .callable c => some ("Callable(Callable(" ++ c.describe ++ "))")
  | .object v => (vectors v).map fun text => "Object(" ++ text ++ ")"
termination_by structural v => v

/-- The dumps of some values. -/
def itemsWith (s : Store) (vectors : VectorId → Option String) : List Value → Option (List String)
  | [] => some []
  | v :: vs =>
    match valueWith s vectors v, itemsWith s vectors vs with
    | some part, some parts => some (part :: parts)
    | _, _ => none
termination_by structural vs => vs

/-- The dump of a table: its entries, its index, and the next free index. -/
def tableWith (s : Store) (vectors : VectorId → Option String) : Table Value → Option String
  | ⟨⟨entries⟩, positions, next⟩ =>
    (entriesWith s vectors entries).map fun parts =>
      let places := positions.toList.map fun (k, i) => key k ++ ": " ++ Integer.text i
      "Array " ++ braces
        ["entries: " ++ brackets parts,
          "positions: \x7b" ++ String.intercalate ", " places ++ "\x7d",
          "next_index: " ++ Integer.text next.toInt]
termination_by structural t => t

/-- The dumps of some entries. -/
def entriesWith (s : Store) (vectors : VectorId → Option String) :
    List (Key × Value) → Option (List String)
  | [] => some []
  | e :: es =>
    match entryWith s vectors e, entriesWith s vectors es with
    | some part, some parts => some (part :: parts)
    | _, _ => none
termination_by structural es => es

/-- The dump of an entry. -/
def entryWith (s : Store) (vectors : VectorId → Option String) : Key × Value → Option String
  | (k, v) => (valueWith s vectors v).map fun text => "(" ++ key k ++ ", " ++ text ++ ")"
termination_by structural e => e

end

/-- The dump of a vector, over at most `fuel` steps from vector to vector. -/
def vectorWithin (s : Store) : Nat → VectorId → Option String
  | 0, _ => none
  | fuel + 1, v =>
    (itemsWith s (vectorWithin s fuel) (s.vector v)).map fun parts =>
      vectorTypeName ++ " " ++ braces ["items: RefCell " ++ braces ["value: " ++ brackets parts]]

/-- The dump of a value. -/
def value (s : Store) (v : Value) : Option String :=
  valueWith s (vectorWithin s (s.vectors.size + 1)) v

/-- The dump of a list of values. -/
def list (s : Store) (items : List Value) : Option String :=
  (itemsWith s (vectorWithin s (s.vectors.size + 1)) items).map brackets

/-- The dump of a primitive. -/
def primitive (p : Primitive) : String :=
  let family := match p with
    | .special _ => "special form"
    | .control _ => "stateful"
    | .operation _ => "pure"
  "Primitive(" ++ family ++ " " ++ p.name ++ ")"

/-- The dump of what a callable holds. -/
def callable (s : Store) : Callable Value → Option String
  | .primitive p _ => some (primitive p)
  | .function _ _ parameters forms =>
    (list s forms).map fun text =>
      let names := parameters.map fun name => "Symbol(" ++ symbol name ++ ")"
      "Function " ++ braces ["parameters: " ++ brackets names, "body: " ++ text]
  | .operative _ _ forms => (list s forms).map fun text => "Macro " ++ braces ["body: " ++ text]
  | .foreign _ name _ => some ("ForeignFunction(" ++ name ++ ")")
  | .constructor _ type => some ("ForeignConstructor(" ++ type.name ++ ")")

/-- The dump of a host type. -/
def hostType (type : HostType) : String :=
  "HostType " ++ braces
    ["name: " ++ Text.quote type.name,
      "static_methods: " ++ brackets (type.staticNames.map Text.quote)]

/-- The dump of a registry. -/
def registry (r : Registry) : String :=
  "HostRegistry " ++ braces
    ["functions: " ++ brackets (r.functionNames.map Text.quote),
      "types: " ++ brackets (r.typeNames.map Text.quote)]

end Dump

end ConfinedLisp
