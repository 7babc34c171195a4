import ConfinedLisp.Evaluation

/-!
# Engines

An engine is a sandbox with the reader in front: a root scope with every primitive bound, limits to
keep and a registry to import from. Definitions last from one text to the next and are seen by no
other engine. Dropping an engine removes the bindings of its root.
-/

namespace ConfinedLisp

/-- An engine, known by its root scope. -/
structure Engine where
  root : FrameId
deriving DecidableEq, Repr

namespace Engine

/-- The constants that a fresh sandbox binds. -/
def constants : List (String × Value) :=
  [("nil", .nil), ("null", .nil), ("true", .bool true), ("false", .bool false)]

/-- Everything that a fresh sandbox binds. -/
def seed : List (String × Value) :=
  Primitive.seed.map (fun (name, p) => (name, .callable (.primitive p none))) ++ constants

/-- A root scope with every primitive bound, in a runtime of its own. -/
def sandbox (registry : Registry) (limits : Limits) : Eval FrameId := do
  let root ← Eval.newRoot registry limits
  Eval.update fun s => s.bindAll root seed
  return root

/-- A fresh engine. -/
def create (registry : Registry) (limits : Limits) : Eval Engine := do
  return ⟨← sandbox registry limits⟩

/-- Reads all forms of a named text, then evaluates them in turn: the last value, or nil. -/
def evalNamed (engine : Engine) (sourceName source : String) : Eval Value := do
  let forms ← Eval.readForms sourceName source
  evaluateAll forms engine.root

/-- The name of a text that was given none. -/
def defaultSourceName : String := "<input>"

/-- Reads all forms of a text, then evaluates them in turn. -/
def evalSource (engine : Engine) (source : String) : Eval Value :=
  engine.evalNamed defaultSourceName source

/-- Drops an engine. -/
def drop (engine : Engine) : Eval Unit := Eval.update fun s => s.clear engine.root

end Engine

end ConfinedLisp
