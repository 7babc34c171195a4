import ConfinedLisp.Json.Document
import ConfinedLisp.Limits

/-!
# Limits as JSON

Limits are read from an object with the members `max_depth` and `step_limit`, either of which may be
missing and neither of which may occur twice, or from an array of the two in this order. Other members
are passed over.
-/

namespace ConfinedLisp

namespace Limits

open Json

/-- A whole number without sign that 64 bits can hold. -/
def natural? : Skeleton → Option Nat
  | .number ⟨false, whole, none, none⟩ =>
    let n := Integer.ofDigits whole
    if n ≤ greatestSignificand then some n else none
  | _ => none

/-- A step limit; null is none. -/
def stepLimit? : Skeleton → Option (Option Nat)
  | .null => some none
  | v => (natural? v).map some

/-- The two limits as far as they have been given. -/
structure Given where
  maxDepth : Option Nat
  stepLimit : Option (Option Nat)

/-- The limits that were given, the others as by default. -/
def Given.complete (given : Given) : Limits where
  maxDepth := given.maxDepth.getD ({} : Limits).maxDepth
  stepLimit := given.stepLimit.getD ({} : Limits).stepLimit

/-- Takes up a member. -/
def Given.add? (given : Given) (member : List StringUnit × Skeleton) : Option Given := do
  let key ← denoteString? member.1
  if key = "max_depth" then
    if given.maxDepth.isSome then none
    else return { given with maxDepth := some (← natural? member.2) }
  else if key = "step_limit" then
    if given.stepLimit.isSome then none
    else return { given with stepLimit := some (← stepLimit? member.2) }
  else return given

/-- The limits that a tree stands for. -/
def ofSkeleton? : Skeleton → Option Limits
  | .array [] => some {}
  | .array [depth] => do return { maxDepth := ← natural? depth }
  | .array [depth, steps] => do
    return { maxDepth := ← natural? depth, stepLimit := ← stepLimit? steps }
  | .object members => (members.foldlM Given.add? ⟨none, none⟩).map Given.complete
  | _ => none

/-- Limits from JSON text. -/
def ofJson? (s : String) : Option Limits := (Skeleton.ofText? s).bind ofSkeleton?

/-- Limits as JSON text. -/
def toJson (limits : Limits) : String :=
  (Document.object
    [("max_depth", .whole limits.maxDepth),
      ("step_limit", match limits.stepLimit with
        | some n => .whole n
        | none => .null)]).render

end Limits

end ConfinedLisp
