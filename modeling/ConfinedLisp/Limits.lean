/-!
# Limits

What a host allows a sandbox to spend: how many applications may be nested, and how many may happen in
all.
-/

namespace ConfinedLisp

/-- Limits on evaluation. -/
structure Limits where
  /-- How many applications may be nested. -/
  maxDepth : Nat := 200
  /-- How many applications may happen in all, if that is limited. -/
  stepLimit : Option Nat := none
deriving DecidableEq, Repr, Inhabited

end ConfinedLisp
