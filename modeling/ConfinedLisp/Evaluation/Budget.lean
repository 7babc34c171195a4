import ConfinedLisp.Eval

/-!
# Budgets

Every application is entered in the budget of its runtime: it takes a step, which is never given back,
and a place on the way down, which is given back when the application ends, whether it succeeds or not.
-/

namespace ConfinedLisp

namespace Runtime

/-- Takes a place on the way down. -/
def descend (r : Runtime) : Except EvalError Unit × Runtime :=
  if r.depth < r.limits.maxDepth then (.ok (), { r with depth := r.depth + 1 })
  else (.error (.recursionLimit r.limits.maxDepth), r)

/-- Takes a step and a place. A step that is refused is not counted; one whose place is refused is. -/
def enter (r : Runtime) : Except EvalError Unit × Runtime :=
  match r.limits.stepLimit with
  | some limit =>
    if r.steps < limit then { r with steps := r.steps + 1 }.descend
    else (.error (.budgetExceeded limit), r)
  | none => { r with steps := r.steps + 1 }.descend

/-- Gives a place back. -/
def leave (r : Runtime) : Runtime := { r with depth := r.depth - 1 }

end Runtime

namespace Store

/-- Enters an application in the budget of a frame. A frame without runtime has no place. -/
def enter (s : Store) (f : FrameId) : Except EvalError Unit × Store :=
  match s.runtimeId? f, s.runtime? f with
  | some i, some runtime =>
    match runtime.enter with
    | (result, runtime) => (result, { s with runtimes := s.runtimes.setIfInBounds i runtime })
  | _, _ => (.error (.recursionLimit 0), s)

/-- Ends an application in the budget of a frame. -/
def leave (s : Store) (f : FrameId) : Store :=
  match s.runtimeId? f with
  | some i => { s with runtimes := s.runtimes.modify i Runtime.leave }
  | none => s

end Store

/-- Runs a computation as an application in the budget of a frame. -/
def Eval.within {α : Type} (f : FrameId) (x : Eval α) : Eval α := fun s =>
  match s.enter f with
  | (.error e, s) => (.error (.error e), s)
  | (.ok _, s) =>
    match x s with
    | (result, s) => (result, s.leave f)

end ConfinedLisp
