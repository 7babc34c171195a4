import ConfinedLisp.Evaluation.Control
import ConfinedLisp.Evaluation.SpecialForm
import ConfinedLisp.Host.Function
import ConfinedLisp.Operation.Run

/-!
# Calls and applications

A callable is applied to unevaluated operands, or called with values. Control operations call other
callables, which may again be control operations, without evaluating anything in between, so calling is
a recursion on how deep the operands reach.
-/

namespace ConfinedLisp

/-- Values as forms that evaluate to them: symbols and lists are quoted, by a primitive of their own so
that no binding matters. -/
def Eval.quoteAll : List Value → Eval (List Value)
  | [] => pure []
  | v :: rest => do
    let form ← match v with
      | .sym _ | .list .. => do
        let copy ← Eval.freshIdentity
        Eval.newList [.callable (.primitive (.special .quote) (some copy)), v]
      | _ => pure v
    return form :: (← quoteAll rest)

namespace Evaluator

/-- Calls a callable with values, given the means to run a control operation on them. -/
def invokeWith (ev : Evaluator) (scope : FrameId) (c : Callable Value) (args : List Value)
    (control : Control → Eval Value) : Eval Value :=
  match c with
  | .primitive (.operation o) _ => o.run args
  | .primitive (.control k) _ => control k
  | .primitive (.special f) _ => do f.run ev scope (← Eval.quoteAll args)
  | .function _ frame parameters forms => ev.callFunction frame parameters forms args
  | .operative _ frame forms => do
    let operands ← Eval.newList (← Eval.quoteAll args)
    ev.applyOperative scope frame forms operands
  | .foreign _ _ f => f.run args
  | .constructor _ type => type.construct.run scope args

/-- Calls a value with values. -/
def call (ev : Evaluator) (scope : FrameId) (callee : Value) (args : List Value) : Eval Value :=
  match callee with
  | .callable c =>
    ev.invokeWith scope c args fun k =>
      k.runWith scope args fun callee args' _ => ev.call scope callee args'
  | .str name => do
    match ← Eval.read fun s => (s.registry scope).function? name with
    | some f => f.run args
    | none => Eval.fail (.unknownIdentifier .function name)
  | v => Eval.fail (Operands.mismatch "call" .callable v)
termination_by Control.reach args

/-- Runs a control operation. -/
def runControl (ev : Evaluator) (scope : FrameId) (control : Control) (operands : List Value) :
    Eval Value :=
  control.runWith scope operands fun callee args _ => ev.call scope callee args

/-- Calls a callable with values. -/
def invoke (ev : Evaluator) (scope : FrameId) (c : Callable Value) (args : List Value) :
    Eval Value :=
  ev.invokeWith scope c args fun k => ev.runControl scope k args

/-- Applies a callable to unevaluated operands; `id` is the identity of their list. -/
def apply (ev : Evaluator) (scope : FrameId) (c : Callable Value) (id : Identity)
    (operands : List Value) : Eval Value :=
  match c with
  | .primitive (.operation o) _ => do o.run (← ev.values scope operands)
  | .primitive (.control k) _ => do ev.runControl scope k (← ev.values scope operands)
  | .primitive (.special f) _ => f.run ev scope operands
  | .function _ frame parameters forms => do
    ev.callFunction frame parameters forms (← ev.values scope operands)
  | .operative _ frame forms => ev.applyOperative scope frame forms (.list id operands)
  | .foreign _ _ f => do f.run (← ev.values scope operands)
  | .constructor _ type => do type.construct.run scope (← ev.values scope operands)

/-- Evaluates a list with a head: the head gives a callable, which is applied to the rest. -/
def applyForm (ev : Evaluator) (scope : FrameId) (head : Value) (rest : List Value) :
    Eval Value := do
  match ← ev head scope with
  | .callable c => do ev.apply scope c (← Eval.freshIdentity) rest
  | v => Eval.fail (.typeMismatch head.display .callable v.kind)

end Evaluator

end ConfinedLisp
