import ConfinedLisp.Evaluation.Import

/-!
# Special forms at work

Special forms, functions and operatives are explained in terms of an `Evaluator`, the means of
evaluating a form in a scope. The evaluator of the language is obtained by tying the knot over the depth
of nesting.
-/

namespace ConfinedLisp

/-- A way to evaluate a form in a scope. -/
abbrev Evaluator := Value → FrameId → Eval Value

/-- The name under which a function or operative finds all of its operands. -/
def argumentsName : String := "#arguments"

/-- The name under which an operative finds the scope of its caller. -/
def callerScopeName : String := "#scope"

namespace Evaluator

/-- Evaluates forms from left to right: their values. -/
def values (ev : Evaluator) (scope : FrameId) : List Value → Eval (List Value)
  | [] => pure []
  | form :: rest => do
    let v ← ev form scope
    return v :: (← values ev scope rest)

/-- Evaluates forms from left to right: the last value, or the given one if there is no form. -/
def lastFrom (ev : Evaluator) (scope : FrameId) : Value → List Value → Eval Value
  | last, [] => pure last
  | _, form :: rest => do
    let v ← ev form scope
    lastFrom ev scope v rest

/-- Evaluates a body: the last value, or nil if it is empty. -/
def body (ev : Evaluator) (scope : FrameId) (forms : List Value) : Eval Value :=
  lastFrom ev scope .nil forms

/-- Calls a function: its body runs in a fresh child of the frame it closed over, with its parameters
and the list of all arguments bound. There may be more arguments than parameters. -/
def callFunction (ev : Evaluator) (frame : FrameId) (parameters : List String) (forms : List Value)
    (args : List Value) : Eval Value :=
  if args.length < parameters.length then
    Eval.fail (.arity "lambda" (.atLeast parameters.length) args.length)
  else do
    let inner ← Eval.newChild frame
    let all ← Eval.newList args
    Eval.update fun s => s.bindAll inner (parameters.zip args ++ [(argumentsName, all)])
    ev.body inner forms

/-- Applies an operative: its body runs in a fresh child of the frame it closed over, with the scope of
the caller and the list of its operands bound. -/
def applyOperative (ev : Evaluator) (caller frame : FrameId) (forms : List Value)
    (operands : Value) : Eval Value := do
  let inner ← Eval.newChild frame
  Eval.update fun s =>
    s.bindAll inner [(callerScopeName, .scope caller), (argumentsName, operands)]
  ev.body inner forms

/-- Carries out the bindings of a `let` in turn, each in sight of those before it. -/
def bindEach (ev : Evaluator) (inner : FrameId) : List Value → Eval Unit
  | [] => pure ()
  | .list _ [name, form] :: rest => do
    let name ← Eval.ofExcept (Operands.symbol "let" name)
    let v ← ev form inner
    Eval.update fun s => s.bind inner name v
    bindEach ev inner rest
  | v :: _ => Eval.fail (Operands.mismatch "let" .binding v)

/-- Builds a table from entry forms: a pair is a keyed entry, anything else one without a key. -/
def entries (ev : Evaluator) (scope : FrameId) : Table Value → List Value → Eval (Table Value)
  | t, [] => pure t
  | t, .list _ [key, form] :: rest => do
    let k ← ev key scope
    let v ← ev form scope
    let k ← Eval.ofExcept (Operands.key "dict" k)
    entries ev scope (t.insert k v) rest
  | t, .list _ [form] :: rest => do
    let v ← ev form scope
    entries ev scope (t.push v) rest
  | t, form :: rest => do
    let v ← ev form scope
    entries ev scope (t.push v) rest

end Evaluator

/-- The names of parameters, all of which must be symbols. -/
def parameterNames : List Value → Except EvalError (List String)
  | [] => .ok []
  | .sym name :: rest => (parameterNames rest).map (name :: ·)
  | v :: _ => .error (Operands.mismatch "lambda" .parameter v)

/-- A function over a frame. -/
def Eval.newFunction (frame : FrameId) (parameters forms : List Value) : Eval Value := do
  let names ← Eval.ofExcept (parameterNames parameters)
  return .callable (.function (← Eval.freshIdentity) frame names forms)

namespace SpecialForm

/-- `define`: the value of a form becomes that of a name, in the nearest frame that has the name. -/
def runDefine (ev : Evaluator) (scope : FrameId) (operands : List Value) : Eval Value := do
  Eval.ofExcept (Operands.count "define" (.exactly 2) operands)
  let name ← Eval.ofExcept (Operands.symbol "define" (operands.headD .nil))
  let v ← ev (operands.getD 1 .nil) scope
  Eval.update fun s => s.define scope name v
  return v

/-- `let`: a body in a child scope with some bindings. -/
def runLet (ev : Evaluator) (scope : FrameId) (operands : List Value) : Eval Value := do
  Eval.ofExcept (Operands.count "let" (.atLeast 1) operands)
  match operands.headD .nil with
  | .list _ bindings => do
    let inner ← Eval.newChild scope
    ev.bindEach inner bindings
    ev.body inner (operands.drop 1)
  | v => Eval.fail (Operands.mismatch "let" .bindingList v)

/-- `lambda`: a function over the current frame. -/
def runLambda (scope : FrameId) (operands : List Value) : Eval Value := do
  Eval.ofExcept (Operands.count "lambda" (.atLeast 1) operands)
  match operands.headD .nil with
  | .list _ parameters => Eval.newFunction scope parameters (operands.drop 1)
  | v => Eval.fail (Operands.mismatch "lambda" .parameterList v)

/-- `if`: only the chosen branch is evaluated; a missing one is nil. -/
def runBranch (ev : Evaluator) (scope : FrameId) (operands : List Value) : Eval Value := do
  Eval.ofExcept (Operands.count "if" (.between 2 3) operands)
  let condition ← ev (operands.headD .nil) scope
  if condition.isTruthy then ev (operands.getD 1 .nil) scope
  else match operands[2]? with
    | some form => ev form scope
    | none => return .nil

/-- `eval`: the value of a form is evaluated in turn, in the current scope or in one that is given. -/
def runEval (ev : Evaluator) (scope : FrameId) (operands : List Value) : Eval Value := do
  Eval.ofExcept (Operands.count "eval" (.between 1 2) operands)
  let form ← ev (operands.headD .nil) scope
  match operands[1]? with
  | none => ev form scope
  | some scopeForm =>
    match ← ev scopeForm scope with
    | .scope target => ev form target
    | v => Eval.fail (Operands.mismatch "eval" .scope v)

/-- `quote`: its operand as it is. -/
def runQuote (operands : List Value) : Except EvalError Value := do
  Operands.count "quote" (.exactly 1) operands
  .ok (operands.headD .nil)

/-- Runs a special form on unevaluated operands. -/
def run (form : SpecialForm) (ev : Evaluator) (scope : FrameId) (operands : List Value) :
    Eval Value :=
  match form with
  | .define => runDefine ev scope operands
  | .letIn => runLet ev scope operands
  | .lambda => runLambda scope operands
  | .operative => do return .callable (.operative (← Eval.freshIdentity) scope operands)
  | .quote => Eval.ofExcept (runQuote operands)
  | .branch => runBranch ev scope operands
  | .dict => do return .array (← ev.entries scope .empty operands)
  | .eval => runEval ev scope operands
  | .sequence => ev.body scope operands
  | .imports => do Eval.newList (← Import.performAll scope operands)

end SpecialForm

end ConfinedLisp
