import ConfinedLisp.Eval
import ConfinedLisp.Host.Span
import ConfinedLisp.Json.Codec
import ConfinedLisp.Number
import ConfinedLisp.Text.Blank
import ConfinedLisp.Text.Case

/-!
# Host functions at work

`HostFunction.run` gives each host function its meaning, `HostConstructor.run` each way to make an
instance of a host type. Only those that make or extend vectors, lists and scopes touch the store.
-/

namespace ConfinedLisp

namespace Host

/-- The only argument of a function of one argument. -/
def single (name : String) (args : List Value) : Except EvalError Value := do
  Operands.count name (.exactly 1) args
  .ok (args.headD .nil)

/-- A function on texts. -/
def onText (name : String) (f : String → String) (args : List Value) : Except EvalError Value := do
  let s ← Operands.string name (← single name args)
  .ok (.str (f s))

/-- The start and the length among the arguments after the first; a length of nil is none. -/
def spanOf (name : String) (size : Nat) (args : List Value) : Except EvalError Span := do
  let start ← Operands.integer name (args.getD 1 .nil)
  match args.getD 2 .nil with
  | .nil => .ok (.of size start none)
  | v => .ok (.of size start (some (← Operands.integer name v)))

/-- A part of a text, counted in characters. -/
def substr (args : List Value) : Except EvalError Value := do
  Operands.count "substr" (.between 2 3) args
  let s ← Operands.string "substr" (args.headD .nil)
  let span ← spanOf "substr" s.toList.length args
  .ok (.str (String.ofList (span.take s.toList)))

/-- Whether a text occurs within another. -/
def strContains (args : List Value) : Except EvalError Value := do
  Operands.count "str_contains" (.exactly 2) args
  let haystack ← Operands.string "str_contains" (args.headD .nil)
  let needle ← Operands.string "str_contains" (args.getD 1 .nil)
  .ok (.bool (haystack.contains needle))

/-- The entries of all arguments in one table. -/
def arrayMerge (args : List Value) : Except EvalError Value := do
  let tables ← args.mapM (Operands.table "array_merge")
  .ok (.array (Table.merge tables))

/-- A part of a table. -/
def arraySlice (args : List Value) : Except EvalError Value := do
  Operands.count "array_slice" (.between 2 3) args
  let t ← Operands.table "array_slice" (args.headD .nil)
  let span ← spanOf "array_slice" t.size args
  .ok (.array (t.slice span.begin span.stop))

/-- The keys of a table, as a table. -/
def arrayKeys (args : List Value) : Except EvalError Value := do
  let t ← Operands.table "array_keys" (← single "array_keys" args)
  .ok (.array (Table.ofValues (t.keys.map Key.toValue)))

/-- The values of a table, as a table. -/
def arrayValues (args : List Value) : Except EvalError Value := do
  let t ← Operands.table "array_values" (← single "array_values" args)
  .ok (.array (Table.ofValues t.values))

/-- The absolute value; that of an integer is an integer if it fits. -/
def abs (args : List Value) : Except EvalError Value := do
  match ← Operands.number "abs" (← single "abs" args) with
  | .int n => .ok (Number.exactOr n.toInt.natAbs (Double.ofInteger n).abs).toValue
  | .float x => .ok (.float x.abs)

/-- A function on floats. -/
def onFloat (name : String) (f : Float → Float) (args : List Value) : Except EvalError Value := do
  let n ← Operands.number name (← single name args)
  .ok (.float (f n.toFloat))

/-- The greatest exponent of 32 bits. -/
def widestExponent : Int := 4294967295

/-- The exact power of two machine integers, for an exponent of at most 32 bits, if it fits. -/
def exactPower? (base exponent : Int64) : Option Int64 :=
  let e := exponent.toInt
  if e < 0 ∨ widestExponent < e then none else Integer.timesPower? 1 base e.toNat

/-- A power; that of two integers is an integer if it fits. -/
def pow (args : List Value) : Except EvalError Value := do
  Operands.count "pow" (.exactly 2) args
  let base := args.headD .nil
  let exponent := args.getD 1 .nil
  let wholePower? := match base, exponent with
    | .int b, .int e => exactPower? b e
    | _, _ => none
  match wholePower? with
  | some n => .ok (.int n)
  | none =>
    let b ← Operands.number "pow" base
    let e ← Operands.number "pow" exponent
    .ok (.float (b.toFloat.pow e.toFloat))

/-- The first of some numbers that no later one replaces. -/
def bestFrom (name : String) (replaces : Float → Float → Bool) :
    Option (Float × Value) → List Value → Except EvalError (Option (Float × Value))
  | best, [] => .ok best
  | best, v :: vs =>
    match Operands.number name v with
    | .error e => .error e
    | .ok n =>
      match best with
      | none => bestFrom name replaces (some (n.toFloat, v)) vs
      | some (current, w) =>
        if replaces current n.toFloat then bestFrom name replaces (some (n.toFloat, v)) vs
        else bestFrom name replaces (some (current, w)) vs

/-- An extremum of the arguments, or of the elements of a single list or table. Candidates compare as
floats, and one that compares equal does not replace an earlier one. -/
def extremum (name : String) (replaces : Float → Float → Bool) (args : List Value) :
    Except EvalError Value := do
  Operands.count name (.atLeast 1) args
  let candidates := match args with
    | [.list _ items] => items
    | [.array t] => t.values
    | _ => args
  match ← bestFrom name replaces none candidates with
  | some (_, v) => .ok v
  | none => .error (.host name .nothingToCompare)

/-- The JSON text of a value. -/
def jsonEncode (args : List Value) : Eval Value := do
  let v ← Eval.ofExcept (single "json_encode" args)
  match ← Eval.read fun s => Json.encode s v with
  | .ok d => return .str d.render
  | .error (.error e) => Eval.fail e
  | .error .endless => Eval.endless

/-- The value of a JSON text. -/
def jsonDecode (args : List Value) : Eval Value := do
  let v ← Eval.ofExcept (single "json_decode" args)
  let s ← Eval.ofExcept (Operands.string "json_decode" v)
  match Json.Document.ofText? s with
  | some d => Json.decode d
  | none => Eval.fail (.host "json_decode" .notJson)

/-- The vector that an argument is. -/
def vectorArg (name : String) : Value → Except EvalError VectorId
  | .object v => .ok v
  | v => .error (Operands.mismatch name .vector v)

/-- A new vector of the arguments. -/
def vectorOf (args : List Value) : Eval Value := do
  return .object (← Eval.make fun s => s.addVector args)

/-- The number of items of a vector, as a value. -/
def vectorSize (v : VectorId) : Eval Value := do
  return .int (Int64.ofNat (← Eval.read fun s => s.vectorSize v))

/-- The length of a vector. -/
def vectorLen (args : List Value) : Eval Value := do
  let arg ← Eval.ofExcept (single "Vector::len" args)
  vectorSize (← Eval.ofExcept (vectorArg "Vector::len" arg))

/-- Adds all arguments but the first to the vector that is the first; gives the new length. -/
def vectorPush (args : List Value) : Eval Value := do
  Eval.ofExcept (Operands.count "Vector::push" (.atLeast 1) args)
  let v ← Eval.ofExcept (vectorArg "Vector::push" (args.headD .nil))
  Eval.update fun s => s.extendVector v (args.drop 1)
  vectorSize v

/-- The items of a vector, as a list. -/
def vectorToList (args : List Value) : Eval Value := do
  let arg ← Eval.ofExcept (single "Vector::to_list" args)
  let v ← Eval.ofExcept (vectorArg "Vector::to_list" arg)
  let items ← Eval.read fun s => s.vector v
  Eval.newList items

/-- The symbol of a name. -/
def symbolOf (args : List Value) : Except EvalError Value := do
  (Operands.string "Symbol" (← single "Symbol" args)).map .sym

/-- The elements of a list or table, as a list. -/
def listFrom (args : List Value) : Eval Value := do
  let arg ← Eval.ofExcept (single "List::from" args)
  Eval.newList (← Eval.ofExcept (Operands.sequence "List::from" arg))

/-- Twice the only argument, an integer, modulo `2^64`. -/
def double : List Value → Except EvalError Value
  | [.int n] => .ok (.int (n + n))
  | _ => .error (.host "double" .notOneInteger)

/-- The list of the two arguments. -/
def pairOf (args : List Value) : Eval Value := do
  Eval.ofExcept (Operands.count "Pair" (.exactly 2) args)
  Eval.newList args

end Host

/-- Runs a host function on evaluated arguments. -/
def HostFunction.run (function : HostFunction) (args : List Value) : Eval Value :=
  match function with
  | .trim => Eval.ofExcept (Host.onText "trim" Text.trim args)
  | .substr => Eval.ofExcept (Host.substr args)
  | .toUppercase => Eval.ofExcept (Host.onText "to_uppercase" Text.toUpper args)
  | .toLowercase => Eval.ofExcept (Host.onText "to_lowercase" Text.toLower args)
  | .strContains => Eval.ofExcept (Host.strContains args)
  | .arrayMerge => Eval.ofExcept (Host.arrayMerge args)
  | .arraySlice => Eval.ofExcept (Host.arraySlice args)
  | .arrayKeys => Eval.ofExcept (Host.arrayKeys args)
  | .arrayValues => Eval.ofExcept (Host.arrayValues args)
  | .abs => Eval.ofExcept (Host.abs args)
  | .floor => Eval.ofExcept (Host.onFloat "floor" Float.floor args)
  | .ceil => Eval.ofExcept (Host.onFloat "ceil" Float.ceil args)
  | .sqrt => Eval.ofExcept (Host.onFloat "sqrt" Float.sqrt args)
  | .pow => Eval.ofExcept (Host.pow args)
  | .min => Eval.ofExcept (Host.extremum "min" (fun current x => x < current) args)
  | .max => Eval.ofExcept (Host.extremum "max" (fun current x => current < x) args)
  | .jsonEncode => Host.jsonEncode args
  | .jsonDecode => Host.jsonDecode args
  | .vectorOf => Host.vectorOf args
  | .vectorLen => Host.vectorLen args
  | .vectorPush => Host.vectorPush args
  | .vectorToList => Host.vectorToList args
  | .symbolOf => Eval.ofExcept (Host.symbolOf args)
  | .listOf => Eval.newList args
  | .listFrom => Host.listFrom args
  | .double => Eval.ofExcept (Host.double args)
  | .argumentCount => pure (.int (Int64.ofNat args.length))
  | .pairOf => Host.pairOf args
  | .always text => pure (.str text)

/-- A detached scope, or a child of the scope given. -/
def Host.newScope (caller : FrameId) (args : List Value) : Eval Value := do
  Eval.ofExcept (Operands.count "Scope" (.between 0 1) args)
  match args with
  | [] => return .scope (← Eval.newDetached caller)
  | .scope parent :: _ => return .scope (← Eval.newChild parent)
  | v :: _ => Eval.fail (Operands.mismatch "Scope" .scope v)

/-- Makes an instance of a host type. -/
def HostConstructor.run (construct : HostConstructor) (caller : FrameId) (args : List Value) :
    Eval Value :=
  match construct with
  | .plain function => function.run args
  | .newScope => Host.newScope caller args
  | .callerScope => pure (.scope caller)

end ConfinedLisp
