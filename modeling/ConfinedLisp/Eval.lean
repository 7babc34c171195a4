import ConfinedLisp.Error
import ConfinedLisp.Form
import ConfinedLisp.Store

/-!
# Computations on the store

A computation takes a store to a result and a store. What it has done to the store stays done when it
fails. A computation that would never end halts as `endless`, which is not an error of the language:
no program can see it, and evaluation is arranged so that it does not arise.
-/

namespace ConfinedLisp

/-- Why a computation ends without a value. -/
inductive Halt where
  | error (error : EvalError)
  | endless

/-- A computation on the store. -/
def Eval (α : Type) : Type := Store → Except Halt α × Store

namespace Eval

variable {α β : Type}

/-- Runs a computation. -/
def run (x : Eval α) (s : Store) : Except Halt α × Store := x s

/-- The computation that only gives a value. -/
protected def pure (a : α) : Eval α := fun s => (.ok a, s)

/-- One computation after the other; the second one is left out if the first one halts. -/
protected def bind (x : Eval α) (f : α → Eval β) : Eval β := fun s =>
  match x s with
  | (.ok a, s) => f a s
  | (.error halt, s) => (.error halt, s)

instance : Monad Eval where
  pure := Eval.pure
  bind := Eval.bind

/-- Halts with an error. -/
def fail (e : EvalError) : Eval α := fun s => (.error (.error e), s)

/-- Halts as endless. -/
def endless : Eval α := fun s => (.error .endless, s)

/-- Reads something off the store. -/
def read (f : Store → α) : Eval α := fun s => (.ok (f s), s)

/-- Changes the store. -/
def update (f : Store → Store) : Eval Unit := fun s => (.ok (), f s)

/-- Changes the store and gives a value. -/
def make (f : Store → α × Store) : Eval α := fun s =>
  match f s with
  | (a, s) => (.ok a, s)

/-- The outcome of a check that does not need the store. -/
def ofExcept : Except EvalError α → Eval α
  | .ok a => Eval.pure a
  | .error e => fail e

/-- A fresh identity. -/
def freshIdentity : Eval Identity := fun s =>
  (.ok s.nextIdentity, { s with nextIdentity := s.nextIdentity + 1 })

/-- A list with an identity of its own. -/
def newList (items : List Value) : Eval Value := fun s =>
  (.ok (.list s.nextIdentity items), { s with nextIdentity := s.nextIdentity + 1 })

/-- A frame without bindings under a parent, in the runtime of the parent. -/
def newChild (parent : FrameId) : Eval FrameId :=
  make fun s => s.addFrame (some parent) ((s.runtimeId? parent).getD 0)

/-- A frame without bindings and without parent, in the runtime of another frame. -/
def newDetached (of : FrameId) : Eval FrameId :=
  make fun s => s.addFrame none ((s.runtimeId? of).getD 0)

/-- A root frame without bindings, in a runtime of its own. -/
def newRoot (registry : Registry) (limits : Limits) : Eval FrameId := do
  let runtime ← make fun s => s.addRuntime registry limits
  make fun s => s.addFrame none runtime

mutual

/-- The value of a form. Every list of it gets an identity. -/
def ofForm : Form → Eval Value
  | .int n => Eval.pure (.int n)
  | .float x => Eval.pure (.float x)
  | .str s => Eval.pure (.str s)
  | .sym name => Eval.pure (.sym name)
  | .list items => (ofForms items).bind newList

/-- The values of some forms. -/
def ofForms : List Form → Eval (List Value)
  | [] => Eval.pure []
  | f :: fs => (ofForm f).bind fun v => (ofForms fs).bind fun vs => Eval.pure (v :: vs)

end

/-- Reads every form of a text. -/
def readForms (sourceName source : String) : Eval (List Value) :=
  match Form.read source with
  | .ok forms => ofForms forms
  | .error fault => fail (.unreadable sourceName fault)

end Eval

end ConfinedLisp
