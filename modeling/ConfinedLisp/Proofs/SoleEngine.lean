import ConfinedLisp.Proofs.GenericCall
import ConfinedLisp.Proofs.ImportEffects
import ConfinedLisp.Proofs.SpareDepth

/-!
# An engine alone in its store

Until a program makes a scope, the store of the engine that was made first has one frame and one
runtime. Names are then looked up among the bindings of the root, and a form can change these
bindings, the vectors, the steps that have been taken and the next identity, and nothing else. So
programs of this kind are run form by form, by what each form does to these parts.

## Main definitions

- `Store.sole`: the store of such an engine.

## Main results

- `Store.withEngine_empty`: a fresh engine is alone.
- `Store.evaluateWithin_sole`: an application by name.
- `Store.evaluateWithin_define`, `Store.evaluateWithin_names`, `Store.evaluate_use`: a definition, a
  call with the values of names, and an import.
-/

namespace ConfinedLisp

namespace Store

variable {r : Runtime} {bindings bindings' : List (String × Value)}
  {vectors vectors' : Array (Array Value)} {next next' : Identity} {name : String}

/-- The store of an engine that is alone: its runtime, the bindings of its root, the vectors and the
next identity. -/
def sole (r : Runtime) (bindings : List (String × Value)) (vectors : Array (Array Value))
    (next : Identity) : Store :=
  ⟨#[⟨bindings, none, 0⟩], #[r], vectors, next⟩

/-! ### Bindings and budget -/

theorem bind_sole (v : Value) :
    (sole r bindings vectors next).bind 0 name v =
      sole r (Assoc.put name v bindings) vectors next := rfl

theorem lookup?_sole :
    (sole r bindings vectors next).lookup? 0 name = Assoc.find? name bindings := by
  cases hname : Assoc.find? name bindings with
  | none => simp [lookup?, searchWithin, sole, hname]
  | some v => simp [lookup?, searchWithin, sole, hname]

theorem define_sole (v : Value) :
    (sole r bindings vectors next).define 0 name v =
      sole r (Assoc.put name v bindings) vectors next := by
  have hholder : ((sole r bindings vectors next).holder? 0 name).getD 0 = 0 := by
    cases hname : Assoc.find? name bindings with
    | none => simp [holder?, searchWithin, sole, hname]
    | some v => simp [holder?, searchWithin, sole, hname]
  rw [define, hholder, bind_sole]

theorem bindAll_sole (pairs : List (String × Value)) :
    (sole r bindings vectors next).bindAll 0 pairs =
      sole r (Assoc.putAll pairs bindings) vectors next := by
  induction pairs generalizing bindings with
  | nil => rfl
  | cons pair rest ih => exact ih

theorem enrollAll_sole (pairs : List (String × Value)) :
    (sole r bindings vectors next).enrollAll 0 pairs =
      sole r (Assoc.putAll pairs bindings) vectors (next + pairs.length) := by
  induction pairs generalizing bindings next with
  | nil => rfl
  | cons pair rest ih =>
    rw [List.length_cons, Nat.add_comm rest.length, ← Nat.add_assoc]
    exact ih

/-- A fresh engine is alone in its store, and its root binds what a fresh sandbox binds. -/
theorem withEngine_empty (registry : Registry) (limits : Limits) :
    empty.withEngine registry limits = sole ⟨registry, limits, 0, 0⟩ Engine.seed #[] 0 := by
  have hkeys : (Assoc.keys ([] ++ Engine.seed)).Nodup := by decide +kernel
  have hseed : Assoc.putAll Engine.seed [] = Engine.seed := Assoc.putAll_of_nodup hkeys
  refine (bindAll_sole Engine.seed).trans ?_
  rw [hseed]
  rfl

theorem enter_sole (hsteps : r.limits.stepLimit = none) (hplace : r.depth < r.limits.maxDepth) :
    (sole r bindings vectors next).enter 0 = (.ok (), sole r.entered bindings vectors next) := by
  simp [enter, runtimeId?, runtime?, sole, Runtime.enter, Runtime.descend, Runtime.entered, hsteps,
    hplace]

theorem leave_sole (steps : Nat) :
    (sole { r.entered with steps := steps } bindings vectors next).leave 0 =
      sole { r with steps := steps } bindings vectors next := rfl

theorem evaluator_sole :
    (sole r bindings vectors next).evaluator =
      evaluateWithin (r.limits.maxDepth - r.depth + 1) := by
  simp [evaluator, headroom, sole]

/-- With at least one place left, the evaluator of the store is good for an application. -/
theorem evaluate_sole (hplace : r.depth < r.limits.maxDepth) (form : Value) :
    evaluate form 0 (sole r bindings vectors next) =
      evaluateWithin (r.limits.maxDepth - r.depth - 1 + 2) form 0 (sole r bindings vectors next) := by
  have hfuel : r.limits.maxDepth - r.depth + 1 = r.limits.maxDepth - r.depth - 1 + 2 := by omega
  rw [evaluate, evaluator_sole, hfuel]

/-! ### Applications -/

variable {n steps : Nat} {result : Except Halt Value}

/-- An application by name does what applying the callable does, one place further down. -/
theorem evaluateWithin_sole {c : Callable Value} {operands : List Value}
    (hsteps : r.limits.stepLimit = none) (hplace : r.depth < r.limits.maxDepth)
    (hname : Assoc.find? name bindings = some (.callable c))
    (happly : (evaluateWithin (n + 1)).apply 0 c next operands
        (sole r.entered bindings vectors (next + 1)) =
      (result, sole { r.entered with steps := steps } bindings' vectors' next')) (id : Identity) :
    evaluateWithin (n + 2) (.list id (.sym name :: operands)) 0 (sole r bindings vectors next) =
      (result, sole { r with steps := steps } bindings' vectors' next') := by
  have hlookup : (sole r.entered bindings vectors next).lookup? 0 name = some (.callable c) :=
    lookup?_sole.trans hname
  have hfresh : (sole r.entered bindings vectors next).freshened =
      sole r.entered bindings vectors (next + 1) := rfl
  have hnext : (sole r.entered bindings vectors next).nextIdentity = next := rfl
  rw [evaluateWithin_application (enter_sole hsteps hplace) (evaluate_name hlookup n), hfresh, hnext,
    happly, leave_sole]

/-- A definition binds the name to what its form comes to. -/
theorem evaluateWithin_define {form v : Value} (hsteps : r.limits.stepLimit = none)
    (hplace : r.depth < r.limits.maxDepth)
    (hdefine : Assoc.find? "define" bindings = some (.callable (.primitive (.special .define) none)))
    (hform : evaluateWithin (n + 1) form 0 (sole r.entered bindings vectors (next + 1)) =
      (.ok v, sole { r.entered with steps := steps } bindings' vectors' next')) (id : Identity) :
    evaluateWithin (n + 2) (.list id [.sym "define", .sym name, form]) 0
        (sole r bindings vectors next) =
      (.ok v, sole { r with steps := steps } (Assoc.put name v bindings') vectors' next') := by
  refine evaluateWithin_sole hsteps hplace hdefine ?_ id
  have hrun : (evaluateWithin (n + 1)).apply 0 (.primitive (.special .define) none) next
      [.sym name, form] (sole r.entered bindings vectors (next + 1)) =
        (.ok v, (sole { r.entered with steps := steps } bindings' vectors' next').define 0 name v) :=
    Eval.bind_of_ok hform _
  rw [hrun, define_sole]

/-- Names are evaluated to their values, which changes nothing. -/
theorem values_names {names : List String} {vs : List Value}
    (hnames : List.Forall₂ (fun name v => Assoc.find? name bindings = some v) names vs) (n : Nat) :
    (evaluateWithin (n + 1)).values 0 (names.map .sym) (sole r bindings vectors next) =
      (.ok vs, sole r bindings vectors next) := by
  induction hnames with
  | nil => rfl
  | cons hname _ ih => exact Evaluator.values_cons (evaluate_name (lookup?_sole.trans hname) n) ih

/-- A callable that runs on the values of its operands, applied to names. -/
theorem evaluateWithin_names {c : Callable Value} (run : List Value → Eval Value)
    {names : List String} {vs : List Value} (hsteps : r.limits.stepLimit = none)
    (hplace : r.depth < r.limits.maxDepth)
    (hname : Assoc.find? name bindings = some (.callable c))
    (hnames : List.Forall₂ (fun name v => Assoc.find? name bindings = some v) names vs)
    (happly : ∀ (ev : Evaluator) id operands,
      ev.apply 0 c id operands = (ev.values 0 operands).bind run)
    (hrun : run vs (sole r.entered bindings vectors (next + 1)) =
      (result, sole r.entered bindings vectors' next')) (n : Nat) (id : Identity) :
    evaluateWithin (n + 2) (.list id (.sym name :: names.map .sym)) 0
        (sole r bindings vectors next) =
      (result, sole { r with steps := r.steps + 1 } bindings vectors' next') := by
  refine evaluateWithin_sole hsteps hplace hname ?_ id
  rw [happly, Eval.bind_of_ok (values_names hnames n), hrun]
  rfl

theorem evaluate_names {c : Callable Value} (run : List Value → Eval Value)
    {names : List String} {vs : List Value} (hsteps : r.limits.stepLimit = none)
    (hplace : r.depth < r.limits.maxDepth)
    (hname : Assoc.find? name bindings = some (.callable c))
    (hnames : List.Forall₂ (fun name v => Assoc.find? name bindings = some v) names vs)
    (happly : ∀ (ev : Evaluator) id operands,
      ev.apply 0 c id operands = (ev.values 0 operands).bind run)
    (hrun : run vs (sole r.entered bindings vectors (next + 1)) =
      (result, sole r.entered bindings vectors' next')) (id : Identity) :
    evaluate (.list id (.sym name :: names.map .sym)) 0 (sole r bindings vectors next) =
      (result, sole { r with steps := r.steps + 1 } bindings vectors' next') :=
  (evaluate_sole hplace _).trans
    (evaluateWithin_names run hsteps hplace hname hnames happly hrun _ id)

/-- An import binds what it stands for. -/
theorem evaluate_use {operand : Value} {label : String} {target : Import.Target}
    (hsteps : r.limits.stepLimit = none) (hplace : r.depth < r.limits.maxDepth)
    (huse : Assoc.find? "use" bindings = some (.callable (.primitive (.special .imports) none)))
    (htarget : Import.Resolves r.registry operand (label, target))
    (vectors : Array (Array Value)) (next id : Identity) :
    ∃ v next', evaluate (.list id [.sym "use", operand]) 0 (sole r bindings vectors next) =
      (.ok v, sole { r with steps := r.steps + 1 }
        (Assoc.putAll (target.bindings (next + 1) label) bindings) vectors next') := by
  have hresolves : Import.Resolves ((sole r.entered bindings vectors (next + 1)).registry 0) operand
      (label, target) := htarget
  have himport : Import.performAll 0 [operand] (sole r.entered bindings vectors (next + 1)) =
      (.ok [target.callable (next + 1)], (sole r.entered bindings vectors (next + 1)).enrollAll 0
        (target.bindings (next + 1) label)) := Import.performAll_cons hresolves rfl
  rw [enrollAll_sole] at himport
  have hrun : ∀ ev : Evaluator, ev.apply 0 (.primitive (.special .imports) none) next [operand]
      (sole r.entered bindings vectors (next + 1)) = _ :=
    fun _ => Eval.bind_of_ok himport Eval.newList
  exact ⟨_, _, (evaluate_sole hplace _).trans (evaluateWithin_sole hsteps hplace huse (hrun _) id)⟩

end Store

/-- The first of several forms in turn. -/
theorem Evaluator.lastFrom_cons {ev : Evaluator} {scope : FrameId} {form v : Value} {s t : Store}
    (h : ev form scope s = (.ok v, t)) (before : Value) (rest : List Value) :
    ev.lastFrom scope before (form :: rest) s = ev.lastFrom scope v rest t :=
  Eval.bind_of_ok h _

/-- A text is evaluated form by form. -/
theorem Engine.evalSource_of_readForms {engine : Engine} {source : String} {forms : List Value}
    {s t : Store} (h : Eval.readForms Engine.defaultSourceName source s = (.ok forms, t)) :
    engine.evalSource source s = Evaluator.lastFrom evaluate engine.root .nil forms t :=
  Eval.bind_of_ok h _

end ConfinedLisp
