import ConfinedLisp.Proofs.BudgetExactness
import ConfinedLisp.Proofs.Equivariance
import ConfinedLisp.Proofs.GenericCall
import ConfinedLisp.Proofs.Underway

/-!
# The identities of lists

A list is made with an identity of its own, which strict equality observes. Wherever lists of one
identity turn up they have the same items, whatever way they took, and what makes a list never gives
it the identity of a list that is around. Quoting a list or looking it up, on the other hand, gives
the list itself.

## Main definitions

- `Store.Unused`: an identity that no list has.
- `Store.KeepsIdentities`: what the identities of lists are good for, at one moment.

## Main results

- `Underway.lists_keep_identities`: identities are kept in the course of evaluation.
-/

namespace ConfinedLisp

/-! ### What makes lists -/

theorem Realm.runs_ofExcept {World α : Type} {R : Realm World} {w : World}
    (r : Except EvalError α) : R.Runs w (Eval.ofExcept r) fun _ _ => True := by
  cases r with
  | error e => exact runs_halt rfl
  | ok a => exact (Judgment.keeping R).pure trivial

/-- A computation makes the store grow, and what it gives is a list with a new identity. -/
def Eval.Mints (s : Store) (x : Eval Value) : Prop :=
  Realm.everything.Runs s x fun _ v => ∃ id items, v = .list id items ∧ s.nextIdentity ≤ id

namespace Eval.Mints

variable {s : Store} {α : Type} {x : Eval α} {f : α → Eval Value} {Q : Store → α → Prop}

theorem newList (s : Store) (items : List Value) : Mints s (Eval.newList items) :=
  Realm.runs_make (Unbudgeted.newList items) s.grows_freshened rfl
    ⟨s.nextIdentity, items, rfl, Nat.le_refl _⟩

theorem bind (hx : Realm.everything.Runs s x Q) (hf : ∀ t a, s.Grows t → Mints t (f a)) :
    Mints s (x.bind f) := by
  refine hx.bind fun t a hgrows _ => ?_
  obtain ⟨u, hu, hstore, hstandings, hnew⟩ := hf t a hgrows
  refine ⟨u, hu, hstore, hstandings, fun v hv => ?_⟩
  obtain ⟨id, items, rfl, hid⟩ := hnew v hv
  exact ⟨id, items, rfl, Nat.le_trans hgrows.identity hid⟩

theorem afterExcept {r : Except EvalError α} (hf : ∀ t a, Mints t (f a)) :
    Mints s ((Eval.ofExcept r).bind f) :=
  bind (Realm.runs_ofExcept r) fun t a _ => hf t a

end Eval.Mints

/-- The host functions that make a list. -/
def HostFunction.makesList : HostFunction → Bool
  | .listOf | .listFrom | .vectorToList | .pairOf => true
  | _ => false

theorem HostFunction.mints_run {f : HostFunction} (hf : f.makesList = true) (args : List Value)
    (s : Store) : Eval.Mints s (f.run args) := by
  cases f with
  | listOf => exact .newList s args
  | listFrom => exact .afterExcept fun _ _ => .afterExcept fun t items => .newList t items
  | pairOf => exact .afterExcept fun t _ => .newList t args
  | vectorToList =>
    refine .afterExcept fun _ _ => .afterExcept fun t i => ?_
    exact .newList t (t.vector i)
  | _ => cases hf

namespace Control

open Eval (Mints)

variable {s : Store} {scope : FrameId} {operands : List Value}
  {call : Value → List Value → Eval Value}
  (hcall : ∀ t callee args, (Judgment.keeping .everything).judge t (call callee args)
    (call callee args) Realm.everything.value)

theorem mints_checking {callee : String} {arity : Arity} {x : Eval Value}
    (hx : ∀ t, Mints t x) : Mints s (checking scope operands callee arity x) :=
  .afterExcept fun _ _ => .bind (Judgment.keeping .everything).expectCallable fun t _ _ => hx t

include hcall

theorem mints_map : Mints s (map.runWith scope operands fun callee args _ => call callee args) := by
  rw [runWith_map]
  refine mints_checking fun _ => .afterExcept fun t columns =>
    .bind (Q := Realm.everything.values) ?_ fun u vs _ => .newList u vs
  exact (Judgment.keeping .everything).callEachOnto (P := fun _ _ => True) (fun _ h => h)
    (fun u row _ _ => hcall u _ row) Realm.values_nil fun _ _ => trivial

theorem mints_filter :
    Mints s (filter.runWith scope operands fun callee args _ => call callee args) := by
  rw [runWith_filter]
  refine mints_checking fun _ => .afterExcept fun t items =>
    .bind (Q := Realm.everything.values) ?_ fun u vs _ => .newList u vs
  exact (Judgment.keeping .everything).keepTruthyOnto (fun u v _ _ => hcall u _ [v])
    Realm.values_nil fun _ _ _ _ => trivial

end Control

/-! ### What is made from nothing -/

/-- The realm of plain values, and of lists whose identities are given from some one on. Nothing
that was there before is among them. -/
def Realm.newborn (first : Identity) : Realm { s : Store // first ≤ s.nextIdentity } where
  store w := w.1
  later w w' := w.1.Grows w'.1
  later_refl w := .refl w.1
  later_trans h h' := h.trans h'
  grows h := h
  part _ v := v.IsPlain ∨ ∃ id items, v = .list id items ∧ first ≤ id
  part_later _ h := h
  part_plain _ _ := Or.inl
  scope _ _ := False
  part_scope := by simp [Value.IsPlain]
  captured _ _ := False
  captured_of_scope h := h
  part_function := by simp [Value.IsPlain]
  part_operative := by simp [Value.IsPlain]
  runs _ _ := False
  runs_foreign h := by simp [Value.IsPlain] at h
  runs_constructor h := by simp [Value.IsPlain] at h
  part_foreign _ h := h.elim
  part_constructor _ h := h.elim
  part_static _ h := h.elim
  get _ h := h.elim
  fresh := fun {w} items _ => ⟨⟨w.1.freshened, Nat.le_succ_of_le w.2⟩, w.1.grows_freshened, rfl,
    Or.inr ⟨_, items, rfl, w.2⟩⟩
  bindAll h := h.elim
  define _ h := h.elim
  child h := h.elim
  detached h := h.elim
  vector h := h.elim
  extend h := by simp [Value.IsPlain] at h
  items h := by simp [Value.IsPlain] at h
  enter h := h.elim
  leave h := h.elim

/-- Whatever occurs in the value of a JSON text has a new identity if it is a list. -/
theorem Host.le_of_occurs_jsonDecode {args : List Value} {s t : Store} {v : Value}
    (h : Host.jsonDecode args s = (.ok v, t)) {id : Identity} {items : List Value}
    (hlist : (Value.list id items).Occurs v) : s.nextIdentity ≤ id := by
  have hruns : (Realm.newborn s.nextIdentity).Runs ⟨s, Nat.le_refl _⟩ (Host.jsonDecode args)
      (Realm.newborn s.nextIdentity).value := by
    refine (Realm.runs_ofExcept _).bind fun w arg _ _ => ?_
    refine (Realm.runs_ofExcept _).bind fun w text _ _ => ?_
    cases Json.Document.ofText? text with
    | some d => exact (Judgment.keeping (Realm.newborn _)).decode d w
    | none => exact Realm.runs_halt rfl
  obtain ⟨w, -, -, -, hvalue⟩ := hruns
  rcases hvalue v (congrArg Prod.fst h) _ hlist with hplain | ⟨_, _, heq, hid⟩
  · exact hplain.elim
  · cases heq
    exact hid

/-! ### Calls that make lists -/

/-- The primitives that make a list of what they are given. -/
def Primitive.makesList : Primitive → Bool
  | .operation .list | .control .map | .control .filter => true
  | _ => false

/-- What runs a host function when it is called: a function or a static method that was imported, a
type that was imported, or the name of a function. -/
inductive Value.RunsHost (s : Store) (scope : FrameId) (f : HostFunction) : Value → Prop
  | foreign (id : Identity) (name : String) : RunsHost s scope f (.callable (.foreign id name f))
  | constructor (id : Identity) {type : HostType} (h : type.construct = .plain f) :
      RunsHost s scope f (.callable (.constructor id type))
  | named {name : String} (h : (s.registry scope).function? name = some f) :
      RunsHost s scope f (.str name)

/-- The store in which the body of a function starts: a frame is made within the one that the function
closed over, and the parameters and then the list of all arguments are bound there. -/
def Store.calling (s : Store) (captured : FrameId) (parameters : List String) (args : List Value) :
    Store :=
  (s.addFrame (some captured) ((s.runtimeId? captured).getD 0)).2.freshened.bindAll s.frames.size
    (parameters.zip args ++ [(argumentsName, .list s.nextIdentity args)])

namespace Evaluator

variable {scope : FrameId} {args : List Value} {s : Store}

theorem call_callable (ev : Evaluator) (scope : FrameId) (c : Callable Value) (args : List Value) :
    ev.call scope (.callable c) args = ev.invoke scope c args := by
  rw [Evaluator.call]
  rfl

theorem call_of_runsHost (ev : Evaluator) {f : HostFunction} {callee : Value}
    (h : callee.RunsHost s scope f) (args : List Value) :
    ev.call scope callee args s = f.run args s := by
  cases h with
  | foreign id name => rw [call_callable, invoke, invokeWith]
  | constructor id h => rw [call_callable, invoke, invokeWith, h, HostConstructor.run]
  | @named name h =>
    have hread : Eval.read (fun s => (s.registry scope).function? name) s = (.ok (some f), s) := by
      rw [← h]
      rfl
    rw [Evaluator.call]
    exact Eval.bind_of_ok hread _

theorem mints_call {p : Primitive} (hp : p.makesList = true) (fuel : Nat) (scope : FrameId)
    (copy : Option Identity) (args : List Value) (s : Store) :
    Eval.Mints s ((evaluateWithin fuel).call scope (.callable (.primitive p copy)) args) := by
  have hcall (t : Store) (callee : Value) (args : List Value) :
      (Judgment.keeping .everything).judge t ((evaluateWithin fuel).call scope callee args)
        ((evaluateWithin fuel).call scope callee args) Realm.everything.value :=
    Realm.runs_callWithin fuel trivial (fun _ _ => trivial) fun _ _ _ _ => trivial
  rw [call_callable]
  cases p with
  | operation o =>
    cases o with
    | list => exact .newList s args
    | _ => cases hp
  | control k =>
    cases k with
    | map => exact Control.mints_map hcall
    | filter => exact Control.mints_filter hcall
    | _ => cases hp
  | special => cases hp

theorem mints_imports (ev : Evaluator) (scope : FrameId) (copy : Option Identity) (id : Identity)
    (operands : List Value) (s : Store) :
    Eval.Mints s (ev.apply scope (.primitive (.special .imports) copy) id operands) :=
  .bind ((Judgment.keeping .everything).performImports trivial) fun t vs _ => .newList t vs

/-- A call with enough arguments starts the body of the function in the frame that is made for it. -/
theorem callFunction_eq (ev : Evaluator) (captured : FrameId) {parameters : List String}
    (forms : List Value) (h : parameters.length ≤ args.length) (s : Store) :
    ev.callFunction captured parameters forms args s =
      ev.body s.frames.size forms (s.calling captured parameters args) := by
  rw [callFunction, if_neg (Nat.not_lt.2 h)]
  rfl

/-- The scope of a function call, where all arguments are bound as a list. -/
theorem exists_callFunction {parameters : List String} (h : parameters.length ≤ args.length)
    (g : FrameId) (s : Store) :
    ∃ t, t.lookup? s.frames.size argumentsName = some (.list s.nextIdentity args) ∧
      ∀ (ev : Evaluator) (forms : List Value),
        ev.callFunction g parameters forms args s = ev.body s.frames.size forms t := by
  refine ⟨s.calling g parameters args, ?_, fun ev forms => ev.callFunction_eq g forms h s⟩
  let made := (s.addFrame (some g) ((s.runtimeId? g).getD 0)).2.freshened
  have hmade : s.frames.size < made.frames.size := by simp [made, Store.addFrame, Store.freshened]
  -- The list is bound last, so no parameter takes its place.
  rw [Store.calling, Store.bindAll, List.foldl_append]
  exact Store.lookup?_bind (Nat.lt_of_lt_of_le hmade (made.grows_bindAll _ _).frameCount) _ _

end Evaluator

/-! ### Identities at one moment -/

theorem Operation.run_eq_pair (v w : Value) (s : Store) :
    Operation.eq.run [v, w] s = (.ok (.bool (v.strictEq w)), s) := by
  show (Except.ok (Value.bool (v.strictEq w && true)), s) = _
  rw [Bool.and_true]

namespace Store

variable {s : Store} {hand : List Value}

/-- No list that is in hand or in the store has this identity. -/
def Unused (s : Store) (hand : List Value) (id : Identity) : Prop :=
  ∀ items, ¬ s.Has hand (.list id items)

/-- A computation that gives a value gives a list that is not around yet. -/
def GivesNewList (s : Store) (hand : List Value) (x : Eval Value) : Prop :=
  ∀ v t, x s = (.ok v, t) → ∃ id items, v = .list id items ∧ s.Unused hand id

/-- What the identities of lists are good for at one moment, given what is in hand. -/
structure KeepsIdentities (s : Store) (hand : List Value) : Prop where
  /-- Lists of one identity have the same items. -/
  items_eq : ∀ id items items', s.Has hand (.list id items) → s.Has hand (.list id items') →
    items = items'
  /-- Lists that are strictly equal are the same. -/
  eq_of_eq : ∀ id items id' items' t, s.Has hand (.list id items) → s.Has hand (.list id' items') →
    Operation.eq.run [.list id items, .list id' items'] s = (.ok (.bool true), t) →
      Value.list id items = .list id' items'
  /-- `list`, `map` and `filter` make a new list. -/
  primitive : ∀ (p : Primitive) fuel scope copy args, p.makesList = true →
    s.GivesNewList hand ((evaluateWithin fuel).call scope (.callable (.primitive p copy)) args)
  /-- So do the host's functions and types for lists, however they are called. -/
  host : ∀ (f : HostFunction) (ev : Evaluator) scope callee args, f.makesList = true →
    callee.RunsHost s scope f → s.GivesNewList hand (ev.call scope callee args)
  /-- Every list in the value of a JSON text is new. -/
  decoded : ∀ (ev : Evaluator) scope callee args v t, callee.RunsHost s scope .jsonDecode →
    ev.call scope callee args s = (.ok v, t) →
      ∀ id items, (Value.list id items).Occurs v → s.Unused hand id
  /-- What follows the first item of a list is a new list. -/
  rest : ∀ (ev : Evaluator) scope copy id first rest, ∃ id' t,
    ev.call scope (.callable (.primitive (.operation .cdr) copy)) [.list id (first :: rest)] s =
      (.ok (.list id' rest), t) ∧ s.Unused hand id'
  /-- An import gives a new list of what it has imported. -/
  imported : ∀ (ev : Evaluator) scope copy id operands,
    s.GivesNewList hand (ev.apply scope (.primitive (.special .imports) copy) id operands)
  /-- The body of a function finds its arguments as a new list. -/
  arguments : ∀ scope fn g (parameters : List String) forms (args : List Value),
    parameters.length ≤ args.length →
      ∃ t id, t.lookup? s.frames.size argumentsName = some (.list id args) ∧ s.Unused hand id ∧
        ∀ ev : Evaluator, ev.call scope (.callable (.function fn g parameters forms)) args s =
          ev.body s.frames.size forms t
  /-- A quotation gives the very value that is quoted. -/
  quoted : ∀ (ev : Evaluator) scope copy id v,
    ev.apply scope (.primitive (.special .quote) copy) id [v] s = (.ok v, s)
  /-- A name gives the very value that is found for it, -/
  found : ∀ fuel scope name v, s.lookup? scope name = some v →
    evaluateWithin (fuel + 1) (.sym name) scope s = (.ok v, s)
  /-- which is the one that it was given last. -/
  bound : ∀ f name v, f < s.frames.size → (s.define f name v).lookup? f name = some v ∧
    (s.bind f name v).lookup? f name = some v

end Store

namespace Underway

open Reachable

variable {s t : Store} {hand : List Value} {scope : FrameId}

theorem unused_of_le (h : Underway s hand) {id : Identity} (hid : s.nextIdentity ≤ id) :
    s.Unused hand id := by
  obtain ⟨w, rfl, hhand⟩ := h.isRecorded
  intro items hhas
  have hrecorded := (part_of_has hhand hhas).1 id items rfl
  exact Nat.not_lt.2 hid (w.recorded id items hrecorded)

theorem givesNewList (h : Underway s hand) {x : Eval Value} (hx : Eval.Mints s x) :
    s.GivesNewList hand x := by
  intro v t hrun
  obtain ⟨id, items, hv, hid⟩ := hx.post (congrArg Prod.fst hrun)
  exact ⟨id, items, hv, h.unused_of_le hid⟩

theorem items_eq (h : Underway s hand) {id : Identity} {items items' : List Value}
    (hlist : s.Has hand (.list id items)) (hlist' : s.Has hand (.list id items')) :
    items = items' := by
  obtain ⟨w, rfl, hhand⟩ := h.isRecorded
  have hitems := (part_of_has hhand hlist).1 id items rfl
  have hitems' := (part_of_has hhand hlist').1 id items' rfl
  exact Option.some.inj (hitems.symm.trans hitems')

theorem keepsIdentities (h : Underway s hand) : s.KeepsIdentities hand where
  items_eq id items items' := h.items_eq
  eq_of_eq id items id' items' t hlist hlist' heq := by
    rw [Operation.run_eq_pair] at heq
    obtain ⟨rfl, -⟩ : id = id' ∧ s = t := by simpa [Value.strictEq] using heq
    rw [h.items_eq hlist hlist']
  primitive p fuel scope copy args hp :=
    h.givesNewList (Evaluator.mints_call hp fuel scope copy args s)
  host f ev scope callee args hf hcallee v t hrun := by
    rw [ev.call_of_runsHost hcallee] at hrun
    exact h.givesNewList (HostFunction.mints_run hf args s) v t hrun
  decoded ev scope callee args v t hcallee hrun id items hlist := by
    rw [ev.call_of_runsHost hcallee] at hrun
    exact h.unused_of_le (Host.le_of_occurs_jsonDecode hrun hlist)
  rest ev scope copy id first rest := by
    refine ⟨s.nextIdentity, s.freshened, ?_, h.unused_of_le (Nat.le_refl _)⟩
    rw [ev.call_callable]
    rfl
  imported ev scope copy id operands := h.givesNewList (ev.mints_imports scope copy id operands s)
  arguments scope fn g parameters forms args hlength := by
    obtain ⟨t, hfound, hcall⟩ := Evaluator.exists_callFunction hlength g s
    refine ⟨t, s.nextIdentity, hfound, h.unused_of_le (Nat.le_refl _), fun ev => ?_⟩
    rw [ev.call_callable]
    exact hcall ev forms
  quoted ev scope copy id v := rfl
  found fuel scope name v hv := Store.evaluate_name hv fuel
  bound f name v hf := ⟨Store.lookup?_define hf name v, Store.lookup?_bind hf name v⟩

/-- At a later moment some values have come to hand, and identities are kept. -/
def KeptOn (hand vs : List Value) (t : Store) : Prop :=
  ∃ hand', Underway t hand' ∧ hand ⊆ hand' ∧ vs ⊆ hand' ∧ t.KeepsIdentities hand'

/-- Lists keep their identities. In the course of evaluation lists of one identity have the same
items, what makes a list gives it an identity that no list has that is in hand or in the store, and
quoting and looking up give the list itself. This is so whenever the evaluation of a form begins and
when it is over, and when the operands of a call have been evaluated and are in hand. -/
theorem lists_keep_identities (h : Underway s hand) :
    s.KeepsIdentities hand ∧
      (∀ fuel form scope, form ∈ hand → .scope scope ∈ hand →
        HoldsThroughout (fun form scope => KeptOn hand [form, .scope scope]) fuel form scope s ∧
        ∀ result t, evaluateWithin fuel form scope s = (result, t) →
          KeptOn hand (Eval.handed ([·]) result) t) ∧
      ∀ fuel scope (c : Callable Value) id operands args t, c.takesForms = false →
        operands ⊆ hand → .scope scope ∈ hand →
        (evaluateWithin fuel).values scope operands s = (.ok args, t) →
          (evaluateWithin fuel).apply scope c id operands s =
            (evaluateWithin fuel).call scope (.callable c) args t ∧ KeptOn hand args t := by
  refine ⟨h.keepsIdentities, fun fuel form scope hform hscope => ⟨?_, fun result t hrun => ?_⟩,
    fun fuel scope c id operands args t hc hoperands hscope hvalues => ⟨?_, ?_⟩⟩
  · refine (h.throughout hform hscope fuel).mono ?_
    rintro form scope t ⟨hand', ht, hhand, hform, hscope⟩
    exact ⟨hand', ht, hhand, by simp [hform, hscope], ht.keepsIdentities⟩
  · obtain ⟨hand', ht, hhand, hvalue⟩ := h.evaluated hform hscope hrun
    refine ⟨hand', ht, hhand, ?_, ht.keepsIdentities⟩
    cases result with
    | error halt => exact List.nil_subset _
    | ok v => exact List.cons_subset.2 ⟨hvalue v rfl, List.nil_subset _⟩
  · rw [Evaluator.call_callable]
    exact Evaluator.apply_eq_invoke_of_values _ hc id hvalues
  · obtain ⟨hand', ht, hhand, hargs⟩ := h.values hoperands hscope hvalues
    exact ⟨hand', ht, hhand, hargs, ht.keepsIdentities⟩

/-- A list is made anew, and so is what follows its first item; a name gives the list that it was
given. -/
theorem lists_keep_identities_form :
    let fresh := Store.empty.withEngine .standard {}
    let form := Value.list fresh.nextIdentity [.sym "list", .int 1]
    let hand := [form, .sym "list", .int 1, .scope 0]
    Underway fresh.freshened hand ∧
      (∃ id t, (evaluateWithin 0).call 0 (.callable (.primitive (.operation .cdr) none)) [form]
        fresh.freshened = (.ok (.list id [.int 1]), t) ∧ id ≠ fresh.nextIdentity) ∧
      (∀ result t, evaluateWithin 3 form 0 fresh.freshened = (result, t) →
        KeptOn hand (Eval.handed ([·]) result) t) ∧
      (Engine.first.evalSource
        "(define l (list 1 2)) (list (eq l l) (eq l (list 1 2)) (eq (cdr l) (cdr l)))"
          fresh).1.toOption.map Value.display = some "(true false false)" := by
  intro fresh form hand
  have hengine : Reachable fresh [.scope 0] := .create .start (Engine.create_eq .standard {} .empty)
  have hplain := (hengine.plain (v := .int 1) trivial trivial nofun).plain (v := .sym "list")
    trivial trivial nofun
  have hunderway : Underway fresh.freshened hand := .reachable (.list _ hplain (by simp))
  obtain ⟨hkeeps, hevaluated, -⟩ := lists_keep_identities hunderway
  obtain ⟨id, t, hrest, hunused⟩ := hkeeps.rest (evaluateWithin 0) 0 none fresh.nextIdentity
    (.sym "list") [.int 1]
  obtain ⟨-, hover⟩ := hevaluated 3 form 0 (by simp [hand]) (by simp [hand])
  refine ⟨hunderway, ⟨id, t, hrest, ?_⟩, hover, ?_⟩
  · rintro rfl
    exact hunused _ (.of_mem List.mem_cons_self)
  · decide +kernel

end Underway

end ConfinedLisp
