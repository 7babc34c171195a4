import ConfinedLisp.Proofs.Keeping
import ConfinedLisp.Proofs.Session

/-!
# Calls agree with applications

A callable can be applied to unevaluated operands, or called with values. To call it with values is
the same as to apply it to these values, quoted: evaluating the quoted values gives them back and
does nothing but take a step for each symbol and each list among them.

## Main definitions

- `Value.quotations`: how many of some values have to be quoted.
- `Value.Quoted`: forms that stand for values.
- `Store.stepped`: a store in which one runtime has taken further steps.

## Main results

- `Evaluator.values_quoted`: quoted values evaluate to themselves.
- `apply_quoted_eq_invoke`: applying to quoted values agrees with calling.
-/

namespace ConfinedLisp

namespace Value

/-- Symbols and lists do not evaluate to themselves, so they have to be quoted. -/
def isQuotable : Value → Bool
  | .sym _ | .list .. => true
  | _ => false

/-- How many of some values have to be quoted. -/
def quotations (vs : List Value) : Nat := vs.countP isQuotable

/-- The quotation of a value, by a copy of the primitive. -/
def quotation (id copy : Identity) (v : Value) : Value :=
  .list id [.callable (.primitive (.special .quote) (some copy)), v]

/-- Forms that stand for values: the quotable ones are quoted, and the other ones stand for
themselves. -/
inductive Quoted : List Value → List Value → Prop
  | nil : Quoted [] []
  | quotation {v : Value} {vs forms : List Value} (id copy : Identity)
      (hquotable : v.isQuotable = true) (rest : Quoted vs forms) :
      Quoted (v :: vs) (v.quotation id copy :: forms)
  | self {v : Value} {vs forms : List Value} (hquotable : v.isQuotable = false)
      (rest : Quoted vs forms) : Quoted (v :: vs) (v :: forms)

@[simp] theorem quotations_cons_of_quotable {v : Value} (h : v.isQuotable = true)
    (vs : List Value) : quotations (v :: vs) = 1 + quotations vs := by
  simp [quotations, h, Nat.add_comm]

@[simp] theorem quotations_cons_of_not_quotable {v : Value} (h : v.isQuotable = false)
    (vs : List Value) : quotations (v :: vs) = quotations vs := by
  simp [quotations, h]

end Value

namespace Store

/-- A store in which one runtime has taken further steps, each of them with a fresh identity. -/
def stepped (s : Store) (i : RuntimeId) (n : Nat) : Store :=
  { s with
    runtimes := s.runtimes.modify i fun r => { r with steps := r.steps + n }
    nextIdentity := s.nextIdentity + n }

variable {s : Store} {i : RuntimeId} {r : Runtime}

theorem stepped_zero (s : Store) (i : RuntimeId) : s.stepped i 0 = s := by
  have hsame : s.runtimes.modify i (fun r => { r with steps := r.steps + 0 }) = s.runtimes := by
    refine Array.ext_getElem? fun j => ?_
    rw [Array.getElem?_modify]
    split
    · cases s.runtimes[j]? <;> rfl
    · rfl
  unfold stepped
  rw [hsame]
  rfl

theorem stepped_stepped (s : Store) (i : RuntimeId) (m n : Nat) :
    (s.stepped i m).stepped i n = s.stepped i (m + n) := by
  have hboth : (s.stepped i m).runtimes.modify i (fun r => { r with steps := r.steps + n }) =
      s.runtimes.modify i fun r => { r with steps := r.steps + (m + n) } := by
    refine Array.ext_getElem? fun j => ?_
    simp only [stepped, Array.getElem?_modify]
    by_cases hij : i = j
    · cases s.runtimes[j]? <;> simp [hij, Nat.add_assoc]
    · simp [hij]
  unfold stepped at hboth ⊢
  simp only [hboth, Nat.add_assoc]

theorem getElem?_stepped (hr : s.runtimes[i]? = some r) (n : Nat) :
    (s.stepped i n).runtimes[i]? = some { r with steps := r.steps + n } := by
  simp [stepped, Array.getElem?_modify, hr]

theorem standings_stepped (s : Store) (i : RuntimeId) (n : Nat) :
    (s.stepped i n).standings = s.standings := by
  refine Array.ext_getElem? fun j => ?_
  simp only [getElem?_standings, stepped, Array.getElem?_modify]
  split
  · cases s.runtimes[j]? <;> rfl
  · rfl

/-- Entering and leaving at once takes a step and nothing else. -/
theorem leave_enter {f : FrameId} (hi : s.runtimeId? f = some i) (hr : s.runtimes[i]? = some r)
    (hstep : r.HasStep) (hdepth : r.depth < r.limits.maxDepth) :
    (s.enter f).1 = .ok () ∧ (s.enter f).2.freshened.leave f = s.stepped i 1 := by
  have henter := enter_of_runtime hi hr
  rw [Runtime.enter_of_place hstep hdepth] at henter
  obtain ⟨hsize, hget⟩ := Array.getElem?_eq_some_iff.1 hr
  refine ⟨by rw [henter], ?_⟩
  have hid : (s.enter f).2.freshened.runtimeId? f = some i := by
    rw [henter]
    exact hi
  have hruntimes : (s.enter f).2.freshened.runtimes.modify i Runtime.leave =
      s.runtimes.modify i fun r => { r with steps := r.steps + 1 } := by
    refine Array.ext_getElem? fun j => ?_
    rw [henter]
    simp only [freshened, Array.getElem?_modify, Array.getElem?_setIfInBounds]
    by_cases hij : i = j
    · subst hij
      simp [hsize, hget, Runtime.leave]
    · simp [hij]
  unfold leave
  rw [hid]
  simp only [hruntimes]
  rw [henter]
  rfl

/-- Where a place is left, the evaluator of a store has fuel for an application. -/
theorem exists_evaluator {t : Store} (hr : s.runtimes[i]? = some r)
    (hdepth : r.depth < r.limits.maxDepth) (ht : t.standings = s.standings) :
    ∃ n, t.evaluator = evaluateWithin (n + 2) := by
  have hroom := headroom_of_place hr hdepth
    (standings_setIfInBounds s i { r with depth := r.depth + 1 })
  rw [← headroom_congr ht] at hroom
  exact ⟨_, by rw [evaluator, ← hroom]⟩

end Store

namespace Eval

theorem quoteAll_cons_of_quotable {v : Value} (h : v.isQuotable = true) (rest : List Value)
    (s : Store) :
    quoteAll (v :: rest) s = (quoteAll rest).bind
      (fun forms => Eval.pure (v.quotation (s.nextIdentity + 1) s.nextIdentity :: forms))
      (s.skipped 2) := by
  cases v with
  | sym | list => rfl
  | _ => cases h

theorem quoteAll_cons_of_not_quotable {v : Value} (h : v.isQuotable = false) (rest : List Value)
    (s : Store) :
    quoteAll (v :: rest) s = (quoteAll rest).bind (fun forms => Eval.pure (v :: forms)) s := by
  cases v with
  | sym | list => cases h
  | _ => rfl

/-- Quoting takes two identities for each quotation and leaves the store as it is otherwise. -/
theorem quoteAll_eq (args : List Value) (s : Store) :
    ∃ forms, quoteAll args s = (.ok forms, s.skipped (2 * Value.quotations args)) ∧
      Value.Quoted args forms := by
  induction args generalizing s with
  | nil => exact ⟨[], rfl, .nil⟩
  | cons v rest ih =>
    cases hv : v.isQuotable with
    | true =>
      obtain ⟨forms, hforms, hquoted⟩ := ih (s.skipped 2)
      refine ⟨_, ?_, .quotation (s.nextIdentity + 1) s.nextIdentity hv hquoted⟩
      rw [quoteAll_cons_of_quotable hv, bind_of_ok hforms, Store.skipped_skipped,
        Value.quotations_cons_of_quotable hv, Nat.mul_add]
      rfl
    | false =>
      obtain ⟨forms, hforms, hquoted⟩ := ih s
      refine ⟨v :: forms, ?_, .self hv hquoted⟩
      rw [quoteAll_cons_of_not_quotable hv, bind_of_ok hforms,
        Value.quotations_cons_of_not_quotable hv]
      rfl

end Eval

theorem evaluateWithin_list (n : Nat) (id : Identity) (head : Value) (rest : List Value)
    (scope : FrameId) :
    evaluateWithin (n + 1) (.list id (head :: rest)) scope =
      Eval.within scope ((evaluateWithin n).applyForm scope head rest) :=
  rfl

/-- An application whose head gives a callable. -/
theorem evaluateWithin_application {scope : FrameId} {u v : Store} {head : Value}
    {c : Callable Value} {n : Nat} (henter : u.enter scope = (.ok (), v))
    (hhead : evaluateWithin n head scope v = (.ok (.callable c), v)) (id : Identity)
    (operands : List Value) :
    evaluateWithin (n + 1) (.list id (head :: operands)) scope u =
      (((evaluateWithin n).apply scope c v.nextIdentity operands v.freshened).1,
        ((evaluateWithin n).apply scope c v.nextIdentity operands v.freshened).2.leave scope) := by
  have happly : (evaluateWithin n).applyForm scope head operands v =
      (evaluateWithin n).apply scope c v.nextIdentity operands v.freshened :=
    Eval.bind_of_ok hhead _
  rw [evaluateWithin_list, Eval.within_of_ok _ (congrArg Prod.fst henter), henter, happly]

namespace Evaluator

variable {ev : Evaluator} {scope : FrameId} {s t : Store} {form v : Value} {rest : List Value}

theorem values_singleton {result : Except Halt Value} (h : ev form scope s = (result, t)) :
    ev.values scope [form] s = (result.map fun v => [v], t) := by
  cases result with
  | error halt => exact Eval.bind_of_error h _
  | ok v => exact Eval.bind_of_ok h _

theorem values_cons {result : Except Halt (List Value)} (hform : ev form scope s = (.ok v, s))
    (hrest : ev.values scope rest s = (result, t)) :
    ev.values scope (form :: rest) s = (result.map (v :: ·), t) := by
  refine (Eval.bind_of_ok hform _).trans ?_
  cases result with
  | error halt => exact Eval.bind_of_error hrest _
  | ok vs => exact Eval.bind_of_ok hrest _

end Evaluator

/-- A name evaluates to the value that is found for it. -/
theorem Store.evaluate_name {u : Store} {f : FrameId} {name : String} {x : Value}
    (h : u.lookup? f name = some x) (n : Nat) :
    evaluateWithin (n + 1) (.sym name) f u = (.ok x, u) := by
  show (Except.ok (u.get f name), u) = _
  rw [Store.get, h]
  rfl

theorem evaluateWithin_of_not_quotable {v : Value} (h : v.isQuotable = false) (n : Nat)
    (scope : FrameId) (s : Store) : evaluateWithin (n + 1) v scope s = (.ok v, s) := by
  cases v with
  | sym | list => cases h
  | _ => rfl

/-- A quotation evaluates to what it quotes, whatever the scope binds. -/
theorem evaluateWithin_quotation {s : Store} {scope : FrameId} {i : RuntimeId} {r : Runtime}
    (hi : s.runtimeId? scope = some i) (hr : s.runtimes[i]? = some r) (hstep : r.HasStep)
    (hdepth : r.depth < r.limits.maxDepth) (n : Nat) (id copy : Identity) (v : Value) :
    evaluateWithin (n + 2) (v.quotation id copy) scope s = (.ok v, s.stepped i 1) := by
  obtain ⟨hok, hleave⟩ := Store.leave_enter hi hr hstep hdepth
  have hbody : (evaluateWithin (n + 1)).applyForm scope
      (.callable (.primitive (.special .quote) (some copy))) [v] (s.enter scope).2 =
        (.ok v, (s.enter scope).2.freshened) := rfl
  rw [Value.quotation, evaluateWithin_list, Eval.within_of_ok _ hok, hbody]
  exact congrArg (Prod.mk _) hleave

namespace Evaluator

/-- Quoted values evaluate to themselves. All that happens is that every symbol and every list among
them takes a step. -/
theorem values_quoted {ev : Evaluator} {s : Store} {scope : FrameId} {i : RuntimeId} {r : Runtime}
    {args forms : List Value} (hquoted : Value.Quoted args forms)
    (hi : s.runtimeId? scope = some i) (hr : s.runtimes[i]? = some r)
    (hsteps : ∀ limit, r.limits.stepLimit = some limit →
      r.steps + Value.quotations args ≤ limit)
    (hdepth : r.depth < r.limits.maxDepth)
    (hev : ∀ form t, t.standings = s.standings →
      ∃ n, ev form scope t = evaluateWithin (n + 2) form scope t) :
    ev.values scope forms s = (.ok args, s.stepped i (Value.quotations args)) := by
  -- The steps that are left get fewer by one for each quotation, and the places stay as they are.
  induction hquoted generalizing s r with
  | nil => exact congrArg (Prod.mk _) (s.stepped_zero i).symm
  | @quotation v vs forms id copy hquotable _ ih =>
    obtain ⟨n, hn⟩ := hev (v.quotation id copy) s rfl
    rw [Value.quotations_cons_of_quotable hquotable] at hsteps ⊢
    have hstep : r.HasStep := fun limit hlimit => by have := hsteps limit hlimit; omega
    have hfirst : ev (v.quotation id copy) scope s = (.ok v, s.stepped i 1) :=
      hn.trans (evaluateWithin_quotation hi hr hstep hdepth n id copy v)
    have hrest := ih (s := s.stepped i 1) (r := { r with steps := r.steps + 1 }) hi
      (Store.getElem?_stepped hr 1) (fun limit hlimit => Nat.add_assoc .. ▸ hsteps limit hlimit)
      hdepth fun form t ht => hev form t (ht.trans (s.standings_stepped i 1))
    rw [Store.stepped_stepped] at hrest
    exact (Eval.bind_of_ok hfirst _).trans (Eval.bind_of_ok hrest _)
  | @self v vs forms hquotable _ ih =>
    obtain ⟨n, hn⟩ := hev v s rfl
    rw [Value.quotations_cons_of_not_quotable hquotable] at hsteps ⊢
    have hfirst : ev v scope s = (.ok v, s) :=
      hn.trans (evaluateWithin_of_not_quotable hquotable (n + 1) scope s)
    exact (Eval.bind_of_ok hfirst _).trans (Eval.bind_of_ok (ih hi hr hsteps hdepth hev) _)

/-- Calling a special form is applying it to the quoted arguments. -/
theorem apply_special_quoted (ev : Evaluator) (scope : FrameId) (f : SpecialForm)
    (copy : Option Identity) (id : Identity) {args forms : List Value} {s t : Store}
    (hquote : Eval.quoteAll args s = (.ok forms, t)) :
    ev.apply scope (.primitive (.special f) copy) id forms t =
      ev.invoke scope (.primitive (.special f) copy) args s :=
  (Eval.bind_of_ok hquote _).symm

/-- Calling an operative is applying it to a new list of the quoted arguments. -/
theorem apply_operative_quoted (ev : Evaluator) (scope frame : FrameId) (id : Identity)
    (body : List Value) {args forms : List Value} {s t : Store}
    (hquote : Eval.quoteAll args s = (.ok forms, t)) :
    ev.apply scope (.operative id frame body) t.nextIdentity forms t.freshened =
      ev.invoke scope (.operative id frame body) args s := by
  change _ = ((Eval.quoteAll args).bind fun forms =>
    (Eval.newList forms).bind fun operands => ev.applyOperative scope frame body operands) s
  rw [Eval.bind_of_ok hquote]
  rfl

end Evaluator

/-- Special forms and operatives are given their operands as they stand; all other callables are
given the values of their operands. -/
def Callable.takesForms : Callable Value → Bool
  | .primitive (.special _) _ | .operative .. => true
  | _ => false

/-- A callable that is given values does with forms what it does with their values. -/
theorem Evaluator.apply_eq_invoke_of_values (ev : Evaluator) {scope : FrameId} {c : Callable Value}
    (hc : c.takesForms = false) (id : Identity) {args forms : List Value} {s t : Store}
    (hvalues : ev.values scope forms s = (.ok args, t)) :
    ev.apply scope c id forms s = ev.invoke scope c args t := by
  cases c with
  | primitive p copy =>
    cases p with
    | operation | control => exact Eval.bind_of_ok hvalues _
    | special => cases hc
  | operative => cases hc
  | function | foreign | constructor => exact Eval.bind_of_ok hvalues _

/-- Applies a callable to the operands of a list that has an identity already. -/
def applyTo (scope : FrameId) (c : Callable Value) (id : Identity) (operands : List Value) :
    Eval Value := fun s =>
  s.evaluator.apply scope c id operands s

/-- Calling with values agrees with applying to these values, quoted, if there are steps enough and
a place is left. Quoting gives forms whose values are the arguments themselves; to evaluate them
takes a step for each symbol and each list and touches no frame and no vector, whatever names are
bound. So a callable that is given values does the same from the store after these steps, and a
special form or an operative, which is given the quoted arguments either way, does the same from the
very same store. -/
theorem apply_quoted_eq_invoke {s : Store} {scope : FrameId} {i : RuntimeId} {r : Runtime}
    (hi : s.runtimeId? scope = some i) (hr : s.runtimes[i]? = some r) (args : List Value)
    (hsteps : ∀ limit, r.limits.stepLimit = some limit →
      r.steps + Value.quotations args ≤ limit)
    (hdepth : r.depth < r.limits.maxDepth) :
    ∃ forms quoted after,
      Eval.quoteAll args s = (.ok forms, quoted) ∧
      quoted = s.skipped (2 * Value.quotations args) ∧
      Evaluator.values evaluate scope forms quoted = (.ok args, after) ∧
      after = quoted.stepped i (Value.quotations args) ∧
      after.frames = s.frames ∧ after.vectors = s.vectors ∧
      (∀ c, c.takesForms = false → ∀ id,
        applyTo scope c id forms quoted = invoke scope c args after) ∧
      (∀ f copy id, applyTo scope (.primitive (.special f) copy) id forms quoted =
        invoke scope (.primitive (.special f) copy) args s) ∧
      ∀ id frame body, applyCallable scope (.operative id frame body) forms quoted =
        invoke scope (.operative id frame body) args s := by
  obtain ⟨forms, hquote, hquoted⟩ := Eval.quoteAll_eq args s
  let quoted := s.skipped (2 * Value.quotations args)
  let after := quoted.stepped i (Value.quotations args)
  have hstandings : after.standings = s.standings := quoted.standings_stepped i _
  refine ⟨forms, quoted, after, hquote, rfl, ?_, rfl, rfl, rfl, fun c hc id => ?_,
    fun f copy id => ?_, fun id frame body => ?_⟩
  · refine Evaluator.values_quoted hquoted hi hr hsteps hdepth fun form t ht => ?_
    obtain ⟨n, hn⟩ := Store.exists_evaluator hr hdepth ht
    exact ⟨n, by rw [evaluate, hn]⟩
  · -- The steps leave all places as they are, so the evaluator is the same before and after them.
    have hsame : after.evaluator = s.evaluator := by
      rw [Store.evaluator, Store.evaluator, Store.headroom_congr hstandings]
    have hvalues : s.evaluator.values scope forms quoted = (.ok args, after) := by
      refine Evaluator.values_quoted hquoted hi hr hsteps hdepth fun form t ht => ?_
      obtain ⟨n, hn⟩ := Store.exists_evaluator hr hdepth (t := s) rfl
      exact ⟨n, by rw [hn]⟩
    rw [invoke, hsame]
    exact s.evaluator.apply_eq_invoke_of_values hc id hvalues
  · exact Evaluator.apply_special_quoted _ scope f copy id hquote
  · exact Evaluator.apply_operative_quoted _ scope frame id body hquote

/-- A symbol, a list and a number are quoted where `quote` is bound to a number, with two steps and
one place left. -/
theorem apply_quoted_eq_invoke_rebound :
    let s := (Store.empty.withEngine .empty ⟨1, some 2⟩).bind 0 "quote" (.int 5)
    let args : List Value := [.sym "a", .list 7 [.int 1], .int 3]
    (s.get 0 "quote").display = "5" ∧ ∃ forms quoted after,
      Eval.quoteAll args s = (.ok forms, quoted) ∧
      Evaluator.values evaluate 0 forms quoted = (.ok args, after) ∧
      after.frames = s.frames ∧
      ∀ copy id, applyTo 0 (.primitive (.operation .list) copy) id forms quoted =
        invoke 0 (.primitive (.operation .list) copy) args after := by
  intro s args
  have hruntime : s.runtimes[0]? = some ⟨.empty, ⟨1, some 2⟩, 0, 0⟩ := rfl
  have hi : s.runtimeId? 0 = some 0 := by decide +kernel
  obtain ⟨forms, quoted, after, hquote, -, hvalues, -, hframes, -, hcall, -⟩ :=
    apply_quoted_eq_invoke hi hruntime args (fun limit hlimit => by cases hlimit; decide)
      (by decide)
  exact ⟨by decide +kernel, forms, quoted, after, hquote, hvalues, hframes,
    fun copy => hcall _ rfl⟩

end ConfinedLisp
