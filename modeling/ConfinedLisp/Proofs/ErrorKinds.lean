import ConfinedLisp.Proofs.BudgetExactness
import ConfinedLisp.Proofs.InertScopes

/-!
# The errors of evaluation

An error of evaluation is raised by a callable on its own account, or says that a budget is exhausted.
So it is never the error of a reader, and never a bare unknown name: an import wraps the name that it
did not find, and whoever calls a value by a name asks first whether there is such a function.

## Main definitions

- `EvalError.IsRaised`: the errors that evaluation can end with.
- `Import.underscored`: the name in the registry that a written name stands for.

## Main results

- `raises_evaluate`: evaluation ends with no other error.
- `Evaluator.runControl_unregistered`: what control operations say of a name that is not registered.
- `evaluate_errors_classified`: what a host can rely on.
-/

namespace ConfinedLisp

/-- An error that evaluation can end with: one that a callable raises by itself, or that of an exhausted
budget. -/
def EvalError.IsRaised (e : EvalError) : Prop :=
  e.IsOrdinary ∨ (∃ limit, e = .recursionLimit limit) ∨ ∃ limit, e = .budgetExceeded limit

namespace Eval

variable {α β : Type} {s : Store}

/-- If a computation ends with an error, it is one that evaluation can end with. -/
def Raises (x : Eval α) (s : Store) : Prop := ∀ e, (x s).1 = .error (.error e) → e.IsRaised

theorem Raises.bind {x : Eval α} {f : α → Eval β} (hx : x.Raises s)
    (hf : ∀ a, (x s).1 = .ok a → (f a).Raises (x s).2) : (x.bind f).Raises s := by
  intro e he
  cases hrun : x s with
  | mk result t =>
    cases result with
    | error halt =>
      rw [bind_of_error hrun] at he
      cases he
      exact hx e (by rw [hrun])
    | ok a =>
      rw [bind_of_ok hrun] at he
      rw [hrun] at hf
      exact hf a rfl e he

/-- An application raises what its body raises, or the error of an exhausted budget. -/
theorem Raises.within {x : Eval Value} {f : FrameId} (hx : x.Raises (s.enter f).2) :
    (Eval.within f x).Raises s := by
  intro e he
  cases henter : (s.enter f).1 with
  | error e' =>
    rw [within_of_error x henter] at he
    cases he
    exact Or.inr (Store.enter_eq_error henter)
  | ok u =>
    rw [within_of_ok x henter] at he
    exact hx e he

end Eval

/-- The judgment that a computation ends with no other error. -/
def Judgment.raising : Judgment Realm.everything where
  judge s x _ Q := Realm.everything.Runs s x Q ∧ x.Raises s
  pure hQ := ⟨(keeping _).pure hQ, fun _ h => by cases h⟩
  bind hx hf := ⟨hx.1.bind fun s a hs hQ => (hf s a hs hQ).1,
    hx.2.bind fun a ha => (hf _ a hx.1.store_grows (hx.1.post ha)).2⟩
  fail he := ⟨Realm.runs_halt rfl, fun _ h => by cases h; exact Or.inl he⟩
  make hop hw hstore hQ := ⟨Realm.runs_make hop hw hstore hQ, fun _ h => by cases h⟩
  mayHang := (keeping Realm.everything).mayHang
  hang _ := ⟨Realm.runs_halt rfl, fun _ h => by cases h⟩
  looseEq := (keeping Realm.everything).looseEq
  encode := (keeping Realm.everything).encode

theorem respects_raising (n : Nat) :
    Judgment.raising.Respects (evaluateWithin n) (evaluateWithin n) := by
  refine Judgment.respects_evaluateWithin (fun _ => .raising) 0
    (fun _ _ _ => ⟨Realm.runs_halt rfl, fun _ h => by cases h⟩) ?_ n
  intro _ s f x _ hf h
  exact ⟨Realm.runs_within hf fun t ht => (h t ht).1, (h _ (s.grows_enter f)).2.within⟩

/-- Evaluation ends with an error that a callable raises, or with that of an exhausted budget. -/
theorem raises_evaluate (form : Value) (scope : FrameId) (s : Store) :
    (evaluate form scope).Raises s :=
  (respects_raising (s.headroom + 1) s form scope (fun _ _ => trivial) trivial).2

/-! ### Imports -/

namespace Import

/-- A name with underscores in the place of dashes and slashes. -/
def underscored (s : String) : String := s.map fun c => if c = '-' ∨ c = '/' then '_' else c

theorem hostName_toList (s : String) : hostName s.toList = underscored s := by
  apply String.toList_inj.1
  rw [hostName, String.toList_ofList, underscored, String.toList_map]
  exact List.map_congr_left fun c _ => by simp only [Bool.or_eq_true, decide_eq_true_eq]

theorem betweenAngles?_brackets (inner : String) :
    betweenAngles? ("<" ++ inner ++ ">") = some inner.toList := by
  have hchars : ("<" ++ inner ++ ">").toList = '<' :: (inner.toList ++ ['>']) := by
    rw [String.toList_append, String.toList_append]
    rfl
  rw [betweenAngles?, hchars]
  simp

theorem eq_of_betweenAngles? {written : String} {cs : List Char}
    (h : betweenAngles? written = some cs) : written = "<" ++ String.ofList cs ++ ">" := by
  have hinner : (String.ofList cs).toList = cs := String.toList_ofList
  apply String.toList_inj.1
  rw [String.toList_append, String.toList_append, hinner]
  unfold betweenAngles? at h
  split at h
  · next rest hwritten =>
    obtain ⟨hlast, hcs⟩ := Option.ite_none_right_eq_some.1 h
    obtain ⟨ys, rfl⟩ := List.getLast?_eq_some_iff.1 hlast
    rw [List.dropLast_concat] at hcs
    cases hcs
    exact hwritten
  · cases h

theorem absent_of_brackets (inner : String) :
    absent ("<" ++ inner ++ ">") = .unknownIdentifier .type (underscored inner) := by
  rw [absent, betweenAngles?_brackets, ← hostName_toList]

theorem absent_of_no_brackets {written : String} (h : ∀ inner, written ≠ "<" ++ inner ++ ">") :
    absent written = .unknownIdentifier .function (underscored written) := by
  cases hwritten : betweenAngles? written with
  | some cs => exact absurd (eq_of_betweenAngles? hwritten) (h _)
  | none => rw [absent, hwritten, ← hostName_toList]

end Import

/-! ### Names of functions -/

/-- How many operands a control operation takes. -/
def Control.arity : Control → Arity
  | .apply => .exactly 2
  | .map => .atLeast 2
  | .filter => .exactly 2
  | .fold => .exactly 3
  | .isCallable => .exactly 1

theorem Control.expectCallable_unregistered {s : Store} {scope : FrameId} {name : String}
    (callee : String) (h : (s.registry scope).function? name = none) :
    Control.expectCallable callee scope (.str name) s =
      (.error (.error (.typeMismatch callee .callable .string)), s) := by
  have hread : (Eval.read fun s => s.isCallable scope (.str name)) s = (.ok false, s) := by
    rw [Eval.read, Store.isCallable, h]
    rfl
  unfold Control.expectCallable
  refine (Eval.bind_of_ok hread _).trans ?_
  rfl

/-- A control operation refuses to call a text that is not the name of a registered function, before it
calls anything. -/
theorem Evaluator.runControl_unregistered (ev : Evaluator) {k : Control} {s : Store}
    {scope : FrameId} {name : String} {rest : List Value}
    (hk : k ∈ [.apply, .map, .filter, .fold]) (hcount : k.arity.allows (rest.length + 1) = true)
    (h : (s.registry scope).function? name = none) :
    ev.runControl scope k (.str name :: rest) s =
      (.error (.error (.typeMismatch k.name .callable .string)), s) := by
  have hchecked : ∀ {x : Eval Value} {expected : Arity}, k.arity = expected →
      ((Eval.ofExcept (Operands.count k.name expected (.str name :: rest))).bind fun _ =>
        (Control.expectCallable k.name scope (.str name)).bind fun _ => x) s =
          (.error (.error (.typeMismatch k.name .callable .string)), s) := by
    intro x expected hexpected
    have hok : Eval.ofExcept (Operands.count k.name expected (.str name :: rest)) s =
        (.ok (), s) := by
      rw [← hexpected, Operands.count, List.length_cons, if_pos hcount]
      rfl
    rw [Eval.bind_of_ok hok, Eval.bind_of_error (Control.expectCallable_unregistered _ h)]
  simp only [List.mem_cons, List.not_mem_nil, or_false] at hk
  rcases hk with rfl | rfl | rfl | rfl <;> exact hchecked rfl

/-- The body of an application is evaluated with the evaluator of the store that was entered. -/
theorem Store.evaluator_of_enter {s t : Store} {f : FrameId} (h : s.enter f = (.ok (), t)) :
    t.evaluator = evaluateWithin s.headroom := by
  rcases s.enter_cases f with ⟨e, he, -⟩ | ⟨i, r, -, hr, hplace, -, hstandings⟩
  · rw [h] at he
    cases he
  · rw [h] at hstandings
    rw [Store.evaluator, headroom_of_place hr hplace hstandings]

theorem EvalError.IsRaised.ordinary {e : EvalError} (h : e.IsRaised)
    (hdepth : ∀ limit, e ≠ .recursionLimit limit) (hsteps : ∀ limit, e ≠ .budgetExceeded limit) :
    e.IsOrdinary := by
  rcases h with h | ⟨limit, h⟩ | ⟨limit, h⟩
  · exact h
  · exact absurd h (hdepth limit)
  · exact absurd h (hsteps limit)

/-- Evaluation tells what went wrong by errors of the right kind. It never ends with a reader's error,
and never with an unknown name as such. An import that is not resolved is reported with the name as
written and, as its cause, the name that was sought: that of a type if the written name stands between
angle brackets, without them, and of a function otherwise, with underscores in the place of dashes and
slashes. A text that does not name a registered function is no callable for `apply`, `map`, `filter` and
`fold`, whether they are applied to forms or called with values: they report a mismatch of types. -/
theorem evaluate_errors_classified (form : Value) (scope : FrameId) (s : Store) :
    (∀ e, (evaluate form scope s).1 = .error (.error e) →
      (∀ sourceName fault, e ≠ .unreadable sourceName fault) ∧
      (∀ sort name, e ≠ .unknownIdentifier sort name) ∧
      ∀ written cause, e = .unresolvedImport written cause →
        (∀ inner, written = "<" ++ inner ++ ">" →
          cause = .unknownIdentifier .type (Import.underscored inner)) ∧
        ((∀ inner, written ≠ "<" ++ inner ++ ">") →
          cause = .unknownIdentifier .function (Import.underscored written))) ∧
    ∀ k ∈ [Control.apply, .map, .filter, .fold], ∀ copy name rest,
      k.arity.allows (List.length rest + 1) = true →
        (∀ t : Store, (t.registry scope).function? name = none →
          invoke scope (.primitive (.control k) copy) (.str name :: rest) t =
            (.error (.error (.typeMismatch k.name .callable .string)), t)) ∧
        ∀ id head forms s₁ s₂ s₃, form = .list id (head :: forms) →
          s.enter scope = (.ok (), s₁) →
          evaluate head scope s₁ = (.ok (.callable (.primitive (.control k) copy)), s₂) →
          s₁.evaluator.values scope forms s₂.freshened = (.ok (.str name :: rest), s₃) →
          (s₃.registry scope).function? name = none →
            evaluate form scope s =
              (.error (.error (.typeMismatch k.name .callable .string)), s₃.leave scope) := by
  refine ⟨fun e he => ?_, fun k hk copy name rest hcount => ⟨fun t ht => ?_, ?_⟩⟩
  · have hraised := raises_evaluate form scope s e he
    refine ⟨?_, ?_, ?_⟩
    · rintro sourceName fault rfl
      exact hraised.ordinary (by simp) (by simp)
    · rintro sort name rfl
      exact hraised.ordinary (by simp) (by simp)
    · rintro written cause rfl
      have hcause : cause = Import.absent written := hraised.ordinary (by simp) (by simp)
      refine ⟨?_, fun hwritten => hcause.trans (Import.absent_of_no_brackets hwritten)⟩
      rintro inner rfl
      exact hcause.trans (Import.absent_of_brackets inner)
  · exact Evaluator.runControl_unregistered _ hk hcount ht
  · rintro id head forms s₁ s₂ s₃ rfl henter hhead hvalues hname
    have hbody : s₁.evaluator.applyForm scope head forms s₁ =
        (.error (.error (.typeMismatch k.name .callable .string)), s₃) := by
      have hfresh : Eval.freshIdentity s₂ = (.ok s₂.nextIdentity, s₂.freshened) := rfl
      rw [Evaluator.applyForm]
      refine (Eval.bind_of_ok hhead _).trans ?_
      refine (Eval.bind_of_ok hfresh _).trans ?_
      refine (Eval.bind_of_ok hvalues _).trans ?_
      exact Evaluator.runControl_unregistered _ hk hcount hname
    calc evaluate (.list id (head :: forms)) scope s
        = Eval.within scope ((evaluateWithin s.headroom).applyForm scope head forms) s := rfl
      _ = _ := by
        rw [← Store.evaluator_of_enter henter, Eval.within_of_ok _ (congrArg Prod.fst henter),
          henter, hbody]

/-- A type that is not registered, and a text that names no function. -/
theorem evaluate_errors_classified_absent :
    let s := ((Store.empty.addRuntime .empty ⟨8, none⟩).2.addFrame none 0).2
    let request : Value :=
      .list 1 [.callable (.primitive (.special .imports) none), .sym "<no-such/type>"]
    let application : Value :=
      .list 1 [.callable (.primitive (.control .apply) none), .str "nope", .nil]
    let cause : EvalError := .unknownIdentifier .type "no_such_type"
    (evaluate request 0 s).1 = .error (.error (.unresolvedImport "<no-such/type>" cause)) ∧
      cause = .unknownIdentifier .type (Import.underscored "no-such/type") ∧
      (evaluate application 0 s).1 = .error (.error (.typeMismatch "apply" .callable .string)) := by
  intro s request application cause
  have hrequest : (evaluate request 0 s).1 =
      .error (.error (.unresolvedImport "<no-such/type>" cause)) := rfl
  obtain ⟨-, -, hcause⟩ := (evaluate_errors_classified request 0 s).1 _ hrequest
  obtain ⟨-, happlication⟩ := (evaluate_errors_classified application 0 s).2 .apply (by decide) none
    "nope" [.nil] rfl
  refine ⟨hrequest, (hcause _ _ rfl).1 "no-such/type" rfl, ?_⟩
  exact congrArg Prod.fst (happlication 1 _ _ _ _ _ rfl rfl rfl rfl rfl)

end ConfinedLisp
