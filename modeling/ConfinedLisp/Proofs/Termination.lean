import ConfinedLisp.Proofs.Grant

/-!
# Evaluation ends

Every application takes a place on the way down, and there are only so many places, so the nesting
of applications is bounded. Apart from applications, evaluation goes down forms and values, of which
there is an end, unless vectors of the host hold themselves. So evaluation ends wherever nothing
makes such vectors.

## Main definitions

- `Ends`: an outcome is a value or an error.
- `Grant.objectless`: the grant of everything that makes no host object.
- `Store.Objectless`: the stores that come about if no engine offers anything else.

## Main results

- `Judgment.respects_ending`: evaluation with fuel for the places that are left ends.
- `evaluate_and_call_end`: evaluating a form and calling a value end in every such store.
-/

namespace ConfinedLisp

/-- An outcome is a value or an error. -/
def Ends {α : Type} (outcome : Except Halt α) : Prop :=
  (∃ a, outcome = .ok a) ∨ ∃ e, outcome = .error (.error e)

theorem ends_iff {α : Type} {outcome : Except Halt α} :
    Ends outcome ↔ outcome ≠ .error .endless := by
  constructor
  · rintro (⟨a, rfl⟩ | ⟨e, rfl⟩) h <;> cases h
  · intro h
    cases outcome with
    | ok a => exact Or.inl ⟨a, rfl⟩
    | error halt =>
      cases halt with
      | error e => exact Or.inr ⟨e, rfl⟩
      | endless => exact absurd rfl h

/-! ### Comparing and encoding without vectors -/

namespace Realm

variable {World : Type} {R : Realm World} {w : World}

theorem looseEq_ne_none (hobject : ∀ w i, ¬ R.part w (.object i)) {a : Value} (ha : R.value w a)
    (b : Value) : (R.store w).looseEq a b ≠ none := by
  intro h
  obtain ⟨i, -, hi, -⟩ := Value.looseEqWith_none h
  exact hobject w i (ha _ hi)

theorem encode_ne_endless (hobject : ∀ w i, ¬ R.part w (.object i)) {v : Value}
    (hv : R.value w v) : Json.encode (R.store w) v ≠ .error .endless := by
  intro h
  rcases Json.encodeWith_error h with ⟨failure, hfailure⟩ | ⟨i, hi, -⟩
  · cases hfailure
  · exact hobject w i (hv _ hi)

end Realm

/-! ### Fuel for the places that are left -/

namespace Judgment

variable {World : Type} {R : Realm World}

/-- The judgment that a computation ends, if there is room for the places that are left. -/
def ending (hobject : ∀ w i, ¬ R.part w (.object i)) (room : Nat → Prop) : Judgment R where
  judge w x _ Q :=
    R.Runs w x Q ∧ (room (R.store w).headroom → (x (R.store w)).1 ≠ .error .endless)
  pure hQ := ⟨(keeping R).pure hQ, fun _ h => by cases h⟩
  bind := by
    rintro α β w x - f - Q P ⟨hx, hends⟩ hf
    refine ⟨hx.bind fun w' a hw hQ => (hf w' a hw hQ).1, fun hroom h => ?_⟩
    obtain ⟨w', hw, hstore, hstandings, hQ⟩ := hx
    cases hr : x (R.store w) with
    | mk result t =>
      rw [hr] at hstore hQ hends
      cases result with
      | error halt =>
        rw [Eval.bind_of_error hr] at h
        cases h
        exact hends hroom rfl
      | ok a =>
        -- The first part has given back its places, so the second one has as many left.
        rw [Eval.bind_of_ok hr, ← show R.store w' = t from hstore] at h
        refine (hf w' a hw (hQ a rfl)).2 ?_ h
        rwa [Store.headroom_congr hstandings]
  fail _ := ⟨Realm.runs_halt rfl, fun _ h => by cases h⟩
  make hop hw hstore hQ := ⟨Realm.runs_make hop hw hstore hQ, fun _ h => by cases h⟩
  mayHang := False
  hang h := h.elim
  looseEq _ ha _ := Realm.looseEq_ne_none hobject ha _
  encode _ hv := Realm.encode_ne_endless hobject hv

variable (hobject : ∀ w i, ¬ R.part w (.object i))

/-- Evaluation with more fuel than places are left ends. -/
theorem respects_ending (n : Nat) :
    (ending hobject (· < n)).Respects (evaluateWithin n) (evaluateWithin n) := by
  refine respects_evaluateWithin (fun n => ending hobject (· < n)) 0 ?_ ?_ n
  · exact fun _ _ _ => ⟨Realm.runs_halt rfl, fun hroom => absurd hroom (Nat.not_lt_zero _)⟩
  · intro n w scope x y hscope h
    refine ⟨Realm.runs_within hscope fun w' hw => (h w' hw).1, fun hroom hendless => ?_⟩
    obtain ⟨w', hw, hstore⟩ := R.enter hscope
    rcases (R.store w).enter_cases scope with ⟨e, he, -⟩ | ⟨i, r, -, hr, hdepth, hok, hplace⟩
    · rw [Eval.within_of_error x he] at hendless
      cases hendless
    · -- The body of the application has one unit of fuel and one place less.
      rw [Eval.within_of_ok x hok, ← hstore] at hendless
      refine (h w' hw).2 ?_ hendless
      have := Store.headroom_of_place hr hdepth hplace
      rw [hstore]
      omega

end Judgment

namespace Realm

variable {World : Type} {R : Realm World} {w : World}

theorem ends_evaluate (hobject : ∀ w i, ¬ R.part w (.object i)) {form : Value} {scope : FrameId}
    (hform : R.value w form) (hscope : R.scope w scope) :
    Ends (evaluate form scope (R.store w)).1 :=
  ends_iff.2 ((Judgment.respects_ending hobject ((R.store w).headroom + 1) w form scope hform
    hscope).2 (Nat.lt_succ_self _))

theorem ends_call (hobject : ∀ w i, ¬ R.part w (.object i)) {scope : FrameId} {callee : Value}
    {args : List Value} (hscope : R.scope w scope) (hcallee : R.value w callee)
    (hargs : R.values w args) : Ends (call scope callee args (R.store w)).1 := by
  cases hcallable : (R.store w).isCallable scope callee with
  | true =>
    exact ends_iff.2 ((Judgment.call
      (Judgment.respects_ending hobject ((R.store w).headroom + 1)) hscope hcallable hcallee
      hargs).2 (Nat.lt_succ_self _))
  | false =>
    obtain ⟨e, he⟩ := Evaluator.call_of_not_callable (R.store w).evaluator args hcallable
    exact Or.inr ⟨e, congrArg Prod.fst he⟩

end Realm

/-! ### Stores without host objects -/

/-- The grant of everything that makes no host object. -/
def Grant.objectless : Grant where
  function _ f := f ≠ .vectorOf
  type t := t.construct ≠ .plain .vectorOf ∧ ∀ method ∈ t.statics, method.2 ≠ .vectorOf
  static ht hmethod := ht.2 _ hmethod

/-- Neither a host object nor anything that makes one occurs in a value. -/
def Value.Objectless (v : Value) : Prop := v.All Grant.objectless.Allows

theorem Grant.not_allows_object (i : VectorId) : ¬ Grant.objectless.Allows (.object i) := by
  rintro (⟨name, h⟩ | ⟨t, ht, hconstruct⟩)
  · exact h rfl
  · exact ht.1 hconstruct

/-- The stores that come about if no engine offers anything that makes host objects: hosts make and
drop engines, evaluate texts and forms, and call values, in any order. -/
inductive Store.Objectless : Store → Prop where
  | empty : Objectless .empty
  | create {s : Store} {registry : Registry} (limits : Limits) :
      Objectless s → Grant.objectless.Covers registry →
        Objectless (Engine.create registry limits s).2
  | evalNamed {s : Store} (engine : Engine) (sourceName source : String) :
      Objectless s → Objectless (engine.evalNamed sourceName source s).2
  | evaluate {s : Store} {form : Value} (scope : FrameId) :
      Objectless s → form.Objectless → Objectless (evaluate form scope s).2
  | call {s : Store} {callee : Value} {args : List Value} (scope : FrameId) :
      Objectless s → callee.Objectless → (∀ v ∈ args, v.Objectless) →
        Objectless (call scope callee args s).2
  | drop {s : Store} (engine : Engine) : Objectless s → Objectless (engine.drop s).2

theorem Store.Objectless.governs {s : Store} (h : s.Objectless) : Grant.objectless.Governs s := by
  induction h with
  | empty => exact Grant.governs_empty
  | create limits _ hregistry ih => exact ih.withEngine hregistry limits
  | evalNamed engine sourceName source _ ih =>
    exact .of_runs ih (Realm.runs_evalNamed engine sourceName source trivial)
  | evaluate scope _ hform ih => exact .of_runs ih (Realm.runs_evaluate hform trivial)
  | call scope _ hcallee hargs ih =>
    exact .of_runs ih (Realm.runs_call trivial hcallee hargs)
  | drop engine _ ih => exact ih.clear engine.root

/-- Evaluation always ends. In every store that engines without host objects lead to, whatever their
limits, evaluating a form in a scope gives a value or an error, and so does calling a value with
values. -/
theorem evaluate_and_call_end {s : Store} (hs : s.Objectless) :
    (∀ (form : Value) (scope : FrameId), form.Objectless → Ends (evaluate form scope s).1) ∧
      ∀ (scope : FrameId) (callee : Value) (args : List Value), callee.Objectless →
        (∀ v ∈ args, v.Objectless) → Ends (call scope callee args s).1 := by
  have hobject : ∀ w i, ¬ Grant.objectless.realm.part w (.object i) :=
    fun _ => Grant.not_allows_object
  constructor
  · intro form scope hform
    exact Realm.ends_evaluate (R := Grant.objectless.realm) (w := ⟨s, hs.governs⟩) hobject hform
      trivial
  · intro scope callee args hcallee hargs
    exact Realm.ends_call (R := Grant.objectless.realm) (w := ⟨s, hs.governs⟩) hobject trivial
      hcallee hargs

/-- A function that calls itself for ever is stopped by its depth, whether a form applies it or the
host calls it. -/
theorem evaluate_and_call_end_loop :
    let s := (Engine.evalNamed ⟨0⟩ "loop" "(define loop (lambda (x) (loop x)))"
      (Engine.create .empty ⟨5, none⟩ .empty).2).2
    s.Objectless ∧ Ends (evaluate (.list 0 [.sym "loop", .nil]) 0 s).1 ∧
      Ends (call 0 (s.get 0 "loop") [.nil] s).1 := by
  intro s
  have hs : s.Objectless := .evalNamed _ _ _ (.create _ .empty Grant.objectless.covers_empty)
  have hplain : ∀ {v : Value}, v.IsPlain → v.IsLeaf → v.Objectless :=
    Value.all_of_plain fun _ => Grant.allows_of_plain
  have hform : (Value.list 0 [.sym "loop", .nil]).Objectless := by
    refine Value.all_list.2 ⟨trivial, fun v hv => ?_⟩
    simp only [List.mem_cons, List.not_mem_nil, or_false] at hv
    rcases hv with rfl | rfl <;> exact hplain trivial trivial
  have hargs : ∀ v ∈ [Value.nil], v.Objectless := fun v hv => by
    obtain rfl := List.mem_singleton.1 hv
    exact hplain trivial trivial
  obtain ⟨hevaluate, hcall⟩ := evaluate_and_call_end hs
  exact ⟨hs, hevaluate _ 0 hform, hcall 0 _ _ (hs.governs.get 0 "loop") hargs⟩

end ConfinedLisp
