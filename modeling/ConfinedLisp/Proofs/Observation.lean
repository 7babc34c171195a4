import ConfinedLisp.Proofs.Keeping

/-!
# Observing evaluation

What goes on during evaluation is made visible by an observer, which is told whenever something
begins and in what it begins. An observer may do anything to the store or halt, so that a property
holds throughout an evaluation if an observer that acts only where it fails never gets to act.

## Main definitions

- `Activity`: what may be in progress during evaluation.
- `Observer`: what is done when an activity begins.
- `Observer.evaluateWithin`: the evaluator with an observer.
- `Activity.Nested`: the ways in which activities can be in progress one inside the other.
- `Engine.Throughout`: a property holds throughout the evaluation of a text.

## Main results

- `Observer.evaluateWithin_idle`: without an observer, this is the evaluator.
- `Judgment.respects_observed`: the knot, with an observer.
-/

namespace ConfinedLisp

/-- Something that is in progress during evaluation. -/
inductive Activity where
  /-- A list with a head asks for a step and a place, which is over at once. -/
  | request
  /-- A list with a head has been given its place. -/
  | place
  /-- A callable is applied to unevaluated operands. -/
  | application (c : Callable Value)
  /-- A callable is called with values. -/
  | call (c : Callable Value) (args : List Value)

namespace Activity

/-- Whether an activity is that of a callable. -/
def isActivation : Activity → Bool
  | .application _ | .call .. => true
  | _ => false

/-- Activities in progress one inside the other, the innermost first. A callable is applied in its
own place. A control operation that is applied makes calls, and one that is called makes further
calls, with operands that reach less deep. -/
inductive Nested : List Activity → Prop
  | nil : Nested []
  | place {stack : List Activity} (h : Nested stack) : Nested (.place :: stack)
  | application {stack : List Activity} (c : Callable Value) (h : Nested (.place :: stack)) :
      Nested (.application c :: .place :: stack)
  | call {stack : List Activity} {k : Control} {copy : Option Identity} (c : Callable Value)
      (args : List Value) (h : Nested (.application (.primitive (.control k) copy) :: stack)) :
      Nested (.call c args :: .application (.primitive (.control k) copy) :: stack)
  | further {stack : List Activity} {k : Control} {copy : Option Identity} {args args' : List Value}
      (c : Callable Value) (h : Nested (.call (.primitive (.control k) copy) args :: stack))
      (hreach : Control.reach args' < Control.reach args) :
      Nested (.call c args' :: .call (.primitive (.control k) copy) args :: stack)

theorem Nested.tail {activity : Activity} {stack : List Activity} (h : Nested (activity :: stack)) :
    Nested stack := by
  cases h with
  | place h | application _ h | call _ _ h | further _ h => exact h

end Activity

/-- What is done when an activity begins, given its scope and all activities in progress, the
innermost first. -/
def Observer := FrameId → List Activity → Eval Unit

namespace Observer

/-- The observer that does nothing. -/
def idle : Observer := fun _ _ => Eval.pure ()

variable (o : Observer)

/-- Runs a computation as an activity. -/
def during {α : Type} (scope : FrameId) (stack : List Activity) (x : Eval α) : Eval α :=
  (o scope stack).bind fun _ => x

/-- Calls a value with values. -/
def call (ev : List Activity → Evaluator) (stack : List Activity) (scope : FrameId) (callee : Value)
    (args : List Value) : Eval Value :=
  match callee with
  | .callable c =>
    let inner := .call c args :: stack
    o.during scope inner ((ev inner).invokeWith scope c args fun k =>
      k.runWith scope args fun callee args' _ => call ev inner scope callee args')
  | callee => (ev stack).call scope callee args
termination_by Control.reach args

/-- Applies a callable to unevaluated operands. -/
def apply (ev : List Activity → Evaluator) (stack : List Activity) (scope : FrameId)
    (c : Callable Value) (id : Identity) (operands : List Value) : Eval Value :=
  let inner := .application c :: stack
  o.during scope inner <|
    match c with
    | .primitive (.control k) _ =>
      ((ev inner).values scope operands).bind fun args =>
        k.runWith scope args fun callee args' _ => o.call ev inner scope callee args'
    | c => (ev inner).apply scope c id operands

/-- Evaluates a list with a head, in its place. -/
def applyForm (ev : List Activity → Evaluator) (stack : List Activity) (scope : FrameId)
    (head : Value) (rest : List Value) : Eval Value := do
  match ← ev stack head scope with
  | .callable c => do o.apply ev stack scope c (← Eval.freshIdentity) rest
  | v => Eval.fail (.typeMismatch head.display .callable v.kind)

/-- The evaluator for fewer than `fuel` nested applications. -/
def evaluateWithin : Nat → List Activity → Evaluator
  | 0, _ => fun _ _ => Eval.endless
  | fuel + 1, stack => fun form scope =>
    match form with
    | .sym name => Eval.read fun s => s.get scope name
    | .list _ (head :: rest) =>
      let inner := .place :: stack
      o.during scope (.request :: stack) <| Eval.within scope <| o.during scope inner <|
        o.applyForm (evaluateWithin fuel) inner scope head rest
    | v => pure v

/-- Evaluates a form in a scope. -/
def evaluate (form : Value) (scope : FrameId) : Eval Value := fun s =>
  o.evaluateWithin (s.headroom + 1) [] form scope s

/-- Reads all forms of a text, then evaluates them in turn. -/
def evalSource (engine : Engine) (source : String) : Eval Value :=
  (Eval.readForms Engine.defaultSourceName source).bind fun forms =>
    Evaluator.body o.evaluate engine.root forms

/-! ### Without an observer -/

theorem during_idle {α : Type} (scope : FrameId) (stack : List Activity) (x : Eval α) :
    idle.during scope stack x = x :=
  rfl

theorem call_idle (ev : Evaluator) (stack : List Activity) (scope : FrameId) (callee : Value)
    (args : List Value) :
    idle.call (fun _ => ev) stack scope callee args = ev.call scope callee args := by
  induction hreach : Control.reach args using Nat.strongRecOn generalizing stack callee args with
  | _ n ih =>
    subst hreach
    cases callee with
    | callable c =>
      rw [Observer.call, Evaluator.call, during_idle]
      congr 1
      funext k
      congr 1
      funext callee args' hless
      exact ih _ hless _ _ _ rfl
    | _ =>
      rw [Observer.call]
      exact fun c h => by cases h

theorem apply_idle (ev : Evaluator) (stack : List Activity) (scope : FrameId) (c : Callable Value)
    (id : Identity) (operands : List Value) :
    idle.apply (fun _ => ev) stack scope c id operands = ev.apply scope c id operands := by
  unfold Observer.apply
  rw [during_idle]
  split
  · simp only [call_idle]
    rfl
  · rfl

theorem applyForm_idle (ev : Evaluator) (stack : List Activity) (scope : FrameId) (head : Value)
    (rest : List Value) :
    idle.applyForm (fun _ => ev) stack scope head rest = ev.applyForm scope head rest := by
  unfold Observer.applyForm Evaluator.applyForm
  congr 1
  funext v
  cases v with
  | callable c => simp only [apply_idle]
  | _ => rfl

/-- Without an observer, evaluation is what it is. -/
theorem evaluateWithin_idle (n : Nat) (stack : List Activity) :
    idle.evaluateWithin n stack = ConfinedLisp.evaluateWithin n := by
  induction n generalizing stack with
  | zero => rfl
  | succ n ih =>
    have hev : idle.evaluateWithin n = fun _ => ConfinedLisp.evaluateWithin n := funext ih
    funext form scope
    cases form with
    | list id items =>
      cases items with
      | nil => rfl
      | cons head rest =>
        change Eval.within scope (idle.applyForm (idle.evaluateWithin n) _ scope head rest) = _
        rw [hev, applyForm_idle]
        rfl
    | _ => rfl

theorem evalSource_idle (engine : Engine) (source : String) :
    idle.evalSource engine source = engine.evalSource source := by
  have hev : idle.evaluate = ConfinedLisp.evaluate := by
    funext form scope s
    exact congrFun (congrFun (congrFun (evaluateWithin_idle _ []) form) scope) s
  unfold Observer.evalSource
  rw [hev]
  rfl

end Observer

/-! ### Properties of what goes on -/

/-- An observer that acts only where a property of the moment fails. -/
def Observer.IdleWhere (o : Observer) (P : List Activity → Store → Prop) : Prop :=
  ∀ scope stack s, P stack s → o scope stack s = (.ok (), s)

theorem Observer.IdleWhere.mono {o : Observer} {P P' : List Activity → Store → Prop}
    (h : o.IdleWhere P) (hP : ∀ stack s, P' stack s → P stack s) : o.IdleWhere P' :=
  fun scope stack s hs => h scope stack s (hP stack s hs)

theorem Observer.IdleWhere.during {o : Observer} {P : List Activity → Store → Prop} {α : Type}
    (h : o.IdleWhere P) {scope : FrameId} {stack : List Activity} {s : Store} (hs : P stack s)
    (x : Eval α) : o.during scope stack x s = x s :=
  Eval.bind_of_ok (h scope stack s hs) _

/-- A property of what is in progress, and of the store then, holds throughout the evaluation of a
text: an observer that acts only where it fails never gets to act. -/
def Engine.Throughout (engine : Engine) (source : String) (s : Store)
    (P : List Activity → Store → Prop) : Prop :=
  ∀ o : Observer, o.IdleWhere P → o.evalSource engine source s = engine.evalSource source s

theorem Engine.Throughout.mono {engine : Engine} {source : String} {s : Store}
    {P P' : List Activity → Store → Prop} (h : engine.Throughout source s P)
    (hP : ∀ stack s, P stack s → P' stack s) : engine.Throughout source s P' :=
  fun o ho => h o (ho.mono hP)

/-! ### The knot, with an observer -/

namespace Judgment

variable {World : Type} {R : Realm World} {w : World} {o : Observer}

/-- A family of judgments, one for each way in which activities can be in progress, that allows for
an observer of the activities of callables. -/
def Admits (o : Observer) (J : List Activity → Judgment R) : Prop :=
  ∀ (w : World) (scope : FrameId) (activity : Activity) (stack : List Activity) (x y : Eval Value),
    activity.isActivation = true → Activity.Nested (activity :: stack) → R.scope w scope →
      (J (activity :: stack)).judge w x y R.value →
        (J stack).judge w (o.during scope (activity :: stack) x) y R.value

section Evaluators

variable {J : List Activity → Judgment R} {ev : List Activity → Evaluator} {ev' : Evaluator}
  (hadmits : Admits o J)
  (hev : ∀ stack, Activity.Nested stack → (J stack).Respects (ev stack) ev')

include hadmits hev

theorem observedCall {scope : FrameId} {callee : Value} {args : List Value} {stack : List Activity}
    (hstack : ∀ c, Activity.Nested (.call c args :: stack)) (hscope : R.scope w scope)
    (hcallable : (R.store w).isCallable scope callee = true) (hcallee : R.value w callee)
    (hargs : R.values w args) :
    (J stack).judge w (o.call ev stack scope callee args) (ev'.call scope callee args)
      R.value := by
  -- As without an observer, a control operation calls with operands that reach less deep.
  induction hreach : Control.reach args using Nat.strongRecOn
    generalizing w callee args stack with
  | _ n ih =>
    subst hreach
    cases callee with
    | callable c =>
      rw [Observer.call, Evaluator.call]
      refine hadmits w scope (.call c args) stack _ _ rfl (hstack c) hscope ?_
      refine invokeWith (hev _ (hstack c)) hscope hcallee hargs fun k copy hc => ?_
      subst hc
      refine runControlWith _ k hargs fun w₁ args' hless hw₁ hcallable₁ hargs' => ?_
      have hhead := Operands.all_headD (R.part_plain w₁ _ trivial) (Realm.values_later hw₁ hargs)
      exact ih _ hless (fun c => .further c (hstack _) hless) (Realm.scope_later hw₁ hscope)
        hcallable₁ hhead hargs' rfl
    | str name =>
      rw [Observer.call]
      · exact call (hev stack (hstack (.primitive (.special .quote) none)).tail) hscope hcallable
          hcallee hargs
      · exact fun c h => by cases h
    | _ => cases hcallable

theorem observedApply {scope : FrameId} {c : Callable Value} {id : Identity}
    {operands : List Value} {stack : List Activity}
    (hstack : Activity.Nested (.application c :: stack)) (hscope : R.scope w scope)
    (hc : R.value w (.callable c)) (h : R.value w (.list id operands)) :
    (J stack).judge w (o.apply ev stack scope c id operands) (ev'.apply scope c id operands)
      R.value := by
  have hev' := hev _ hstack
  refine hadmits w scope (.application c) stack _ _ rfl hstack hscope ?_
  split
  · next k copy =>
    obtain ⟨-, hoperands⟩ := Realm.value_list.1 h
    refine (J _).bind (evaluateValues hev' hscope hoperands) fun w₁ args hw₁ hargs => ?_
    refine runControlWith _ k hargs fun w₂ args' hless hw₂ hcallable hargs' => ?_
    have hhead := Operands.all_headD (R.part_plain w₂ _ trivial) (Realm.values_later hw₂ hargs)
    exact observedCall hadmits hev (fun c => .call c args' hstack)
      (Realm.scope_later (R.later_trans hw₁ hw₂) hscope) hcallable hhead hargs'
  · exact apply hev' hscope hc h

theorem observedApplyForm {scope : FrameId} {head : Value} {rest : List Value}
    {stack : List Activity} (hstack : Activity.Nested (.place :: stack)) (hscope : R.scope w scope)
    (hhead : R.value w head) (hrest : R.values w rest) :
    (J (.place :: stack)).judge w (o.applyForm ev (.place :: stack) scope head rest)
      (ev'.applyForm scope head rest) R.value := by
  refine (J _).bind (hev _ hstack w head scope hhead hscope) fun w₁ v hw₁ hv => ?_
  cases v with
  | callable c =>
    refine (J _).bind ((J _).freshIdentity (Realm.values_later hw₁ hrest)) fun w₂ id hw₂ hlist => ?_
    have hw := R.later_trans hw₁ hw₂
    exact observedApply hadmits hev (.application c hstack) (Realm.scope_later hw hscope)
      (Realm.value_later hw₂ hv) hlist
  | _ => exact (J _).fail trivial

end Evaluators

/-- Evaluation with an observer agrees with evaluation, in a family of judgments that lets a list
ask for its place and take it. -/
theorem respects_observed {J : List Activity → Judgment R} (hadmits : Admits o J)
    (hendless : ∀ stack w, (J stack).judge w Eval.endless Eval.endless R.value)
    (hwithin : ∀ stack w scope x y, Activity.Nested stack → R.scope w scope →
      (∀ w', R.later w w' → (J (.place :: stack)).judge w' x y R.value) →
        (J stack).judge w
          (o.during scope (.request :: stack)
            (Eval.within scope (o.during scope (.place :: stack) x)))
          (Eval.within scope y) R.value) (n : Nat) :
    ∀ stack, Activity.Nested stack →
      (J stack).Respects (o.evaluateWithin n stack) (evaluateWithin n) := by
  induction n with
  | zero => exact fun stack _ w form scope _ _ => hendless stack w
  | succ n ih =>
    intro stack hstack w form scope hform hscope
    cases form with
    | sym name =>
      refine (J stack).mono ((J stack).read fun s rs _ => s.get_rebudget rs scope name) ?_
      rintro w' v hw ⟨rfl, rfl⟩
      exact R.get name hscope
    | list id items =>
      cases items with
      | nil => exact (J stack).pure hform
      | cons head rest =>
        obtain ⟨-, hitems⟩ := Realm.value_list.1 hform
        obtain ⟨hhead, hrest⟩ := Realm.values_cons.1 hitems
        refine hwithin stack w scope _ _ hstack hscope fun w' hw => ?_
        exact observedApplyForm hadmits ih (.place hstack) (Realm.scope_later hw hscope)
          (Realm.value_later hw hhead) (Realm.values_later hw hrest)
    | _ => exact (J stack).pure hform

end Judgment

/-! ### Moments of a realm -/

/-- An observer does not show in a computation, if everything stands in a given way. -/
def Realm.Unnoticed {World α : Type} (R : Realm World) (P : Array (Limits × Nat) → Prop) (w : World)
    (x y : Eval α) : Prop :=
  P (R.store w).standings → x (R.store w) = y (R.store w)

theorem Realm.Unnoticed.bind {World α β : Type} {R : Realm World} {P : Array (Limits × Nat) → Prop}
    {w : World} {x y : Eval α} {f g : α → Eval β} {Q : World → α → Prop} {Q' : World → β → Prop}
    (hruns : R.Runs w y Q) (hx : R.Unnoticed P w x y)
    (hf : ∀ w' a, R.later w w' → Q w' a → R.Runs w' (g a) Q' ∧ R.Unnoticed P w' (f a) (g a)) :
    R.Unnoticed P w (x.bind f) (y.bind g) := by
  intro hP
  obtain ⟨w', hw, hstore, hstandings, hQ⟩ := hruns
  have hsame := hx hP
  cases hy : y (R.store w) with
  | mk result t =>
    rw [hy] at hsame hstore hQ
    cases result with
    | error halt => rw [Eval.bind_of_error hsame, Eval.bind_of_error hy]
    | ok a =>
      have hrest := (hf w' a hw (hQ a rfl)).2 (hstandings ▸ hP)
      rw [hstore] at hrest
      rw [Eval.bind_of_ok hsame, Eval.bind_of_ok hy, hrest]

/-- The judgment that an observer does not show. -/
def Judgment.unnoticed {World : Type} (R : Realm World) (P : Array (Limits × Nat) → Prop) :
    Judgment R :=
  keepingWith R (R.Unnoticed P) (fun _ _ => rfl) (fun _ _ => rfl) Realm.Unnoticed.bind

namespace Realm

variable {World : Type} {R : Realm World}

/-- How things stand, given what is in progress: this follows from how they stood before, as far as
places and callables are concerned. -/
structure Follows (R : Realm World) (stands : List Activity → Array (Limits × Nat) → Prop) :
    Prop where
  activation : ∀ {activity stack standings}, activity.isActivation = true → stands stack standings →
    stands (activity :: stack) standings
  place : ∀ {w scope i r stack}, R.scope w scope → (R.store w).runtimeId? scope = some i →
    (R.store w).runtimes[i]? = some r → r.depth < r.limits.maxDepth →
    stands stack (R.store w).standings →
      stands (.place :: stack) ((R.store w).standings.setIfInBounds i (r.limits, r.depth + 1))

/-- An observer that acts only where a property of the worlds fails does not show in evaluation. -/
theorem respects_unnoticed {o : Observer} {P : List Activity → Store → Prop}
    {stands : List Activity → Array (Limits × Nat) → Prop} (ho : o.IdleWhere P)
    (hfollows : R.Follows stands)
    (hrequest : ∀ w stack, Activity.Nested stack → stands stack (R.store w).standings →
      P (.request :: stack) (R.store w))
    (hbegin : ∀ w activity stack, Activity.Nested (activity :: stack) →
      stands (activity :: stack) (R.store w).standings → P (activity :: stack) (R.store w))
    (n : Nat) :
    ∀ stack, Activity.Nested stack → (Judgment.unnoticed R (stands stack)).Respects
      (o.evaluateWithin n stack) (evaluateWithin n) := by
  refine Judgment.respects_observed ?_ ?_ ?_ n
  · intro w scope activity stack x y hactivation hnested hscope hxy
    refine ⟨hxy.1, fun hstands => ?_⟩
    have hstands' := hfollows.activation hactivation hstands
    exact (ho.during (hbegin w activity stack hnested hstands') x).trans (hxy.2 hstands')
  · exact fun stack w => (Judgment.unnoticed R (stands stack)).hang trivial
  · intro stack w scope x y hnested hscope hxy
    refine ⟨runs_within hscope fun w' hw => (hxy w' hw).1, fun hstands => ?_⟩
    rw [ho.during (hrequest w stack hnested hstands)]
    obtain ⟨w₁, hw₁, hstore₁⟩ := R.enter hscope
    rcases (R.store w).enter_cases scope with ⟨e, he, -⟩ | ⟨i, r, hi, hr, hdepth, hok, hplace⟩
    · rw [Eval.within_of_error _ he, Eval.within_of_error _ he]
    · have hstands₁ := hfollows.place hscope hi hr hdepth hstands
      rw [← hplace, ← hstore₁] at hstands₁
      have hsame : o.during scope (.place :: stack) x (R.store w₁) = y (R.store w₁) :=
        (ho.during (hbegin w₁ .place stack (.place hnested) hstands₁) x).trans
          ((hxy w₁ hw₁).2 hstands₁)
      rw [hstore₁] at hsame
      rw [Eval.within_of_ok _ hok, Eval.within_of_ok _ hok, hsame]

/-- A property that the worlds have whenever something begins holds throughout the evaluation of a
text. -/
theorem throughout {P : List Activity → Store → Prop}
    {stands : List Activity → Array (Limits × Nat) → Prop} (hfollows : R.Follows stands)
    (hrequest : ∀ w stack, Activity.Nested stack → stands stack (R.store w).standings →
      P (.request :: stack) (R.store w))
    (hbegin : ∀ w activity stack, Activity.Nested (activity :: stack) →
      stands (activity :: stack) (R.store w).standings → P (activity :: stack) (R.store w))
    {w : World} {engine : Engine} (hroot : R.scope w engine.root)
    (hstands : stands [] (R.store w).standings) (source : String) :
    engine.Throughout source (R.store w) P := by
  intro o ho
  have hev : (Judgment.unnoticed R (stands [])).Respects o.evaluate evaluate := fun w =>
    respects_unnoticed ho hfollows hrequest hbegin ((R.store w).headroom + 1) [] .nil w
  exact (Judgment.evaluateForms hev Engine.defaultSourceName source hroot fun fault =>
    ⟨runs_halt rfl, fun _ => rfl⟩).2 hstands

end Realm

end ConfinedLisp
