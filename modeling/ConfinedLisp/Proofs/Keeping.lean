import ConfinedLisp.Engine
import ConfinedLisp.Proofs.Judging

/-!
# Evaluation keeps every realm

The recursion of evaluation is tied here: if a judgment at some fuel passes to applications at the
next one, it holds of evaluation at every fuel. The first use of this is the property on which the
others build. Evaluation leads from a world of a realm to a later one, gives a value that may be
around, and gives back every place that it took on the way down, whether it succeeds or not.

## Main definitions

- `Store.standings`: for each runtime, its limits and the number of applications in progress.
- `Realm.Runs`: a computation keeps the realm and the standings.
- `Judgment.keeping`, `Judgment.keepingWith`: the judgments of this.

## Main results

- `Judgment.respects_evaluateWithin`: the knot.
- `Realm.runs_evaluate`, `Realm.runs_evalNamed`: forms and texts keep every realm.
-/

namespace ConfinedLisp

/-! ### The budget machine -/

namespace Runtime

variable {r : Runtime}

/-- There is a step left. -/
def HasStep (r : Runtime) : Prop := ∀ limit, r.limits.stepLimit = some limit → r.steps < limit

/-- Without a step left, entering is refused and changes nothing. -/
theorem enter_of_no_step {limit : Nat} (hlimit : r.limits.stepLimit = some limit)
    (hsteps : limit ≤ r.steps) : r.enter = (.error (.budgetExceeded limit), r) := by
  simp [enter, hlimit, Nat.not_lt.2 hsteps]

/-- A step that is left is taken before a place is asked for. -/
theorem enter_of_step (h : r.HasStep) : r.enter = { r with steps := r.steps + 1 }.descend := by
  unfold enter
  split
  · next limit hlimit => rw [if_pos (h limit hlimit)]
  · rfl

/-- Both are left: the application is entered. -/
theorem enter_of_place (h : r.HasStep) (hdepth : r.depth < r.limits.maxDepth) :
    r.enter = (.ok (), { r with steps := r.steps + 1, depth := r.depth + 1 }) := by
  rw [enter_of_step h]
  exact if_pos hdepth

/-- The step is taken even if no place is left. -/
theorem enter_of_no_place (h : r.HasStep) (hdepth : r.limits.maxDepth ≤ r.depth) :
    r.enter = (.error (.recursionLimit r.limits.maxDepth), { r with steps := r.steps + 1 }) := by
  rw [enter_of_step h]
  exact if_neg (Nat.not_lt.2 hdepth)

/-- There is a step left, or there is a limit that has been reached. -/
theorem hasStep_or (r : Runtime) :
    r.HasStep ∨ ∃ limit, r.limits.stepLimit = some limit ∧ limit ≤ r.steps := by
  cases hlimit : r.limits.stepLimit with
  | none => exact Or.inl fun limit h => by simp [hlimit] at h
  | some limit =>
    rcases Nat.lt_or_ge r.steps limit with hlt | hge
    · refine Or.inl fun limit' h => ?_
      rw [hlimit] at h
      cases h
      exact hlt
    · exact Or.inr ⟨limit, rfl, hge⟩

/-- The limits of a runtime, and the number of applications in progress. -/
def standing (r : Runtime) : Limits × Nat := (r.limits, r.depth)

/-- How many more applications may be nested, given a standing. -/
def room (standing : Limits × Nat) : Nat := standing.1.maxDepth - standing.2

/-- How many more applications may be nested in several runtimes, one inside the other. -/
def rooms : List (Limits × Nat) → Nat
  | [] => 0
  | standing :: rest => room standing + rooms rest

/-- What entering can do to a standing: a refusal leaves it, and a place that is given is one of
those that were left. -/
theorem standing_enter (r : Runtime) :
    (∃ e, r.enter.1 = .error e ∧ r.enter.2.standing = r.standing) ∨
      (r.enter.1 = .ok () ∧ r.depth < r.limits.maxDepth ∧
        r.enter.2.standing = (r.limits, r.depth + 1)) := by
  rcases r.hasStep_or with h | ⟨limit, hlimit, hsteps⟩
  · rcases Nat.lt_or_ge r.depth r.limits.maxDepth with hdepth | hdepth
    · rw [enter_of_place h hdepth]
      exact Or.inr ⟨rfl, hdepth, rfl⟩
    · rw [enter_of_no_place h hdepth]
      exact Or.inl ⟨_, rfl, rfl⟩
  · rw [enter_of_no_step hlimit hsteps]
    exact Or.inl ⟨_, rfl, rfl⟩

end Runtime

namespace Store

variable {s t : Store} {f : FrameId}

/-- Where the runtimes stand. -/
def standings (s : Store) : Array (Limits × Nat) := s.runtimes.map Runtime.standing

theorem headroom_eq_rooms (s : Store) : s.headroom = Runtime.rooms s.standings.toList := by
  unfold headroom standings
  rw [Array.toList_map, ← Array.foldl_toList]
  -- Rooms are added up from the left, so the induction has to start from any sum.
  have hfold : ∀ (runtimes : List Runtime) (sum : Nat),
      runtimes.foldl (fun sum runtime => sum + (runtime.limits.maxDepth - runtime.depth)) sum =
        sum + Runtime.rooms (runtimes.map Runtime.standing) := by
    intro runtimes
    induction runtimes with
    | nil => exact fun sum => rfl
    | cons r rest ih =>
      intro sum
      rw [List.foldl_cons, ih, List.map_cons, Runtime.rooms, ← Nat.add_assoc]
      rfl
  rw [hfold, Nat.zero_add]

theorem getElem?_standings (s : Store) (i : RuntimeId) :
    s.standings[i]? = s.runtimes[i]?.map Runtime.standing := by
  simp only [standings, Array.getElem?_map]

theorem standings_setIfInBounds (s : Store) (i : RuntimeId) (r : Runtime) :
    standings { s with runtimes := s.runtimes.setIfInBounds i r } =
      s.standings.setIfInBounds i r.standing := by
  simp only [standings, Array.map_setIfInBounds]

/-- Entering is refused, and then everything stands as before, or a place is given in the runtime of
the frame. -/
theorem enter_cases (s : Store) (f : FrameId) :
    (∃ e, (s.enter f).1 = .error e ∧ (s.enter f).2.standings = s.standings) ∨
      ∃ i r, s.runtimeId? f = some i ∧ s.runtimes[i]? = some r ∧ r.depth < r.limits.maxDepth ∧
        (s.enter f).1 = .ok () ∧
        (s.enter f).2.standings = s.standings.setIfInBounds i (r.limits, r.depth + 1) := by
  rcases s.runtime?_cases f with h | ⟨i, r, hi, hr⟩
  · rw [enter_of_no_runtime h]
    exact Or.inl ⟨_, rfl, rfl⟩
  · rw [enter_of_runtime hi hr, standings_setIfInBounds]
    rcases r.standing_enter with ⟨e, he, hstanding⟩ | ⟨hok, hdepth, hstanding⟩
    · refine Or.inl ⟨e, he, ?_⟩
      -- A step may have been taken, but the standing is put back as it was.
      rw [hstanding]
      refine Array.ext_getElem? fun j => ?_
      rw [Array.getElem?_setIfInBounds]
      split
      · next hij =>
        subst hij
        obtain ⟨hsize, -⟩ := Array.getElem?_eq_some_iff.1 hr
        rw [if_pos (by simpa [standings] using hsize), getElem?_standings, hr]
        rfl
      · rfl
    · exact Or.inr ⟨i, r, hi, hr, hdepth, hok, by rw [hstanding]⟩

/-- Leaving gives back the place that was taken, if everything stands as right after entering. -/
theorem standings_leave {i : RuntimeId} {r : Runtime} (hi : t.runtimeId? f = some i)
    (hr : s.runtimes[i]? = some r)
    (ht : t.standings = s.standings.setIfInBounds i (r.limits, r.depth + 1)) :
    (t.leave f).standings = s.standings := by
  have hleave : (t.leave f).runtimes = t.runtimes.modify i Runtime.leave := by simp [leave, hi]
  refine Array.ext_getElem? fun j => ?_
  have hj : t.standings[j]? = (s.standings.setIfInBounds i (r.limits, r.depth + 1))[j]? := by
    rw [ht]
  rw [getElem?_standings, hleave, Array.getElem?_modify]
  rw [getElem?_standings, Array.getElem?_setIfInBounds] at hj
  split
  · next hij =>
    subst hij
    obtain ⟨hsize, -⟩ := Array.getElem?_eq_some_iff.1 hr
    rw [if_pos rfl, if_pos (by simpa [standings] using hsize)] at hj
    obtain ⟨r', hr', hstanding⟩ := Option.map_eq_some_iff.1 hj
    obtain ⟨hlimits, hdepth⟩ := Prod.mk.inj hstanding
    simp [getElem?_standings, hr, hr', Runtime.standing, Runtime.leave, hlimits, hdepth]
  · next hij =>
    rw [if_neg hij] at hj
    exact hj

/-- The place that an application takes is gone while it lasts. -/
theorem headroom_of_place {i : RuntimeId} {r : Runtime} (hr : s.runtimes[i]? = some r)
    (hdepth : r.depth < r.limits.maxDepth)
    (ht : t.standings = s.standings.setIfInBounds i (r.limits, r.depth + 1)) :
    t.headroom + 1 = s.headroom := by
  -- One summand is less by one, and it was not zero.
  have hsum : ∀ (l : List (Limits × Nat)) (i : Nat), l[i]? = some r.standing →
      Runtime.rooms (l.set i (r.limits, r.depth + 1)) + 1 = Runtime.rooms l := by
    intro l
    induction l with
    | nil => simp
    | cons p rest ih =>
      intro i hi
      cases i with
      | zero =>
        obtain rfl : p = r.standing := by simpa using hi
        simp only [List.set_cons_zero, Runtime.rooms, Runtime.room, Runtime.standing]
        omega
      | succ i =>
        have := ih i (by simpa using hi)
        simp only [List.set_cons_succ, Runtime.rooms]
        omega
  rw [headroom_eq_rooms, headroom_eq_rooms, ht, Array.toList_setIfInBounds]
  refine hsum _ i ?_
  rw [Array.getElem?_toList, getElem?_standings, hr]
  rfl

theorem headroom_congr (h : t.standings = s.standings) : t.headroom = s.headroom := by
  rw [headroom_eq_rooms, headroom_eq_rooms, h]

end Store

namespace Eval

variable {α : Type} {f : FrameId} {s : Store}

theorem within_of_error {e : EvalError} (x : Eval α) (h : (s.enter f).1 = .error e) :
    Eval.within f x s = (.error (.error e), (s.enter f).2) := by
  unfold Eval.within
  split
  · next e' t ht =>
    rw [ht] at h ⊢
    cases h
    rfl
  · next ht =>
    rw [ht] at h
    cases h

theorem within_of_ok (x : Eval α) (h : (s.enter f).1 = .ok ()) :
    Eval.within f x s = ((x (s.enter f).2).1, (x (s.enter f).2).2.leave f) := by
  unfold Eval.within
  split
  · next ht =>
    rw [ht] at h
    cases h
  · next ht => rw [ht]

end Eval

/-! ### The knot -/

namespace Judgment

variable {World : Type} {R : Realm World} {w : World}

/-- Evaluation with some fuel agrees with evaluation with `k` more, in a family of judgments that
lets an application take one unit of fuel. -/
theorem respects_evaluateWithin (J : Nat → Judgment R) (k : Nat)
    (hzero : ∀ w form scope, (J 0).judge w Eval.endless (evaluateWithin k form scope) R.value)
    (hwithin : ∀ n w scope x y, R.scope w scope →
      (∀ w', R.later w w' → (J n).judge w' x y R.value) →
        (J (n + 1)).judge w (Eval.within scope x) (Eval.within scope y) R.value) (n : Nat) :
    (J n).Respects (evaluateWithin n) (evaluateWithin (n + k)) := by
  induction n with
  | zero =>
    intro w form scope hform hscope
    rw [Nat.zero_add]
    exact hzero w form scope
  | succ n ih =>
    intro w form scope hform hscope
    rw [Nat.succ_add, evaluateWithin, evaluateWithin]
    dsimp only
    -- A symbol, a list with a head, or a form that evaluates to itself.
    split
    · next name =>
      refine (J (n + 1)).mono ((J (n + 1)).read fun s rs _ => s.get_rebudget rs scope name) ?_
      rintro w' v hw ⟨rfl, rfl⟩
      exact R.get name hscope
    · next id head rest =>
      obtain ⟨-, hitems⟩ := Realm.value_list.1 hform
      obtain ⟨hhead, hrest⟩ := Realm.values_cons.1 hitems
      refine hwithin n w scope _ _ hscope fun w' hw => ?_
      exact applyForm ih (Realm.scope_later hw hscope) (Realm.value_later hw hhead)
        (Realm.values_later hw hrest)
    · exact (J (n + 1)).pure hform

/-! Reading makes a list for each list of the text. -/

mutual

theorem ofForm (J : Judgment R) (form : Form) : ∀ w : World,
    J.judge w (Eval.ofForm form) (Eval.ofForm form) R.value := by
  intro w
  cases form with
  | int n => exact J.pure (Realm.value_plain trivial trivial)
  | float x => exact J.pure (Realm.value_plain trivial trivial)
  | str s => exact J.pure (Realm.value_plain trivial trivial)
  | sym name => exact J.pure (Realm.value_plain trivial trivial)
  | list items =>
    rw [Eval.ofForm]
    exact J.bind (ofForms J items w) fun w' vs _ hvs => J.newList hvs

theorem ofForms (J : Judgment R) (forms : List Form) : ∀ w : World,
    J.judge w (Eval.ofForms forms) (Eval.ofForms forms) R.values := by
  intro w
  cases forms with
  | nil => exact J.pure Realm.values_nil
  | cons form rest =>
    rw [Eval.ofForms]
    refine J.bind (ofForm J form w) fun w₁ v _ hv => ?_
    refine J.bind (ofForms J rest w₁) fun w₂ vs hw₂ hvs => ?_
    exact J.pure (Realm.values_cons.2 ⟨Realm.value_later hw₂ hv, hvs⟩)

end

/-- Evaluating the forms of a text in turn. That a text is unreadable is not for a callable to say,
so what it leads to has to be judged apart. -/
theorem evaluateForms {J : Judgment R} {ev ev' : Evaluator} (hev : J.Respects ev ev')
    (sourceName source : String) {scope : FrameId} (hscope : R.scope w scope)
    (hunreadable : ∀ fault, J.judge w (Eval.fail (.unreadable sourceName fault))
      (Eval.fail (.unreadable sourceName fault)) R.values) :
    J.judge w ((Eval.readForms sourceName source).bind fun forms => ev.body scope forms)
      ((Eval.readForms sourceName source).bind fun forms => ev'.body scope forms) R.value := by
  have hread : J.judge w (Eval.readForms sourceName source) (Eval.readForms sourceName source)
      R.values := by
    unfold Eval.readForms
    split
    · next forms _ => exact ofForms J forms w
    · next fault _ => exact hunreadable fault
  refine J.bind hread fun w₁ vs hw₁ hvs => ?_
  exact evaluateBody hev (Realm.scope_later hw₁ hscope) hvs

/-- Evaluating a text in an engine. -/
theorem evalNamed (J : Judgment R) (hev : J.Respects evaluate evaluate) (engine : Engine)
    (sourceName source : String) (hroot : R.scope w engine.root)
    (hunreadable : ∀ fault, J.judge w (Eval.fail (.unreadable sourceName fault))
      (Eval.fail (.unreadable sourceName fault)) R.values) :
    J.judge w (engine.evalNamed sourceName source) (engine.evalNamed sourceName source)
      R.value :=
  evaluateForms hev sourceName source hroot hunreadable

end Judgment

/-- A value that cannot be called is refused before anything happens. -/
theorem Evaluator.call_of_not_callable (ev : Evaluator) {s : Store} {scope : FrameId}
    {callee : Value} (args : List Value) (h : s.isCallable scope callee = false) :
    ∃ e, ev.call scope callee args s = (.error (.error e), s) := by
  cases callee with
  | callable c => cases h
  | str name =>
    have hread : (Eval.read fun s => (s.registry scope).function? name) s = (.ok none, s) := by
      simpa [Store.isCallable, Eval.read] using h
    refine ⟨.unknownIdentifier .function name, ?_⟩
    rw [Evaluator.call]
    exact Eval.bind_of_ok hread _
  | _ =>
    rw [Evaluator.call]
    · exact ⟨_, rfl⟩
    all_goals exact fun _ h => by cases h

/-! ### Keeping a realm -/

namespace Realm

variable {World : Type} (R : Realm World) {w : World} {α : Type}

/-- A computation leads to a later world in which everything stands as before, and what it gives
satisfies a postcondition. -/
def Runs (w : World) (x : Eval α) (Q : World → α → Prop) : Prop :=
  ∃ w', R.later w w' ∧ R.store w' = (x (R.store w)).2 ∧
    (R.store w').standings = (R.store w).standings ∧ ∀ a, (x (R.store w)).1 = .ok a → Q w' a

variable {R}

theorem runs_halt {x : Eval α} {halt : Halt} {Q : World → α → Prop}
    (h : x (R.store w) = (.error halt, R.store w)) : R.Runs w x Q := by
  refine ⟨w, R.later_refl w, by rw [h], rfl, fun a ha => ?_⟩
  rw [h] at ha
  cases ha

/-- Whatever keeps a realm makes the store grow. -/
theorem Runs.grows {x : Eval α} {Q : World → α → Prop} (h : R.Runs w x Q) :
    (R.store w).Grows (x (R.store w)).2 := by
  obtain ⟨w', hw, hstore, -⟩ := h
  exact hstore ▸ R.grows hw

theorem Runs.bind {β : Type} {x : Eval α} {f : α → Eval β} {Q : World → α → Prop}
    {P : World → β → Prop} (hx : R.Runs w x Q)
    (hf : ∀ w' a, R.later w w' → Q w' a → R.Runs w' (f a) P) : R.Runs w (x.bind f) P := by
  obtain ⟨w₁, hw₁, hstore₁, hstandings₁, hQ⟩ := hx
  cases hr : x (R.store w) with
  | mk result s₁ =>
    rw [hr] at hstore₁ hQ
    cases result with
    | error halt =>
      have hbind := Eval.bind_of_error hr f
      refine ⟨w₁, hw₁, by rw [hbind, hstore₁], hstandings₁, fun b hb => ?_⟩
      rw [hbind] at hb
      cases hb
    | ok a =>
      have hbind : x.bind f (R.store w) = f a (R.store w₁) := by rw [hstore₁, Eval.bind_of_ok hr f]
      obtain ⟨w₂, hw₂, hstore₂, hstandings₂, hP⟩ := hf w₁ a hw₁ (hQ a rfl)
      rw [← hbind] at hstore₂ hP
      exact ⟨w₂, R.later_trans hw₁ hw₂, hstore₂, hstandings₂.trans hstandings₁, hP⟩

theorem runs_make {w' : World} {op : Store → α × Store} {Q : World → α → Prop}
    (hop : Unbudgeted op) (hw : R.later w w') (hstore : R.store w' = (op (R.store w)).2)
    (hQ : Q w' (op (R.store w)).1) : R.Runs w (Eval.make op) Q := by
  refine ⟨w', hw, hstore, ?_, fun a ha => ?_⟩
  · rw [hstore, Store.standings, Store.standings, hop.runtimes]
  · cases ha
    exact hQ

/-- An application keeps a realm if what it runs does. -/
theorem runs_within {scope : FrameId} {x : Eval Value} (hscope : R.scope w scope)
    (h : ∀ w', R.later w w' → R.Runs w' x R.value) :
    R.Runs w (Eval.within scope x) R.value := by
  obtain ⟨w₁, hw₁, hstore₁⟩ := R.enter hscope
  rcases (R.store w).enter_cases scope with ⟨e, he, hsame⟩ | ⟨i, r, hi, hr, hdepth, hok, hplace⟩
  · refine ⟨w₁, hw₁, ?_, ?_, fun a ha => ?_⟩
    · rw [Eval.within_of_error x he, hstore₁]
    · rw [hstore₁, hsame]
    · rw [Eval.within_of_error x he] at ha
      cases ha
  · -- What is run gives back its own places, so leaving gives back the one taken here.
    rw [← hstore₁] at hplace
    obtain ⟨w₂, hw₂, hstore₂, hstandings₂, hvalue⟩ := h w₁ hw₁
    obtain ⟨w₃, hw₃, hstore₃⟩ := R.leave (Realm.scope_later (R.later_trans hw₁ hw₂) hscope)
    refine ⟨w₃, R.later_trans hw₁ (R.later_trans hw₂ hw₃), ?_, ?_, fun a ha => ?_⟩
    · rw [Eval.within_of_ok x hok, hstore₃, hstore₂, hstore₁]
    · rw [hstore₃]
      exact Store.standings_leave ((R.grows (R.later_trans hw₁ hw₂)).runtimeId? hi) hr
        (hstandings₂.trans hplace)
    · rw [Eval.within_of_ok x hok, ← hstore₁] at ha
      exact Realm.value_later hw₃ (hvalue a ha)

end Realm

/-- The judgment that a computation keeps the realm. -/
def Judgment.keeping {World : Type} (R : Realm World) : Judgment R where
  judge w x _ Q := R.Runs w x Q
  pure hQ := Realm.runs_make (Unbudgeted.read fun _ _ _ => rfl) (R.later_refl _) rfl hQ
  bind hx hf := hx.bind hf
  fail _ := Realm.runs_halt rfl
  make hop hw hstore hQ := Realm.runs_make hop hw hstore hQ
  mayHang := True
  hang _ := Realm.runs_halt rfl
  looseEq h := absurd trivial h
  encode h := absurd trivial h

theorem EvalError.IsOrdinary.ne_budgetExceeded {e : EvalError} (h : e.IsOrdinary) (limit : Nat) :
    Halt.error e ≠ .error (.budgetExceeded limit) := by
  rintro ⟨⟩
  exact h

/-- The judgment that the second one of two computations keeps the realm, and that both are in a
relation that holds where nothing is done that has to do with budgets, and that is passed on. -/
def Judgment.keepingWith {World : Type} (R : Realm World)
    (rel : {α : Type} → World → Eval α → Eval α → Prop)
    (hmake : ∀ {α : Type} {w : World} {op : Store → α × Store}, Unbudgeted op →
      rel w (Eval.make op) (Eval.make op))
    (hhalt : ∀ {α : Type} {w : World} {halt : Halt},
      (∀ limit, halt ≠ .error (.budgetExceeded limit)) →
        rel w (fun s => (Except.error halt, s) : Eval α) fun s => (.error halt, s))
    (hbind : ∀ {α β : Type} {w : World} {x y : Eval α} {f g : α → Eval β} {Q : World → α → Prop}
      {P : World → β → Prop}, R.Runs w y Q → rel w x y →
      (∀ w' a, R.later w w' → Q w' a → R.Runs w' (g a) P ∧ rel w' (f a) (g a)) →
        rel w (x.bind f) (y.bind g)) : Judgment R where
  judge w x y Q := R.Runs w y Q ∧ rel w x y
  pure hQ := ⟨(keeping R).pure hQ, hmake (Unbudgeted.read fun _ _ _ => rfl)⟩
  bind hx hf := ⟨hx.1.bind fun w' a hw hQ => (hf w' a hw hQ).1, hbind hx.1 hx.2 hf⟩
  fail he := ⟨Realm.runs_halt rfl, hhalt he.ne_budgetExceeded⟩
  make hop hw hstore hQ := ⟨Realm.runs_make hop hw hstore hQ, hmake hop⟩
  mayHang := True
  hang _ := ⟨Realm.runs_halt rfl, hhalt nofun⟩
  looseEq h := absurd trivial h
  encode h := absurd trivial h

/-- The judgment that the first one of two computations keeps the realm, and that both are in a
relation that holds where nothing is done that has to do with budgets, and that is passed on. -/
def Judgment.keepingFirst {World : Type} (R : Realm World)
    (rel : {α : Type} → World → Eval α → Eval α → Prop)
    (hmake : ∀ {α : Type} {w : World} {op : Store → α × Store}, Unbudgeted op →
      rel w (Eval.make op) (Eval.make op))
    (hhalt : ∀ {α : Type} {w : World} {halt : Halt},
      (∀ limit, halt ≠ .error (.budgetExceeded limit)) →
        rel w (fun s => (Except.error halt, s) : Eval α) fun s => (.error halt, s))
    (hbind : ∀ {α β : Type} {w : World} {x y : Eval α} {f g : α → Eval β} {Q : World → α → Prop}
      {P : World → β → Prop}, R.Runs w x Q → rel w x y →
      (∀ w' a, R.later w w' → Q w' a → R.Runs w' (f a) P ∧ rel w' (f a) (g a)) →
        rel w (x.bind f) (y.bind g)) : Judgment R where
  judge w x y Q := R.Runs w x Q ∧ rel w x y
  pure hQ := ⟨(keeping R).pure hQ, hmake (Unbudgeted.read fun _ _ _ => rfl)⟩
  bind hx hf := ⟨hx.1.bind fun w' a hw hQ => (hf w' a hw hQ).1, hbind hx.1 hx.2 hf⟩
  fail he := ⟨Realm.runs_halt rfl, hhalt he.ne_budgetExceeded⟩
  make hop hw hstore hQ := ⟨Realm.runs_make hop hw hstore hQ, hmake hop⟩
  mayHang := True
  hang _ := ⟨Realm.runs_halt rfl, hhalt nofun⟩
  looseEq h := absurd trivial h
  encode h := absurd trivial h

namespace Realm

variable {World : Type} {R : Realm World} {w : World}

theorem respects_evaluateWithin (n : Nat) :
    (Judgment.keeping R).Respects (evaluateWithin n) (evaluateWithin n) :=
  Judgment.respects_evaluateWithin (fun _ => .keeping R) 0 (fun _ _ _ => Realm.runs_halt rfl)
    (fun _ _ _ _ _ hscope h => Realm.runs_within hscope h) n

theorem respects_evaluate : (Judgment.keeping R).Respects evaluate evaluate :=
  fun w => respects_evaluateWithin ((R.store w).headroom + 1) w

/-- Evaluating a form keeps every realm. -/
theorem runs_evaluate {form : Value} {scope : FrameId} (hform : R.value w form)
    (hscope : R.scope w scope) : R.Runs w (evaluate form scope) R.value :=
  respects_evaluate w form scope hform hscope

/-- Calling a value keeps every realm, with any fuel. What cannot be called is refused. -/
theorem runs_callWithin {scope : FrameId} {callee : Value} {args : List Value} (n : Nat)
    (hscope : R.scope w scope) (hcallee : R.value w callee) (hargs : R.values w args) :
    R.Runs w ((evaluateWithin n).call scope callee args) R.value := by
  cases hcallable : (R.store w).isCallable scope callee with
  | true => exact Judgment.call (respects_evaluateWithin n) hscope hcallable hcallee hargs
  | false =>
    obtain ⟨e, he⟩ := Evaluator.call_of_not_callable (evaluateWithin n) args hcallable
    exact runs_halt he

theorem runs_call {scope : FrameId} {callee : Value} {args : List Value} (hscope : R.scope w scope)
    (hcallee : R.value w callee) (hargs : R.values w args) :
    R.Runs w (call scope callee args) R.value :=
  runs_callWithin ((R.store w).headroom + 1) hscope hcallee hargs

/-- Evaluating a text keeps every realm. -/
theorem runs_evalNamed (engine : Engine) (sourceName source : String)
    (hroot : R.scope w engine.root) : R.Runs w (engine.evalNamed sourceName source) R.value :=
  (Judgment.keeping R).evalNamed respects_evaluate engine sourceName source hroot fun _ =>
    runs_halt rfl

end Realm

end ConfinedLisp
