import ConfinedLisp.Proofs.BudgetExactness
import ConfinedLisp.Proofs.Isolation
import ConfinedLisp.Proofs.Observation

/-!
# Metering

Every runtime meters what goes on in it: how many applications are in progress, and how many there
have been. Whatever is evaluated gives back the places it took. No meter exceeds its limit. The steps
count the lists that passed the check for a step, and the budget is exceeded only if they are used up.

## Main definitions

- `Store.GivesBack`: as many applications are in progress as before.
- `Runtime.KeepsTo`: a runtime is within its limits.
- `Observer.tally`: an observer that counts the lists that pass the check for a step.
- `Store.Exhausted`: a runtime has no step left.
- `Eval.Metered`: a tally counts the steps, and a budget that is said to be exceeded is.

## Main results

- `givesBack_evaluate`, `givesBack_call`, `givesBack_invoke`, `givesBack_applyCallable`: places are
  given back.
- `Runtime.KeepsTo.evalSource`: a runtime stays within its limits.
- `Realm.metering_evalSource`: texts are metered.
-/

namespace ConfinedLisp

/-! ### Places are given back -/

/-- Every runtime has as many applications in progress as before, and no fewer steps. -/
def Store.GivesBack (s t : Store) : Prop :=
  ∀ (i : RuntimeId) (r : Runtime), s.runtimes[i]? = some r →
    ∃ r', t.runtimes[i]? = some r' ∧ r'.limits = r.limits ∧ r'.depth = r.depth ∧ r.steps ≤ r'.steps

theorem Realm.Runs.givesBack {α : Type} {s : Store} {x : Eval α} {Q : Store → α → Prop}
    (h : Realm.everything.Runs s x Q) : s.GivesBack (x s).2 := by
  intro i r hr
  obtain ⟨r', hr', hext⟩ := h.store_grows.runtimes i r hr
  have hstanding : (x s).2.standings[i]? = s.standings[i]? := by rw [h.standings]
  rw [Store.getElem?_standings, Store.getElem?_standings, hr, hr'] at hstanding
  obtain ⟨hlimits, hdepth⟩ := Prod.mk.inj (Option.some.inj hstanding)
  exact ⟨r', hr', hlimits, hdepth, hext.steps⟩

theorem givesBack_evaluate (form : Value) (scope : FrameId) (s : Store) :
    s.GivesBack (evaluate form scope s).2 :=
  (Realm.runs_evaluate (R := .everything) (w := s) (fun _ _ => trivial) trivial).givesBack

theorem givesBack_call (scope : FrameId) (callee : Value) (args : List Value) (s : Store) :
    s.GivesBack (call scope callee args s).2 :=
  (Realm.runs_call (R := .everything) (w := s) trivial (fun _ _ => trivial)
    fun _ _ _ _ => trivial).givesBack

theorem givesBack_invoke (scope : FrameId) (c : Callable Value) (args : List Value) (s : Store) :
    s.GivesBack (invoke scope c args s).2 := by
  have hev := Realm.respects_evaluateWithin (R := .everything) (s.headroom + 1)
  have hargs : Realm.everything.values s args := fun _ _ _ _ => trivial
  exact (Judgment.invokeWith hev trivial (fun _ _ => trivial) hargs fun k _ _ =>
    Judgment.runControl hev k trivial hargs).givesBack

theorem givesBack_applyCallable (scope : FrameId) (c : Callable Value) (operands : List Value)
    (s : Store) : s.GivesBack (applyCallable scope c operands s).2 := by
  have hev := Realm.respects_evaluateWithin (R := .everything) (s.freshened.headroom + 1)
  exact Realm.Runs.givesBack (s := s.freshened)
    (Judgment.apply hev trivial (fun _ _ => trivial) fun _ _ => trivial)

theorem givesBack_evalSource (engine : Engine) (source : String) (s : Store) :
    s.GivesBack (engine.evalSource source s).2 :=
  (Realm.runs_evalNamed (R := .everything) (w := s) engine Engine.defaultSourceName source
    trivial).givesBack

/-! ### No meter exceeds its limit -/

/-- The meters of a runtime are within its limits. -/
def Runtime.WithinLimits (r : Runtime) : Prop :=
  r.depth ≤ r.limits.maxDepth ∧ ∀ limit, r.limits.stepLimit = some limit → r.steps ≤ limit

namespace Runtime

variable {r : Runtime}

theorem WithinLimits.enter (h : r.WithinLimits) : r.enter.2.WithinLimits := by
  obtain ⟨hdepth, hsteps⟩ := h
  rcases r.hasStep_or with hstep | ⟨limit, hlimit, hfull⟩
  · by_cases hplace : r.depth < r.limits.maxDepth
    · rw [enter_of_place hstep hplace]
      exact ⟨hplace, hstep⟩
    · rw [enter_of_no_place hstep (by omega)]
      exact ⟨hdepth, hstep⟩
  · rw [enter_of_no_step hlimit hfull]
    exact ⟨hdepth, hsteps⟩

theorem WithinLimits.leave (h : r.WithinLimits) : r.leave.WithinLimits :=
  ⟨Nat.le_trans (Nat.sub_le ..) h.1, h.2⟩

/-- A runtime has certain limits and is within them. -/
def KeepsTo (i : RuntimeId) (limits : Limits) (runtimes : Array Runtime) : Prop :=
  ∃ r, runtimes[i]? = some r ∧ r.limits = limits ∧ r.WithinLimits

theorem limits_enter (r : Runtime) : r.enter.2.limits = r.limits := by
  rcases r.standing_enter with ⟨e, -, hstanding⟩ | ⟨-, -, hstanding⟩
  · exact congrArg Prod.fst hstanding
  · exact congrArg Prod.fst hstanding

end Runtime

namespace Store

variable {i : RuntimeId} {limits : Limits}

theorem keepsTo_enter (s : Store) (f : FrameId) (h : Runtime.KeepsTo i limits s.runtimes) :
    Runtime.KeepsTo i limits (s.enter f).2.runtimes := by
  obtain ⟨r, hr, hlimits, hwithin⟩ := h
  obtain ⟨hlt, -⟩ := Array.getElem?_eq_some_iff.1 hr
  rcases s.runtime?_cases f with hnone | ⟨j, r', hj, hr'⟩
  · rw [enter_of_no_runtime hnone]
    exact ⟨r, hr, hlimits, hwithin⟩
  · rw [enter_of_runtime hj hr']
    by_cases hij : j = i
    · subst hij
      obtain rfl : r = r' := Option.some.inj (hr.symm.trans hr')
      exact ⟨r.enter.2, by simp [hlt], r.limits_enter.trans hlimits, hwithin.enter⟩
    · exact ⟨r, by simp [hij, hr], hlimits, hwithin⟩

theorem keepsTo_leave (s : Store) (f : FrameId) (h : Runtime.KeepsTo i limits s.runtimes) :
    Runtime.KeepsTo i limits (s.leave f).runtimes := by
  obtain ⟨r, hr, hlimits, hwithin⟩ := h
  unfold leave
  split
  · next j _ =>
    by_cases hij : j = i
    · exact ⟨r.leave, by simp [Array.getElem?_modify, hij, hr], hlimits, hwithin.leave⟩
    · exact ⟨r, by simp [Array.getElem?_modify, hij, hr], hlimits, hwithin⟩
  · exact ⟨r, hr, hlimits, hwithin⟩

end Store

namespace Realm

variable {World : Type}

/-- A realm with a guard on the runtimes that entering and leaving an application keep. -/
def guarded (R : Realm World) (P : Array Runtime → Prop)
    (henter : ∀ (s : Store) f, P s.runtimes → P (s.enter f).2.runtimes)
    (hleave : ∀ (s : Store) f, P s.runtimes → P (s.leave f).runtimes) :
    Realm {w : World // P (R.store w).runtimes} where
  store w := R.store w.1
  later w w' := R.later w.1 w'.1
  later_refl w := R.later_refl w.1
  later_trans := R.later_trans
  grows := R.grows
  part w := R.part w.1
  part_later := R.part_later
  part_plain w := R.part_plain w.1
  scope w := R.scope w.1
  part_scope := R.part_scope
  captured w := R.captured w.1
  captured_of_scope := R.captured_of_scope
  part_function := R.part_function
  part_operative := R.part_operative
  runs w := R.runs w.1
  runs_foreign := R.runs_foreign
  runs_constructor := R.runs_constructor
  part_foreign := R.part_foreign
  part_constructor := R.part_constructor
  part_static := R.part_static
  get := R.get
  fresh := fun {w} items h =>
    have ⟨w', hw, hstore, hpart⟩ := R.fresh items h
    ⟨⟨w', by rw [hstore]; exact w.2⟩, hw, hstore, hpart⟩
  bindAll := fun {w f pairs} hf h =>
    have ⟨w', hw, hstore⟩ := R.bindAll hf h
    ⟨⟨w', by rw [hstore, (Unbudgeted.bindAll f pairs).runtimes]; exact w.2⟩, hw, hstore⟩
  define := fun {w f v} name hf hv =>
    have ⟨w', hw, hstore⟩ := R.define name hf hv
    ⟨⟨w', by rw [hstore]; exact w.2⟩, hw, hstore⟩
  child := fun {w f} hf =>
    have ⟨w', hw, hstore, hscope⟩ := R.child hf
    ⟨⟨w', by rw [hstore]; exact w.2⟩, hw, hstore, hscope⟩
  detached := fun {w f} hf =>
    have ⟨w', hw, hstore, hscope⟩ := R.detached hf
    ⟨⟨w', by rw [hstore]; exact w.2⟩, hw, hstore, hscope⟩
  vector := fun {w items} hruns h =>
    have ⟨w', hw, hstore, hpart⟩ := R.vector hruns h
    ⟨⟨w', by rw [hstore]; exact w.2⟩, hw, hstore, hpart⟩
  extend := fun {w v items} hv h =>
    have ⟨w', hw, hstore⟩ := R.extend hv h
    ⟨⟨w', by rw [hstore]; exact w.2⟩, hw, hstore⟩
  items := R.items
  enter := fun {w f} hf =>
    have ⟨w', hw, hstore⟩ := R.enter hf
    ⟨⟨w', by rw [hstore]; exact henter _ f w.2⟩, hw, hstore⟩
  leave := fun {w f} hf =>
    have ⟨w', hw, hstore⟩ := R.leave hf
    ⟨⟨w', by rw [hstore]; exact hleave _ f w.2⟩, hw, hstore⟩

/-- The realm of the values in the territory of a runtime that keeps to its limits. -/
def limited (owner : VectorId → RuntimeId) (i : RuntimeId) (limits : Limits) :
    Realm {w : Store.Territory owner i // Runtime.KeepsTo i limits w.store.runtimes} :=
  (Store.territory owner i).guarded (Runtime.KeepsTo i limits) Store.keepsTo_enter
    Store.keepsTo_leave

theorem home_limited {owner : VectorId → RuntimeId} {i : RuntimeId} {limits : Limits}
    (w : {w : Store.Territory owner i // Runtime.KeepsTo i limits w.store.runtimes}) (f : FrameId)
    (h : (limited owner i limits).scope w f) :
    ∃ r, ((limited owner i limits).store w).runtimeId? f = some i ∧
      ((limited owner i limits).store w).runtimes[i]? = some r := by
  obtain ⟨r, hr, -⟩ := w.2
  exact ⟨r, h, hr⟩

end Realm

/-- A runtime keeps to its limits whatever text is evaluated. -/
theorem Runtime.KeepsTo.evalSource {s : Store} {i : RuntimeId} {limits : Limits}
    (h : Runtime.KeepsTo i limits s.runtimes) (engine : Engine) (source : String) :
    Runtime.KeepsTo i limits (engine.evalSource source s).2.runtimes := by
  let R := Realm.everything.guarded (Runtime.KeepsTo i limits) Store.keepsTo_enter
    Store.keepsTo_leave
  obtain ⟨w, -, hstore, -⟩ := Realm.runs_evalNamed (R := R) (w := ⟨s, h⟩) engine
    Engine.defaultSourceName source trivial
  exact hstore ▸ w.2

/-- A store with closed territories, as a world of a runtime that keeps to its limits. -/
theorem Store.Partitioned.exists_limited {s : Store} {owner : VectorId → RuntimeId}
    (h : s.Partitioned owner) {i : RuntimeId} {limits : Limits}
    (hkeeps : Runtime.KeepsTo i limits s.runtimes) :
    ∃ owner', ∃ w : {w : Territory owner' i // Runtime.KeepsTo i limits w.store.runtimes},
      w.1.store = s := by
  -- New vectors go to this runtime.
  let owner' : VectorId → RuntimeId := fun j => if j < s.vectors.size then owner j else i
  have hold : ∀ j, j < s.vectors.size → owner' j = owner j := fun j hj => if_pos hj
  have hnew : ∀ j, s.vectors.size ≤ j → owner' j = i := fun j hj => if_neg (Nat.not_lt.2 hj)
  exact ⟨owner', ⟨⟨s, h.reassign hold, hnew⟩, hkeeps⟩, rfl⟩

/-! ### The steps are counted -/

/-- Whether there is a step left. -/
def Runtime.hasStep (r : Runtime) : Bool :=
  match r.limits.stepLimit with
  | some limit => r.steps < limit
  | none => true

theorem Runtime.hasStep_iff {r : Runtime} : r.hasStep = true ↔ r.HasStep := by
  unfold hasStep HasStep
  cases r.limits.stepLimit with
  | none => simp
  | some limit => simp

namespace Store

/-- The runtime of a tally: nothing can be evaluated in it, and its steps are the count. -/
def tallyRuntime (count : Nat) : Runtime := ⟨.empty, ⟨0, none⟩, 0, count⟩

/-- A store with a tally behind its runtimes. No frame is in the runtime of the tally. -/
def tallied (s : Store) (count : Nat) : Store :=
  s.rebudget (s.runtimes.push (tallyRuntime count))

/-- A store with one more in its tally. -/
def countOne (s : Store) : Store :=
  s.rebudget (s.runtimes.modify (s.runtimes.size - 1) fun r => { r with steps := r.steps + 1 })

/-- The steps that a runtime has taken. -/
def stepsOf (s : Store) (i : RuntimeId) : Nat := (s.runtimes[i]?.map (·.steps)).getD 0

end Store

/-- The observer that keeps a tally of the lists whose evaluation passes the check for a step. -/
def Observer.tally : Observer := fun scope stack s =>
  match stack with
  | .request :: _ =>
    match s.runtime? scope with
    | some r => (.ok (), if r.hasStep then s.countOne else s)
    | none => (.ok (), s)
  | _ => (.ok (), s)

namespace Store

variable {s : Store} {i : RuntimeId} {r : Runtime} {f : FrameId}

theorem offerSame_tallied (s : Store) (count : Nat) :
    Runtime.OfferSame s.runtimes (s.tallied count).runtimes := by
  intro i
  unfold Runtime.registryOf
  rw [show (s.tallied count).runtimes = s.runtimes.push (tallyRuntime count) from rfl,
    Array.getElem?_push]
  split
  · next hi => simp [hi, tallyRuntime]
  · rfl

theorem getElem?_tallied (hr : s.runtimes[i]? = some r) (count : Nat) :
    (s.tallied count).runtimes[i]? = some r := by
  obtain ⟨hi, -⟩ := Array.getElem?_eq_some_iff.1 hr
  rw [show (s.tallied count).runtimes = s.runtimes.push (tallyRuntime count) from rfl,
    Array.getElem?_push, if_neg (Nat.ne_of_lt hi), hr]

theorem countOne_tallied (s : Store) (count : Nat) :
    (s.tallied count).countOne = s.tallied (count + 1) := by
  have hruntimes : (s.tallied count).countOne.runtimes = (s.tallied (count + 1)).runtimes := by
    refine Array.ext_getElem? fun j => ?_
    simp only [countOne, tallied, rebudget, Array.size_push, Nat.add_sub_cancel,
      Array.getElem?_modify, Array.getElem?_push]
    by_cases hj : s.runtimes.size = j
    · simp [hj, tallyRuntime]
    · simp [hj, Ne.symm hj]
  calc (s.tallied count).countOne
      = s.rebudget (s.tallied count).countOne.runtimes := rfl
    _ = s.tallied (count + 1) := by rw [hruntimes]; rfl

theorem headroom_tallied (s : Store) (count : Nat) :
    (s.tallied count).headroom = s.headroom := by
  simp [headroom, tallied, rebudget, tallyRuntime]

/-- A tally does not show in entering. -/
theorem enter_tallied (hi : s.runtimeId? f = some i) (hr : s.runtimes[i]? = some r)
    (count : Nat) : (s.tallied count).enter f = ((s.enter f).1, (s.enter f).2.tallied count) := by
  obtain ⟨hlt, -⟩ := Array.getElem?_eq_some_iff.1 hr
  have hi' : (s.tallied count).runtimeId? f = some i := hi
  rw [enter_of_runtime hi hr, enter_of_runtime hi' (getElem?_tallied hr count)]
  have hruntimes : (s.tallied count).runtimes.setIfInBounds i r.enter.2 =
      (s.runtimes.setIfInBounds i r.enter.2).push (tallyRuntime count) := by
    refine Array.ext_getElem? fun j => ?_
    simp only [tallied, rebudget, Array.getElem?_setIfInBounds, Array.getElem?_push,
      Array.size_push, Array.size_setIfInBounds]
    by_cases hij : i = j
    · subst hij
      simp [hlt, Nat.ne_of_lt hlt]
      omega
    · simp [hij]
  simp only [hruntimes]
  rfl

/-- A tally does not show in leaving. -/
theorem leave_tallied (hi : s.runtimeId? f = some i) (hlt : i < s.runtimes.size) (count : Nat) :
    (s.tallied count).leave f = (s.leave f).tallied count := by
  have hruntimes : (s.tallied count).runtimes.modify i Runtime.leave =
      (s.runtimes.modify i Runtime.leave).push (tallyRuntime count) := by
    refine Array.ext_getElem? fun j => ?_
    simp only [tallied, rebudget, Array.getElem?_modify, Array.getElem?_push, Array.size_modify]
    by_cases hij : i = j
    · subst hij
      simp [Nat.ne_of_lt hlt]
    · simp [hij]
  have hi' : (s.tallied count).runtimeId? f = some i := hi
  unfold leave
  rw [hi, hi']
  simp only [hruntimes]
  rfl

end Store

/-- A computation with a tally does the same as one without, and the tally counts the steps that a
runtime takes. -/
def Eval.CountsSteps {α : Type} (i : RuntimeId) (s : Store) (x y : Eval α) : Prop :=
  ∀ count, x (s.tallied count) =
    ((y s).1, (y s).2.tallied (count + ((y s).2.stepsOf i - s.stepsOf i)))

namespace Store

variable {s t : Store} {i : RuntimeId}

theorem stepsOf_eq {r : Runtime} (hr : s.runtimes[i]? = some r) : s.stepsOf i = r.steps := by
  simp [stepsOf, hr]

/-- Steps are never given back. -/
theorem Grows.stepsOf_le (h : s.Grows t) (i : RuntimeId) : s.stepsOf i ≤ t.stepsOf i := by
  cases hr : s.runtimes[i]? with
  | none => simp [stepsOf, hr]
  | some r =>
    obtain ⟨r', hr', hext⟩ := h.runtimes i r hr
    rw [stepsOf_eq hr, stepsOf_eq hr']
    exact hext.steps

theorem stepsOf_leave (s : Store) (f : FrameId) (i : RuntimeId) :
    (s.leave f).stepsOf i = s.stepsOf i := by
  unfold leave
  split
  · next j _ =>
    unfold stepsOf
    rw [Array.getElem?_modify]
    split
    · cases s.runtimes[i]? <;> rfl
    · rfl
  · rfl

/-- The step of an application is taken exactly if there is one left. -/
theorem stepsOf_enter {f : FrameId} {r : Runtime} (hi : s.runtimeId? f = some i)
    (hr : s.runtimes[i]? = some r) :
    (s.enter f).2.stepsOf i = s.stepsOf i + if r.hasStep then 1 else 0 := by
  obtain ⟨hlt, -⟩ := Array.getElem?_eq_some_iff.1 hr
  have hentered : (s.enter f).2.stepsOf i = r.enter.2.steps := by
    rw [enter_of_runtime hi hr]
    exact stepsOf_eq (by simp [hlt])
  rw [hentered, stepsOf_eq hr]
  by_cases hstep : r.HasStep
  · rw [Runtime.steps_enter hstep, if_pos (Runtime.hasStep_iff.2 hstep)]
  · obtain ⟨limit, hlimit, hfull⟩ := r.hasStep_or.resolve_left hstep
    rw [Runtime.enter_of_no_step hlimit hfull, if_neg (mt Runtime.hasStep_iff.1 hstep)]
    rfl

end Store

namespace Eval.CountsSteps

variable {α β : Type} {i : RuntimeId} {s : Store} {x y : Eval α}

/-- What takes no step and does the same with a tally. -/
theorem of_runtimes (hruntimes : (y s).2.runtimes = s.runtimes)
    (h : ∀ count, x (s.tallied count) = ((y s).1, (y s).2.tallied count)) :
    CountsSteps i s x y := by
  intro count
  rw [h, Store.stepsOf, Store.stepsOf, hruntimes, Nat.sub_self]
  rfl

theorem make {op : Store → α × Store} (hop : Unbudgeted op) :
    CountsSteps i s (Eval.make op) (Eval.make op) := by
  refine of_runtimes (hop.runtimes s) fun count => ?_
  have hrebudget := hop.rebudget s _ (s.offerSame_tallied count)
  have hsame : (op s).2.rebudget (s.tallied count).runtimes = (op s).2.tallied count := by
    unfold Store.tallied
    rw [hop.runtimes s]
    rfl
  unfold Eval.make
  rw [show op (s.tallied count) = _ from hrebudget, hsame]

theorem bind {k k' : α → Eval β} (hgrows : s.Grows (y s).2) (hx : CountsSteps i s x y)
    (hk : ∀ a, (y s).1 = .ok a → (y s).2.Grows (k' a (y s).2).2 ∧
      CountsSteps i (y s).2 (k a) (k' a)) : CountsSteps i s (x.bind k) (y.bind k') := by
  intro count
  have hfirst := hx count
  have hle := hgrows.stepsOf_le i
  cases hr : y s with
  | mk result t =>
    rw [hr] at hfirst hle hk
    cases result with
    | error halt => rw [Eval.bind_of_error hfirst, Eval.bind_of_error hr]
    | ok a =>
      obtain ⟨hgrows', hcounts⟩ := hk a rfl
      have hle' := hgrows'.stepsOf_le i
      rw [Eval.bind_of_ok hfirst, Eval.bind_of_ok hr, hcounts]
      -- The steps of both parts add up.
      congr 2
      dsimp only at hle hle' ⊢
      omega

/-- An application takes a step exactly if its list passes the check. -/
theorem within {f : FrameId} {r : Runtime} {stack : List Activity} {x y : Eval Value}
    (hi : s.runtimeId? f = some i) (hr : s.runtimes[i]? = some r)
    (hx : (s.enter f).1 = .ok () → (s.enter f).2.Grows (y (s.enter f).2).2 ∧
      CountsSteps i (s.enter f).2 x y) :
    CountsSteps i s
      (Observer.tally.during f (.request :: stack)
        (Eval.within f (Observer.tally.during f (.place :: stack) x)))
      (Eval.within f y) := by
  intro count
  let count' := count + if r.hasStep then 1 else 0
  have hruntime : (s.tallied count).runtime? f = some r :=
    (congrArg (Option.bind · _) hi).trans (Store.getElem?_tallied hr count)
  have hrequest : Observer.tally f (.request :: stack) (s.tallied count) =
      (.ok (), s.tallied count') := by
    simp only [Observer.tally, hruntime, count']
    split
    · rw [Store.countOne_tallied]
    · rfl
  have henter := Store.enter_tallied hi hr count'
  have hsteps := Store.stepsOf_enter hi hr
  rw [show Observer.tally.during f _ _ _ = _ from Eval.bind_of_ok hrequest _]
  cases hok : (s.enter f).1 with
  | error e =>
    rw [Eval.within_of_error _ (by rw [henter, hok]), Eval.within_of_error y hok, henter, hsteps,
      Nat.add_sub_cancel_left]
  | ok u =>
    obtain ⟨hgrows, hcounts⟩ := hx hok
    have hi' := ((s.grows_enter f).trans hgrows).runtimeId? hi
    have hlt : i < (y (s.enter f).2).2.runtimes.size := by
      rw [((s.grows_enter f).trans hgrows).runtimeCount]
      exact (Array.getElem?_eq_some_iff.1 hr).1
    have hinner : Observer.tally.during f (.place :: stack) x ((s.enter f).2.tallied count') = _ :=
      hcounts count'
    rw [Eval.within_of_ok _ (by rw [henter, hok]), Eval.within_of_ok y hok, henter, hinner,
      Store.leave_tallied hi' hlt, Store.stepsOf_leave]
    -- One step for the list, if there was one, and those taken inside.
    have hle := hgrows.stepsOf_le i
    congr 2
    omega

end Eval.CountsSteps

/-! ### The steps are used up -/

/-- A runtime has no step left of those that its limit allows. -/
def Store.Exhausted (s : Store) (i : RuntimeId) (limit : Nat) : Prop :=
  ∃ r, s.runtimes[i]? = some r ∧ r.limits.stepLimit = some limit ∧ limit ≤ r.steps

theorem Store.Exhausted.of_grows {s t : Store} {i : RuntimeId} {limit : Nat}
    (h : s.Exhausted i limit) (hgrows : s.Grows t) : t.Exhausted i limit := by
  obtain ⟨r, hr, hlimit, hfull⟩ := h
  obtain ⟨r', hr', hext⟩ := hgrows.runtimes i r hr
  exact ⟨r', hr', hext.limits ▸ hlimit, Nat.le_trans hfull hext.steps⟩

/-- If a computation says that the budget is exceeded, then it is. -/
def Eval.TellsExhaustion {α : Type} (i : RuntimeId) (s : Store) (x : Eval α) : Prop :=
  ∀ limit, (x s).1 = .error (.error (.budgetExceeded limit)) → (x s).2.Exhausted i limit

namespace Eval.TellsExhaustion

variable {α β : Type} {i : RuntimeId} {s : Store} {x : Eval α}

theorem of_ok {a : α} (h : (x s).1 = .ok a) : TellsExhaustion i s x := by
  intro limit hlimit
  rw [h] at hlimit
  cases hlimit

theorem of_ne {halt : Halt} (h : (x s).1 = .error halt)
    (hne : ∀ limit, halt ≠ .error (.budgetExceeded limit)) : TellsExhaustion i s x := by
  intro limit hlimit
  rw [h] at hlimit
  cases hlimit
  exact absurd rfl (hne limit)

theorem bind {f : α → Eval β} (hx : TellsExhaustion i s x)
    (hf : ∀ a, (x s).1 = .ok a → TellsExhaustion i (x s).2 (f a)) :
    TellsExhaustion i s (x.bind f) := by
  intro limit hlimit
  cases hr : x s with
  | mk result t =>
    unfold TellsExhaustion at hx
    rw [hr] at hx hf
    cases result with
    | error halt =>
      rw [Eval.bind_of_error hr] at hlimit ⊢
      cases hlimit
      exact hx limit rfl
    | ok a =>
      rw [Eval.bind_of_ok hr] at hlimit ⊢
      exact hf a rfl limit hlimit

/-- An application is refused for want of a step only if there is none. -/
theorem within {f : FrameId} {r : Runtime} {x : Eval Value} (hi : s.runtimeId? f = some i)
    (hr : s.runtimes[i]? = some r)
    (hx : (s.enter f).1 = .ok () → TellsExhaustion i (s.enter f).2 x) :
    TellsExhaustion i s (Eval.within f x) := by
  intro limit hlimit
  cases hok : (s.enter f).1 with
  | error e =>
    rw [Eval.within_of_error x hok] at hlimit ⊢
    cases hlimit
    rw [Store.enter_of_runtime hi hr] at hok ⊢
    obtain ⟨hlt, -⟩ := Array.getElem?_eq_some_iff.1 hr
    rcases r.hasStep_or with hstep | ⟨limit', hlimit', hfull⟩
    · rcases Nat.lt_or_ge r.depth r.limits.maxDepth with hdepth | hdepth
      · rw [Runtime.enter_of_place hstep hdepth] at hok
        cases hok
      · rw [Runtime.enter_of_no_place hstep hdepth] at hok
        cases hok
    · rw [Runtime.enter_of_no_step hlimit' hfull] at hok ⊢
      cases hok
      exact ⟨r, by simp [hlt], hlimit', hfull⟩
  | ok u =>
    rw [Eval.within_of_ok x hok] at hlimit ⊢
    exact (hx hok limit hlimit).of_grows (Store.grows_leave _ f)

end Eval.TellsExhaustion

/-! ### Metering in a realm -/

/-- A computation is metered: a tally counts the steps of a runtime, and the budget of this one is
exceeded if that is said. -/
structure Eval.Metered {α : Type} (i : RuntimeId) (s : Store) (x y : Eval α) : Prop where
  counts : Eval.CountsSteps i s x y
  tells : Eval.TellsExhaustion i s y

theorem Eval.Metered.bind {World α β : Type} {R : Realm World} {i : RuntimeId} {w : World}
    {x y : Eval α} {f g : α → Eval β} {Q : World → α → Prop} {P : World → β → Prop}
    (hruns : R.Runs w y Q) (hx : Eval.Metered i (R.store w) x y)
    (hf : ∀ w' a, R.later w w' → Q w' a →
      R.Runs w' (g a) P ∧ Eval.Metered i (R.store w') (f a) (g a)) :
    Eval.Metered i (R.store w) (x.bind f) (y.bind g) := by
  -- What comes after a value is judged in the world that the value was given in.
  have hnext : ∀ a, (y (R.store w)).1 = .ok a →
      (y (R.store w)).2.Grows (g a (y (R.store w)).2).2 ∧
        Eval.Metered i (y (R.store w)).2 (f a) (g a) := by
    intro a ha
    obtain ⟨w', hw, hstore, -, hQ⟩ := hruns
    rw [← hstore]
    obtain ⟨hruns', hmetered⟩ := hf w' a hw (hQ a ha)
    exact ⟨hruns'.grows, hmetered⟩
  constructor
  · exact hx.counts.bind hruns.grows fun a ha => ⟨(hnext a ha).1, (hnext a ha).2.counts⟩
  · exact hx.tells.bind fun a ha => (hnext a ha).2.tells

/-- The judgment that a computation is metered. -/
def Judgment.metering {World : Type} (R : Realm World) (i : RuntimeId) : Judgment R :=
  keepingWith R (fun w => Eval.Metered i (R.store w)) (fun hop => ⟨.make hop, .of_ok rfl⟩)
    (fun hne => ⟨.of_runtimes rfl fun _ => rfl, .of_ne rfl hne⟩) Eval.Metered.bind

namespace Realm

variable {World : Type} {R : Realm World} {i : RuntimeId} {w : World}

/-- Evaluation is metered in a realm of scopes of one runtime. -/
theorem respects_metering
    (hhome : ∀ w f, R.scope w f → ∃ r, (R.store w).runtimeId? f = some i ∧
      (R.store w).runtimes[i]? = some r) (n : Nat) :
    ∀ stack, Activity.Nested stack →
      (Judgment.metering R i).Respects (Observer.tally.evaluateWithin n stack)
        (evaluateWithin n) := by
  refine Judgment.respects_observed (J := fun _ => .metering R i) ?_ ?_ ?_ n
  · intro w scope activity stack x y hactivation hnested hscope hxy
    -- The tally is not about callables.
    cases activity with
    | application c | call c args => exact hxy
    | request | place => cases hactivation
  · exact fun stack w => (Judgment.metering R i).hang trivial
  · intro stack w scope x y hnested hscope hxy
    obtain ⟨r, hi, hr⟩ := hhome w scope hscope
    obtain ⟨w₁, hw₁, hstore₁⟩ := R.enter hscope
    obtain ⟨hruns, hcounts, htells⟩ := hxy w₁ hw₁
    have hgrows := hruns.grows
    rw [hstore₁] at hcounts htells hgrows
    refine ⟨runs_within hscope fun w' hw => (hxy w' hw).1, ?_, ?_⟩
    · exact .within hi hr fun _ => ⟨hgrows, hcounts⟩
    · exact .within hi hr fun _ => htells

/-- Texts are metered. -/
theorem metering_evalSource
    (hhome : ∀ w f, R.scope w f → ∃ r, (R.store w).runtimeId? f = some i ∧
      (R.store w).runtimes[i]? = some r) {engine : Engine} (hroot : R.scope w engine.root)
    (source : String) :
    Eval.Metered i (R.store w) (Observer.tally.evalSource engine source)
      (engine.evalSource source) := by
  have hev : (Judgment.metering R i).Respects Observer.tally.evaluate evaluate := by
    intro w form scope hform hscope
    obtain ⟨hruns, hcounts, htells⟩ :=
      respects_metering hhome ((R.store w).headroom + 1) [] .nil w form scope hform hscope
    refine ⟨hruns, fun count => ?_, htells⟩
    unfold Observer.evaluate
    rw [Store.headroom_tallied]
    exact hcounts count
  refine (Judgment.evaluateForms hev Engine.defaultSourceName source hroot fun fault => ?_).2
  exact ⟨runs_halt rfl, .of_runtimes rfl fun _ => rfl, .of_ne rfl nofun⟩

end Realm

end ConfinedLisp
