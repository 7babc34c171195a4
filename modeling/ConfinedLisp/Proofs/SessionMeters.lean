import ConfinedLisp.Proofs.Metering

/-!
# The meters of a session

The meters of an engine over a whole session. Between texts nothing is in progress, and the steps
are as many as lists have passed the check for a step since the engine was made. Once the budget has
been exceeded, every list is refused for the rest of the session, so that no text changes anything.

## Main definitions

- `Engine.listsPassed`: how many lists pass the check for a step while a text is evaluated.
- `Session.Counting`: a session in which the lists of one engine are counted.
- `Session.Continues`: a session goes on.

## Main results

- `Store.Exhausted.evalSource`: without steps, a text changes nothing.
- `Session.metered`: the meters of an engine are right at every moment of a session.
-/

namespace ConfinedLisp

/-! ### Without steps -/

/-- Reading makes identities and nothing else. -/
def Eval.OnlyIdentities {α : Type} (x : Eval α) : Prop :=
  ∀ s, ∃ next, (x s).2 = { s with nextIdentity := next }

namespace Eval.OnlyIdentities

variable {α β : Type}

theorem pure (a : α) : OnlyIdentities (Eval.pure a) := fun s => ⟨s.nextIdentity, rfl⟩

theorem bind {x : Eval α} {f : α → Eval β} (hx : x.OnlyIdentities)
    (hf : ∀ a, (f a).OnlyIdentities) : (x.bind f).OnlyIdentities := by
  intro s
  obtain ⟨next, hnext⟩ := hx s
  cases hr : x s with
  | mk result t =>
    rw [hr] at hnext
    cases result with
    | error halt => exact ⟨next, by rw [Eval.bind_of_error hr]; exact hnext⟩
    | ok a =>
      obtain ⟨next', hnext'⟩ := hf a t
      refine ⟨next', ?_⟩
      rw [Eval.bind_of_ok hr, hnext', show t = _ from hnext]

end Eval.OnlyIdentities

mutual

theorem Eval.onlyIdentities_ofForm (form : Form) : (Eval.ofForm form).OnlyIdentities := by
  cases form with
  | list items =>
    rw [Eval.ofForm]
    exact (Eval.onlyIdentities_ofForms items).bind fun vs s => ⟨_, rfl⟩
  | _ => exact .pure _

theorem Eval.onlyIdentities_ofForms (forms : List Form) : (Eval.ofForms forms).OnlyIdentities := by
  cases forms with
  | nil => exact .pure _
  | cons form rest =>
    rw [Eval.ofForms]
    exact (Eval.onlyIdentities_ofForm form).bind fun v =>
      (Eval.onlyIdentities_ofForms rest).bind fun vs => .pure _

end

theorem Eval.onlyIdentities_readForms (sourceName source : String) :
    (Eval.readForms sourceName source).OnlyIdentities := by
  unfold Eval.readForms
  split
  · exact Eval.onlyIdentities_ofForms _
  · exact fun s => ⟨s.nextIdentity, rfl⟩

namespace Store.Exhausted

variable {s : Store} {i : RuntimeId} {limit : Nat} {scope : FrameId}

theorem enter (h : s.Exhausted i limit) (hscope : s.runtimeId? scope = some i) :
    s.enter scope = (.error (.budgetExceeded limit), s) := by
  obtain ⟨r, hr, hlimit, hfull⟩ := h
  have hsame : s.runtimes.setIfInBounds i r = s.runtimes := by
    refine Array.ext_getElem? fun j => ?_
    rw [Array.getElem?_setIfInBounds]
    split
    · next hij =>
      subst hij
      rw [if_pos (Array.getElem?_eq_some_iff.1 hr).1, hr]
    · rfl
  rw [enter_of_runtime hscope hr, Runtime.enter_of_no_step hlimit hfull]
  dsimp only
  rw [hsame]

/-- A list with a head is refused. -/
theorem evaluate_list (h : s.Exhausted i limit) (hscope : s.runtimeId? scope = some i)
    (id : Identity) (head : Value) (rest : List Value) :
    evaluate (.list id (head :: rest)) scope s = (.error (.error (.budgetExceeded limit)), s) := by
  have henter := h.enter hscope
  calc evaluate (.list id (head :: rest)) scope s
      = Eval.within scope ((evaluateWithin s.headroom).applyForm scope head rest) s := rfl
    _ = (.error (.error (.budgetExceeded limit)), s) := by
      rw [Eval.within_of_error _ (congrArg Prod.fst henter), henter]

/-- Nothing that is evaluated changes anything. -/
theorem store_evaluate (h : s.Exhausted i limit) (hscope : s.runtimeId? scope = some i)
    (form : Value) : (evaluate form scope s).2 = s := by
  cases form with
  | list id items =>
    cases items with
    | nil => rfl
    | cons head rest => rw [h.evaluate_list hscope]
  | _ => rfl

theorem store_lastFrom (h : s.Exhausted i limit) (hscope : s.runtimeId? scope = some i)
    (last : Value) (forms : List Value) :
    (Evaluator.lastFrom evaluate scope last forms s).2 = s := by
  induction forms generalizing last with
  | nil => rfl
  | cons form rest ih =>
    have hsame := h.store_evaluate hscope form
    rw [show Evaluator.lastFrom evaluate scope last (form :: rest) =
      (evaluate form scope).bind fun v => Evaluator.lastFrom evaluate scope v rest from rfl]
    cases hr : evaluate form scope s with
    | mk result t =>
      rw [hr] at hsame
      subst hsame
      cases result with
      | error halt => rw [Eval.bind_of_error hr]
      | ok v =>
        rw [Eval.bind_of_ok hr]
        exact ih v

/-- A text changes nothing. -/
theorem evalSource (h : s.Exhausted i limit) {engine : Engine}
    (hroot : s.runtimeId? engine.root = some i) (source : String) :
    ∃ next, (engine.evalSource source s).2 = { s with nextIdentity := next } := by
  obtain ⟨next, hnext⟩ := Eval.onlyIdentities_readForms Engine.defaultSourceName source s
  refine ⟨next, ?_⟩
  cases hr : Eval.readForms Engine.defaultSourceName source s with
  | mk result t =>
    rw [hr] at hnext
    obtain rfl : t = _ := hnext
    cases result with
    | error halt => exact congrArg Prod.snd (Eval.bind_of_error hr _)
    | ok forms =>
      refine Eq.trans (congrArg Prod.snd (Eval.bind_of_ok hr _)) ?_
      exact store_lastFrom (s := { s with nextIdentity := next }) h hroot .nil forms

theorem withEngine (h : s.Exhausted i limit) (registry : Registry) (limits : Limits) :
    (s.withEngine registry limits).Exhausted i limit := by
  obtain ⟨r, hr, hrest⟩ := h
  refine ⟨r, ?_, hrest⟩
  rw [runtimes_withEngine, Array.getElem?_push, hr,
    if_neg (Nat.ne_of_lt (Array.getElem?_eq_some_iff.1 hr).1)]

end Store.Exhausted

/-- The budget that is exceeded, if an outcome says so. -/
def Eval.exceeded? {α : Type} : Except Halt α → Option Nat
  | .error (.error (.budgetExceeded limit)) => some limit
  | _ => none

theorem Eval.eq_of_exceeded? {α : Type} {outcome : Except Halt α} {limit : Nat}
    (h : exceeded? outcome = some limit) : outcome = .error (.error (.budgetExceeded limit)) := by
  unfold exceeded? at h
  split at h
  · cases h
    rfl
  · cases h

/-! ### Counting the lists of an engine -/

theorem Store.grows_evalSource (s : Store) (engine : Engine) (source : String) :
    s.Grows (engine.evalSource source s).2 :=
  (Realm.runs_evalNamed (R := .everything) (w := s) engine Engine.defaultSourceName source
    trivial).store_grows

theorem Store.stepsOf_tallied (s : Store) (count : Nat) :
    (s.tallied count).stepsOf s.runtimes.size = count := by
  simp [Store.stepsOf, Store.tallied, Store.rebudget, Store.tallyRuntime]

/-- A new engine has taken no step. -/
theorem Store.stepsOf_withEngine (s : Store) (registry : Registry) (limits : Limits) :
    (s.withEngine registry limits).stepsOf s.runtimes.size = 0 := by
  unfold stepsOf
  rw [runtimes_withEngine, Array.getElem?_push_size]
  rfl

theorem Store.stepsOf_withEngine_of {s : Store} {i : RuntimeId} (hi : i < s.runtimes.size)
    (registry : Registry) (limits : Limits) :
    (s.withEngine registry limits).stepsOf i = s.stepsOf i := by
  unfold stepsOf
  rw [runtimes_withEngine, Array.getElem?_push, if_neg (Nat.ne_of_lt hi)]

/-- How many lists pass the check for a step while a text is evaluated. -/
def Engine.listsPassed (engine : Engine) (source : String) (s : Store) : Nat :=
  (Observer.tally.evalSource engine source (s.tallied 0)).2.stepsOf s.runtimes.size

/-- A tally does not show, and it counts the steps that a text takes. -/
theorem Eval.CountsSteps.evalSource {i : RuntimeId} {s : Store} {engine : Engine} {source : String}
    (h : Eval.CountsSteps i s (Observer.tally.evalSource engine source) (engine.evalSource source))
    (hgrows : s.Grows (engine.evalSource source s).2) :
    Observer.tally.evalSource engine source (s.tallied 0) =
        ((engine.evalSource source s).1,
          (engine.evalSource source s).2.tallied (engine.listsPassed source s)) ∧
      (engine.evalSource source s).2.stepsOf i = s.stepsOf i + engine.listsPassed source s := by
  have htally := h 0
  have hpassed : engine.listsPassed source s =
      0 + ((engine.evalSource source s).2.stepsOf i - s.stepsOf i) := by
    unfold Engine.listsPassed
    rw [htally, ← hgrows.runtimeCount]
    exact Store.stepsOf_tallied _ _
  refine ⟨by rw [hpassed]; exact htally, ?_⟩
  have hle := hgrows.stepsOf_le i
  omega

namespace Session

variable {engines : List Engine} {s : Store} {engine : Engine}

/-- A session in which the lists of one engine that pass the check for a step are counted. -/
inductive Counting (engine : Engine) : List Engine → Store → Nat → Prop where
  | start {engines : List Engine} {s t : Store} {registry : Registry} {limits : Limits} :
      Session engines s → Engine.create registry limits s = (.ok engine, t) →
        Counting engine (engine :: engines) t 0
  | create {engines : List Engine} {s t : Store} {n : Nat} {other : Engine} {registry : Registry}
      {limits : Limits} :
      Counting engine engines s n → Engine.create registry limits s = (.ok other, t) →
        Counting engine (other :: engines) t n
  | eval {engines : List Engine} {s : Store} {n : Nat} (source : String) :
      Counting engine engines s n →
        Counting engine engines (engine.evalSource source s).2 (n + engine.listsPassed source s)
  | other {engines : List Engine} {s : Store} {n : Nat} {other : Engine} (source : String) :
      Counting engine engines s n → other ∈ engines → other ≠ engine →
        Counting engine engines (other.evalSource source s).2 n

theorem Counting.mem {n : Nat} (h : Counting engine engines s n) : engine ∈ engines := by
  induction h with
  | start => exact List.mem_cons_self
  | create _ _ ih => exact List.mem_cons_of_mem _ ih
  | eval _ _ ih | other _ _ _ _ ih => exact ih

theorem Counting.session {n : Nat} (h : Counting engine engines s n) : Session engines s := by
  induction h with
  | start h hcreate | create _ hcreate h => exact .create h hcreate
  | eval source hcounting h => exact .eval source h hcounting.mem
  | other source _ hother _ h => exact .eval source h hother

theorem exists_counting (h : Session engines s) (hengine : engine ∈ engines) :
    ∃ n, Counting engine engines s n := by
  induction h with
  | start => cases hengine
  | create h hcreate ih =>
    rcases List.mem_cons.1 hengine with rfl | hengine
    · exact ⟨0, .start h hcreate⟩
    · obtain ⟨n, hn⟩ := ih hengine
      exact ⟨n, .create hn hcreate⟩
  | @eval _ _ other source _ hother ih =>
    obtain ⟨n, hn⟩ := ih hengine
    by_cases heq : other = engine
    · subst heq
      exact ⟨_, .eval source hn⟩
    · exact ⟨n, .other source hn hother heq⟩

/-! ### Between texts -/

/-- Nothing is in progress between texts, and every runtime is within its limits. -/
theorem at_rest (h : Session engines s) :
    ∀ (i : RuntimeId) (r : Runtime), s.runtimes[i]? = some r → r.depth = 0 ∧ r.WithinLimits := by
  induction h with
  | start =>
    intro i r hr
    simp [Store.empty] at hr
  | @create _ s _ _ _ limits _ hcreate ih =>
    rw [Engine.create_eq] at hcreate
    cases hcreate
    intro i r hr
    rw [Store.runtimes_withEngine, Array.getElem?_push] at hr
    split at hr
    · cases hr
      exact ⟨rfl, Nat.zero_le _, fun limit _ => Nat.zero_le _⟩
    · exact ih i r hr
  | @eval _ s engine source _ _ ih =>
    intro i r' hr'
    have hlt : i < s.runtimes.size := by
      rw [← (s.grows_evalSource engine source).runtimeCount]
      exact (Array.getElem?_eq_some_iff.1 hr').1
    have hr : s.runtimes[i]? = some s.runtimes[i] := Array.getElem?_eq_getElem hlt
    obtain ⟨hdepth, hwithin⟩ := ih i _ hr
    obtain ⟨r₁, hr₁, -, hdepth₁, -⟩ := givesBack_evalSource engine source s i _ hr
    obtain rfl : r' = r₁ := Option.some.inj (hr'.symm.trans hr₁)
    have hkeeps : Runtime.KeepsTo i s.runtimes[i].limits s.runtimes := ⟨_, hr, rfl, hwithin⟩
    obtain ⟨r₂, hr₂, -, hwithin₂⟩ := hkeeps.evalSource engine source
    obtain rfl : r' = r₂ := Option.some.inj (hr'.symm.trans hr₂)
    exact ⟨hdepth₁.trans hdepth, hwithin₂⟩

/-- An engine in a session has a runtime, and its store is a world in which this one keeps to its
limits. -/
theorem exists_world (h : Session engines s) (hengine : engine ∈ engines) :
    ∃ i r owner, ∃ w : {w : Store.Territory owner i // Runtime.KeepsTo i r.limits w.store.runtimes},
      w.1.store = s ∧ s.runtimeId? engine.root = some i ∧ s.runtimes[i]? = some r := by
  obtain ⟨owner, howner⟩ := h.settled.partitioned
  obtain ⟨i, hlt, hroot⟩ := h.settled.home engine hengine
  have hr : s.runtimes[i]? = some s.runtimes[i] := Array.getElem?_eq_getElem hlt
  obtain ⟨owner', w, hw⟩ := howner.exists_limited ⟨_, hr, rfl, (h.at_rest i _ hr).2⟩
  exact ⟨i, s.runtimes[i], owner', w, hw, hroot, hr⟩

/-- A text takes as many steps as lists pass the check, and tells whether the budget is exceeded. -/
theorem metering (h : Session engines s) (hengine : engine ∈ engines) {i : RuntimeId}
    (hroot : s.runtimeId? engine.root = some i) (source : String) :
    Eval.Metered i s (Observer.tally.evalSource engine source) (engine.evalSource source) := by
  obtain ⟨j, r, owner, w, rfl, hroot', -⟩ := h.exists_world hengine
  obtain rfl : j = i := Option.some.inj (hroot'.symm.trans hroot)
  exact Realm.metering_evalSource (R := .limited owner j r.limits) (w := w) Realm.home_limited
    hroot source

/-- The steps are as many as lists have passed the check. -/
theorem Counting.stepsOf {n : Nat} (h : Counting engine engines s n) :
    ∀ i, s.runtimeId? engine.root = some i → s.stepsOf i = n := by
  induction h with
  | @start _ s _ _ _ _ hcreate =>
    rw [Engine.create_eq] at hcreate
    cases hcreate
    intro i hi
    rw [Store.runtimeId?_withEngine] at hi
    cases hi
    exact s.stepsOf_withEngine _ _
  | @create _ s _ _ _ _ _ hcounting hcreate ih =>
    rw [Engine.create_eq] at hcreate
    cases hcreate
    intro i hi
    obtain ⟨j, hlt, hj⟩ := hcounting.session.settled.home engine hcounting.mem
    rw [Store.runtimeId?_withEngine_of hj] at hi
    cases hi
    rw [← ih i hj]
    exact Store.stepsOf_withEngine_of hlt _ _
  | @eval _ s _ source hcounting ih =>
    intro i hi
    obtain ⟨j, -, hj⟩ := hcounting.session.settled.home engine hcounting.mem
    have hgrows := s.grows_evalSource engine source
    rw [hgrows.runtimeId? hj] at hi
    cases hi
    rw [← ih i hj]
    exact ((hcounting.session.metering hcounting.mem hj source).counts.evalSource hgrows).2
  | @other _ s _ other source hcounting hother hne ih =>
    intro i hi
    have hsettled := hcounting.session.settled
    obtain ⟨owner, howner⟩ := hsettled.partitioned
    obtain ⟨j, -, hj⟩ := hsettled.home engine hcounting.mem
    obtain ⟨k, -, hk⟩ := hsettled.home other hother
    -- Another engine has another runtime, and a text changes only the one of its engine.
    have hjk : j ≠ k := by
      rintro rfl
      exact hsettled.apart other hother engine hcounting.mem hne (hk.trans hj.symm)
    obtain ⟨owner', -, -, hchanges⟩ := howner.evalSource hk source
    rw [hchanges.grows.runtimeId? hj] at hi
    cases hi
    rw [← ih i hj]
    unfold Store.stepsOf
    rw [hchanges.runtimes hjk]

/-! ### The rest of a session -/

/-- What a session with some engines may come to. -/
inductive Continues (engines : List Engine) (s : Store) : List Engine → Store → Prop where
  | refl : Continues engines s engines s
  | create {engines' : List Engine} {t t' : Store} {other : Engine} {registry : Registry}
      {limits : Limits} :
      Continues engines s engines' t → Engine.create registry limits t = (.ok other, t') →
        Continues engines s (other :: engines') t'
  | eval {engines' : List Engine} {t : Store} {other : Engine} (source : String) :
      Continues engines s engines' t → other ∈ engines' →
        Continues engines s engines' (other.evalSource source t).2

/-- A runtime that is exhausted stays so, and a frame stays in its runtime. -/
theorem Continues.exhausted {engines' : List Engine} {t : Store}
    (h : Continues engines s engines' t) {i : RuntimeId} {limit : Nat} {f : FrameId}
    (hexhausted : s.Exhausted i limit) (hf : s.runtimeId? f = some i) :
    t.Exhausted i limit ∧ t.runtimeId? f = some i := by
  induction h with
  | refl => exact ⟨hexhausted, hf⟩
  | @create _ t _ _ registry limits _ hcreate ih =>
    rw [Engine.create_eq] at hcreate
    cases hcreate
    exact ⟨ih.1.withEngine registry limits, Store.runtimeId?_withEngine_of ih.2 registry limits⟩
  | @eval _ t other source _ _ ih =>
    have hgrows := t.grows_evalSource other source
    exact ⟨ih.1.of_grows hgrows, hgrows.runtimeId? ih.2⟩

/-- The meters of an engine in a session. Whatever is evaluated, called or applied gives back the
places it took, and no steps. Between texts no application of the engine is in progress, and its
steps are as many as lists have passed the check for a step. At every moment of a text the meters
are within the limits. Once a text has exceeded the budget, every list with a head is refused in
every scope of the engine for the rest of the session, and no text changes anything but the next
identity. -/
theorem metered (h : Session engines s) (hengine : engine ∈ engines) :
    (∀ (scope : FrameId) (t : Store),
      (∀ form, t.GivesBack (evaluate form scope t).2) ∧
      (∀ callee args, t.GivesBack (call scope callee args t).2) ∧
      (∀ c args, t.GivesBack (invoke scope c args t).2) ∧
      ∀ c operands, t.GivesBack (applyCallable scope c operands t).2) ∧
    ∃ i r, s.runtimeId? engine.root = some i ∧ s.runtimes[i]? = some r ∧ r.depth = 0 ∧
      r.WithinLimits ∧ (∀ n, Counting engine engines s n ↔ n = r.steps) ∧
      ∀ source,
        engine.Throughout source s (fun _ t => Runtime.KeepsTo i r.limits t.runtimes) ∧
        Observer.tally.evalSource engine source (s.tallied 0) =
          ((engine.evalSource source s).1,
            (engine.evalSource source s).2.tallied (engine.listsPassed source s)) ∧
        ∀ limit, (engine.evalSource source s).1 = .error (.error (.budgetExceeded limit)) →
          r.limits.stepLimit = some limit ∧
          ∀ engines' t, Continues engines (engine.evalSource source s).2 engines' t →
            (∀ scope id head rest, t.runtimeId? scope = some i →
              evaluate (.list id (head :: rest)) scope t =
                (.error (.error (.budgetExceeded limit)), t)) ∧
            ∀ source', ∃ next,
              (engine.evalSource source' t).2 = { t with nextIdentity := next } := by
  refine ⟨fun scope t => ⟨fun form => givesBack_evaluate form scope t,
    fun callee args => givesBack_call scope callee args t,
    fun c args => givesBack_invoke scope c args t,
    fun c operands => givesBack_applyCallable scope c operands t⟩, ?_⟩
  obtain ⟨i, r, owner, w, hw, hroot, hr⟩ := h.exists_world hengine
  obtain ⟨hdepth, hwithin⟩ := h.at_rest i r hr
  have hcount : ∀ n, Counting engine engines s n → n = r.steps := fun n hn =>
    (hn.stepsOf i hroot).symm.trans (Store.stepsOf_eq hr)
  refine ⟨i, r, hroot, hr, hdepth, hwithin, fun n => ⟨hcount n, ?_⟩, fun source => ?_⟩
  · rintro rfl
    obtain ⟨n, hn⟩ := h.exists_counting hengine
    exact hcount n hn ▸ hn
  · have hgrows := s.grows_evalSource engine source
    obtain ⟨hcounts, htells⟩ := h.metering hengine hroot source
    refine ⟨?_, (hcounts.evalSource hgrows).1, fun limit hlimit => ?_⟩
    · subst hw
      have hfollows : (Realm.limited owner i r.limits).Follows fun _ _ => True :=
        ⟨fun _ _ => trivial, fun _ _ _ _ _ => trivial⟩
      exact Realm.throughout hfollows (fun w _ _ _ => w.2) (fun w _ _ _ _ => w.2) hroot trivial
        source
    · have hexhausted := htells limit hlimit
      have hroot' := hgrows.runtimeId? hroot
      constructor
      · obtain ⟨r', hr', hlimit', -⟩ := hexhausted
        obtain ⟨r'', hr'', hlimits, -⟩ := givesBack_evalSource engine source s i r hr
        obtain rfl : r' = r'' := Option.some.inj (hr'.symm.trans hr'')
        exact hlimits ▸ hlimit'
      · intro engines' t hcontinues
        obtain ⟨hexhausted', hroot''⟩ := hcontinues.exhausted hexhausted hroot'
        exact ⟨fun scope id head rest hscope => hexhausted'.evaluate_list hscope id head rest,
          hexhausted'.evalSource hroot''⟩

/-- A budget of one step, which a list inside a list exceeds. Then nothing can be defined. -/
theorem metered_exceeded :
    let s := Store.empty.withEngine .empty ⟨2, some 1⟩
    let t := (Engine.first.evalSource "(define a (list 1 2))" s).2
    Session [Engine.first] s ∧
      (Engine.first.evalSource "(define a (list 1 2))" s).1 =
        .error (.error (.budgetExceeded 1)) ∧
      Engine.first.listsPassed "(define a (list 1 2))" s = 1 ∧
      ∃ next, (Engine.first.evalSource "(define a 3)" t).2 = { t with nextIdentity := next } := by
  intro s t
  have hs : Session [Engine.first] s := .create .start (Engine.create_eq .empty ⟨2, some 1⟩ .empty)
  have hexceeded : (Engine.first.evalSource "(define a (list 1 2))" s).1 =
      .error (.error (.budgetExceeded 1)) := by
    exact Eval.eq_of_exceeded? (by decide +kernel)
  obtain ⟨-, i, r, -, -, -, -, -, htexts⟩ := metered hs (List.mem_singleton.2 rfl)
  have hlater := ((htexts _).2.2 1 hexceeded).2 _ t .refl
  exact ⟨hs, hexceeded, by decide +kernel, hlater.2 "(define a 3)"⟩

end Session

end ConfinedLisp
