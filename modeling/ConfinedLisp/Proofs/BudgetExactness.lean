import ConfinedLisp.Proofs.Keeping
import ConfinedLisp.Proofs.Session

/-!
# Limits are exact and otherwise unobservable

A program runs the same under every limit that it keeps to. Two runs are compared: one without a
step limit, and one in a store in which every runtime has other limits. As long as the first one
stays within them, both do the same thing, step by step.

## Main definitions

- `Eval.AgreesUnder`: two computations do the same, the second one under other limits.
- `Engine.evalFresh`: the outcome of a text in a fresh engine, and the store it leaves.

## Main results

- `Engine.evalFresh_exact`: a step limit changes nothing if it is at least the number of steps that
  the text takes, and is the error if it is less; a greater depth changes nothing unless the text
  exceeds the smaller one.
-/

namespace ConfinedLisp

/-- The realm in which everything may be around. -/
def Realm.everything : Realm Store where
  store := id
  later := Store.Grows
  later_refl := .refl
  later_trans := .trans
  grows h := h
  part _ _ := True
  part_later _ h := h
  part_plain _ _ _ := trivial
  scope _ _ := True
  part_scope := Iff.rfl
  captured _ _ := True
  captured_of_scope h := h
  part_function := Iff.rfl
  part_operative := Iff.rfl
  runs _ _ := True
  runs_foreign _ := trivial
  runs_constructor _ _ := trivial
  part_foreign _ _ _ := trivial
  part_constructor _ _ _ := trivial
  part_static _ _ _ _ := trivial
  get _ _ := fun _ _ => trivial
  fresh _ _ := ⟨_, Store.grows_freshened _, rfl, trivial⟩
  bindAll _ _ := ⟨_, Store.grows_bindAll _ _ _, rfl⟩
  define _ _ _ := ⟨_, Store.grows_define _ _ _ _, rfl⟩
  child _ := ⟨_, Store.grows_addFrame _ _ _, rfl, trivial⟩
  detached _ := ⟨_, Store.grows_addFrame _ _ _, rfl, trivial⟩
  vector _ _ := ⟨_, Store.grows_addVector _ _, rfl, trivial⟩
  extend _ _ := ⟨_, Store.grows_extendVector _ _ _, rfl⟩
  items _ _ := fun _ _ => trivial
  enter _ := ⟨_, Store.grows_enter _ _, rfl⟩
  leave _ := ⟨_, Store.grows_leave _ _, rfl⟩

/-- A computation that runs among everything makes the store grow. -/
theorem Realm.Runs.store_grows {α : Type} {s : Store} {x : Eval α} {Q : Store → α → Prop}
    (h : Realm.everything.Runs s x Q) : s.Grows (x s).2 :=
  h.grows

theorem Realm.Runs.standings {α : Type} {s : Store} {x : Eval α} {Q : Store → α → Prop}
    (h : Realm.everything.Runs s x Q) : (x s).2.standings = s.standings := by
  obtain ⟨t, -, hstore, hstandings, -⟩ := h
  rw [← show t = (x s).2 from hstore]
  exact hstandings

theorem Realm.Runs.post {α : Type} {s : Store} {x : Eval α} {Q : Store → α → Prop} {a : α}
    (h : Realm.everything.Runs s x Q) (ha : (x s).1 = .ok a) : Q (x s).2 a := by
  obtain ⟨t, -, hstore, -, hpost⟩ := h
  rw [← show t = (x s).2 from hstore]
  exact hpost a ha

namespace Runtime

variable {r : Runtime}

theorem steps_enter (h : r.HasStep) : r.enter.2.steps = r.steps + 1 := by
  rcases Nat.lt_or_ge r.depth r.limits.maxDepth with hdepth | hdepth
  · rw [enter_of_place h hdepth]
  · rw [enter_of_no_place h hdepth]

theorem steps_enter_le (r : Runtime) : r.enter.2.steps ≤ r.steps + 1 := by
  rcases r.hasStep_or with h | ⟨limit, hlimit, hsteps⟩
  · exact Nat.le_of_eq (steps_enter h)
  · rw [enter_of_no_step hlimit hsteps]
    exact Nat.le_succ _

end Runtime

/-! ### Agreement under other limits -/

namespace Store

variable {g : Limits → Limits} {s t : Store} {f : FrameId}

@[simp] theorem getElem?_runtimes_relimit (s : Store) (i : RuntimeId) :
    (s.relimit g).runtimes[i]? = s.runtimes[i]?.map (Runtime.relimit g) := by
  simp only [relimit, Array.getElem?_map]

theorem runtime?_relimit (s : Store) (f : FrameId) :
    (s.relimit g).runtime? f = (s.runtime? f).map (Runtime.relimit g) := by
  unfold runtime?
  rw [runtimeId?_relimit]
  cases s.runtimeId? f with
  | none => rfl
  | some i => exact s.getElem?_runtimes_relimit i

theorem relimit_leave (s : Store) (f : FrameId) :
    (s.relimit g).leave f = (s.leave f).relimit g := by
  unfold leave
  rw [runtimeId?_relimit]
  cases s.runtimeId? f with
  | none => rfl
  | some i =>
    have hruntimes : (s.relimit g).runtimes.modify i Runtime.leave =
        (s.runtimes.modify i Runtime.leave).map (Runtime.relimit g) := by
      refine Array.ext_getElem? fun j => ?_
      rw [Array.getElem?_modify, getElem?_runtimes_relimit, Array.getElem?_map,
        Array.getElem?_modify]
      cases s.runtimes[j]? with
      | none => simp
      | some r => split <;> rfl
    simp only [hruntimes]
    rfl

/-- Entering under other limits does the same if the runtime does the same. -/
theorem enter_relimit (h : ∀ i r, s.runtimeId? f = some i → s.runtimes[i]? = some r →
    (r.relimit g).enter = (r.enter.1, r.enter.2.relimit g)) :
    (s.relimit g).enter f = ((s.enter f).1, (s.enter f).2.relimit g) := by
  rcases s.runtime?_cases f with hnone | ⟨i, r, hi, hr⟩
  · rw [enter_of_no_runtime hnone, enter_of_no_runtime (by rw [runtime?_relimit, hnone]; rfl)]
  · have hr' : (s.relimit g).runtimes[i]? = some (r.relimit g) := by simp [hr]
    rw [enter_of_runtime hi hr, enter_of_runtime (by simpa using hi) hr', h i r hi hr]
    simp only [relimit, Array.map_setIfInBounds]

end Store

/-- Two computations do the same, the second one under other limits. -/
def Eval.AgreesUnder {α : Type} (g : Limits → Limits) (s : Store) (x y : Eval α) : Prop :=
  y (s.relimit g) = ((x s).1, (x s).2.relimit g)

namespace Eval.AgreesUnder

variable {α β : Type} {g : Limits → Limits} {s : Store} {x y : Eval α}

theorem make {op : Store → α × Store} (hop : Unbudgeted op) :
    AgreesUnder g s (Eval.make op) (Eval.make op) := by
  unfold AgreesUnder Eval.make
  rw [hop.relimit]

theorem bind {k k' : α → Eval β} (hx : AgreesUnder g s x y)
    (hk : ∀ a, (x s).1 = .ok a → AgreesUnder g (x s).2 (k a) (k' a)) :
    AgreesUnder g s (x.bind k) (y.bind k') := by
  unfold AgreesUnder at *
  cases hr : x s with
  | mk result t =>
    rw [hr] at hx hk
    cases result with
    | error halt => rw [Eval.bind_of_error hx, Eval.bind_of_error hr]
    | ok a => rw [Eval.bind_of_ok hx, Eval.bind_of_ok hr, hk a rfl]

theorem within {f : FrameId}
    (henter : (s.relimit g).enter f = ((s.enter f).1, (s.enter f).2.relimit g))
    (hx : (s.enter f).1 = .ok () → AgreesUnder g (s.enter f).2 x y) :
    AgreesUnder g s (Eval.within f x) (Eval.within f y) := by
  unfold AgreesUnder at *
  cases hr : (s.enter f).1 with
  | error e =>
    rw [Eval.within_of_error x hr, Eval.within_of_error y (by rw [henter, hr]), henter]
  | ok u =>
    rw [Eval.within_of_ok x hr, Eval.within_of_ok y (by rw [henter, hr]), henter, hx hr,
      Store.relimit_leave]

end Eval.AgreesUnder

/-! ### A step limit -/

/-- Other limits, with a limit on the steps. -/
def Limits.capped (limit : Nat) (l : Limits) : Limits := { l with stepLimit := some limit }

namespace Runtime

variable {r : Runtime} {limit : Nat}

theorem hasStep_of_unlimited (h : r.limits.stepLimit = none) : r.HasStep := by
  intro limit hlimit
  rw [h] at hlimit
  cases hlimit

/-- As long as there is a step under the limit, the limit does not show. -/
theorem enter_relimit_capped (hnone : r.limits.stepLimit = none) (h : r.steps < limit) :
    (r.relimit (.capped limit)).enter = (r.enter.1, r.enter.2.relimit (.capped limit)) := by
  have hstep : (r.relimit (.capped limit)).HasStep := by
    intro l hl
    cases hl
    exact h
  have hstep' := hasStep_of_unlimited hnone
  rcases Nat.lt_or_ge r.depth r.limits.maxDepth with hdepth | hdepth
  · rw [enter_of_place hstep' hdepth, enter_of_place hstep hdepth]
    rfl
  · rw [enter_of_no_place hstep' hdepth, enter_of_no_place hstep hdepth]
    rfl

end Runtime

namespace Store

variable {s t : Store}

/-- The limits of every runtime are of a kind. -/
def EveryLimits (s : Store) (P : Limits → Prop) : Prop :=
  ∀ (i : RuntimeId) (r : Runtime), s.runtimes[i]? = some r → P r.limits

/-- No runtime has taken more than some number of steps. -/
def StepsWithin (s : Store) (limit : Nat) : Prop :=
  ∀ (i : RuntimeId) (r : Runtime), s.runtimes[i]? = some r → r.steps ≤ limit

theorem StepsWithin.of_grows {limit : Nat} (h : t.StepsWithin limit) (hgrows : s.Grows t) :
    s.StepsWithin limit := by
  intro i r hr
  obtain ⟨r', hr', hext⟩ := hgrows.runtimes i r hr
  exact Nat.le_trans hext.steps (h i r' hr')

theorem EveryLimits.of_grows {P : Limits → Prop} (h : s.EveryLimits P) (hgrows : s.Grows t) :
    t.EveryLimits P := by
  intro i r hr
  obtain ⟨r₀, hr₀, hext⟩ := hgrows.runtime_of hr
  rw [hext.limits]
  exact h i r₀ hr₀

theorem StepsWithin.leave {limit : Nat} (h : s.StepsWithin limit) (f : FrameId) :
    (s.leave f).StepsWithin limit := by
  intro i r hr
  unfold Store.leave at hr
  split at hr
  · rw [Array.getElem?_modify] at hr
    split at hr
    · obtain ⟨r', hr', rfl⟩ := Option.map_eq_some_iff.1 hr
      exact h i r' hr'
    · exact h i r hr
  · exact h i r hr

/-- Entering an application takes one step of the runtime, unless there is no step left. -/
theorem StepsWithin.enter {limit : Nat} {f : FrameId} (h : s.StepsWithin limit)
    (hf : ∀ i r, s.runtimeId? f = some i → s.runtimes[i]? = some r → r.steps < limit) :
    (s.enter f).2.StepsWithin limit := by
  rcases s.runtime?_cases f with hnone | ⟨i, r, hi, hr⟩
  · rw [enter_of_no_runtime hnone]
    exact h
  · rw [enter_of_runtime hi hr]
    intro j r' hr'
    simp only [Array.getElem?_setIfInBounds] at hr'
    split at hr'
    · split at hr'
      · cases hr'
        exact Nat.le_trans r.steps_enter_le (hf i r hi hr)
      · cases hr'
    · exact h j r' hr'

end Store

/-- A computation without a step limit, and one with it: they do the same if the first takes no more
steps than the limit, and otherwise the second fails. -/
def Eval.CappedBy {α : Type} (limit : Nat) (s : Store) (x y : Eval α) : Prop :=
  s.EveryLimits (·.stepLimit = none) →
    ((x s).2.StepsWithin limit → AgreesUnder (.capped limit) s x y) ∧
      (s.StepsWithin limit → ¬ (x s).2.StepsWithin limit →
        (y (s.relimit (.capped limit))).1 = .error (.error (.budgetExceeded limit)))

namespace Eval.CappedBy

variable {α β : Type} {limit : Nat} {s : Store} {x y : Eval α}

/-- A computation that takes no step only has to agree. -/
theorem of_agrees (h : AgreesUnder (.capped limit) s x y)
    (hruntimes : (x s).2.runtimes = s.runtimes) : CappedBy limit s x y := by
  refine fun _ => ⟨fun _ => h, fun hsteps hexceeds => absurd ?_ hexceeds⟩
  unfold Store.StepsWithin at *
  rwa [hruntimes]

theorem bind {k k' : α → Eval β} (hgrows : s.Grows (x s).2) (hx : CappedBy limit s x y)
    (hk : ∀ a, (x s).1 = .ok a → (x s).2.Grows (k a (x s).2).2 ∧
      CappedBy limit (x s).2 (k a) (k' a)) : CappedBy limit s (x.bind k) (y.bind k') := by
  intro hunlimited
  obtain ⟨hwithin, hbeyond⟩ := hx hunlimited
  -- Once the first part has failed for want of steps, the second one is left out.
  have hrefused : ∀ e, (y (s.relimit (.capped limit))).1 = .error e →
      (y.bind k' (s.relimit (.capped limit))).1 = .error e := by
    intro e he
    rw [Eval.bind_of_error (x := y) (s := s.relimit (.capped limit)) (Prod.ext he rfl)]
  cases hr : x s with
  | mk result t =>
    rw [hr] at hgrows hwithin hbeyond hk
    cases result with
    | error halt =>
      rw [Eval.bind_of_error hr]
      refine ⟨fun hsteps => (hwithin hsteps).bind fun a ha => ?_, fun hsteps hexceeds => ?_⟩
      · rw [hr] at ha
        cases ha
      · exact hrefused _ (hbeyond hsteps hexceeds)
    | ok a =>
      rw [Eval.bind_of_ok hr]
      obtain ⟨hgrows', hcapped⟩ := hk a rfl
      obtain ⟨hwithin', hbeyond'⟩ := hcapped (hunlimited.of_grows hgrows)
      refine ⟨fun hsteps => ?_, fun hsteps hexceeds => ?_⟩
      · refine (hwithin (hsteps.of_grows hgrows')).bind fun a' ha => ?_
        rw [hr] at ha ⊢
        cases ha
        exact hwithin' hsteps
      · by_cases hfirst : t.StepsWithin limit
        · have hagrees := hwithin hfirst
          unfold AgreesUnder at hagrees
          rw [hr] at hagrees
          rw [Eval.bind_of_ok hagrees]
          exact hbeyond' hfirst hexceeds
        · exact hrefused _ (hbeyond hsteps hfirst)

/-- An application whose step is left under the limit. -/
theorem within_of_step {f : FrameId}
    (hroom : ∀ i r, s.runtimeId? f = some i → s.runtimes[i]? = some r → r.steps < limit)
    (hx : (s.enter f).1 = .ok () → CappedBy limit (s.enter f).2 x y) :
    CappedBy limit s (Eval.within f x) (Eval.within f y) := by
  intro hunlimited
  have henter : (s.relimit (.capped limit)).enter f =
      ((s.enter f).1, (s.enter f).2.relimit (.capped limit)) := by
    refine Store.enter_relimit fun i r hi hr => ?_
    exact Runtime.enter_relimit_capped (hunlimited i r hr) (hroom i r hi hr)
  cases hr : (s.enter f).1 with
  | error e =>
    rw [Eval.within_of_error x hr]
    refine ⟨fun _ => .within henter fun hok => ?_, fun hsteps hexceeds => ?_⟩
    · rw [hr] at hok
      cases hok
    · exact absurd (hsteps.enter hroom) hexceeds
  | ok u =>
    obtain ⟨hwithin, hbeyond⟩ := hx hr (hunlimited.of_grows (s.grows_enter f))
    rw [Eval.within_of_ok x hr]
    refine ⟨fun hsteps => .within henter fun _ => ?_, fun hsteps hexceeds => ?_⟩
    · exact hwithin (hsteps.of_grows (Store.grows_leave _ f))
    · rw [Eval.within_of_ok y (by rw [henter, hr]), henter]
      exact hbeyond (hsteps.enter hroom) fun h => hexceeds (h.leave f)

/-- An application whose step is refused under the limit. -/
theorem within_of_no_step {f : FrameId} {i : RuntimeId} {r : Runtime}
    (hi : s.runtimeId? f = some i) (hr : s.runtimes[i]? = some r) (hfull : limit ≤ r.steps)
    (hgrows : (s.enter f).1 = .ok () → (s.enter f).2.Grows (x (s.enter f).2).2) :
    CappedBy limit s (Eval.within f x) (Eval.within f y) := by
  intro hunlimited
  have hstep := Runtime.hasStep_of_unlimited (hunlimited i r hr)
  -- Without the limit the step is taken, and it is one too many.
  have hexceeds : ¬ (Eval.within f x s).2.StepsWithin limit := by
    intro h
    have hentered : (s.enter f).2.StepsWithin limit := by
      refine h.of_grows ?_
      cases henter : (s.enter f).1 with
      | error e =>
        rw [Eval.within_of_error x henter]
        exact .refl _
      | ok u =>
        rw [Eval.within_of_ok x henter]
        exact (hgrows henter).trans (Store.grows_leave _ f)
    rw [Store.enter_of_runtime hi hr] at hentered
    obtain ⟨hsize, -⟩ := Array.getElem?_eq_some_iff.1 hr
    have := hentered i r.enter.2 (by simp [hsize])
    rw [Runtime.steps_enter hstep] at this
    omega
  refine ⟨fun h => absurd h hexceeds, fun _ _ => ?_⟩
  have hr' : (s.relimit (.capped limit)).runtimes[i]? = some (r.relimit (.capped limit)) := by
    simp [hr]
  have hrefused : ((s.relimit (.capped limit)).enter f).1 = .error (.budgetExceeded limit) := by
    rw [Store.enter_of_runtime (by simpa using hi) hr',
      Runtime.enter_of_no_step (r := r.relimit (.capped limit)) rfl hfull]
  rw [Eval.within_of_error y hrefused]

theorem within {f : FrameId} (hx : (s.enter f).1 = .ok () →
    (s.enter f).2.Grows (x (s.enter f).2).2 ∧ CappedBy limit (s.enter f).2 x y) :
    CappedBy limit s (Eval.within f x) (Eval.within f y) := by
  rcases s.runtime?_cases f with hnone | ⟨i, r, hi, hr⟩
  · refine within_of_step (fun i r hi hr => ?_) fun hok => (hx hok).2
    simp [Store.runtime?, hi, hr] at hnone
  · rcases Nat.lt_or_ge r.steps limit with hlt | hge
    · refine within_of_step (fun i' r' hi' hr' => ?_) fun hok => (hx hok).2
      obtain rfl := Option.some.inj (hi.symm.trans hi')
      obtain rfl := Option.some.inj (hr.symm.trans hr')
      exact hlt
    · exact within_of_no_step hi hr hge fun hok => (hx hok).1

end Eval.CappedBy

/-! ### More depth -/

/-- Other limits, with another limit on the depth. -/
def Limits.deepened (depth : Nat) (l : Limits) : Limits := { l with maxDepth := depth }

theorem Runtime.enter_relimit_deepened {r : Runtime} {depth : Nat}
    (hdepth : r.limits.maxDepth ≤ depth)
    (h : r.enter.1 ≠ .error (.recursionLimit r.limits.maxDepth)) :
    (r.relimit (.deepened depth)).enter = (r.enter.1, r.enter.2.relimit (.deepened depth)) := by
  rcases r.hasStep_or with hstep | ⟨limit, hlimit, hsteps⟩
  · have hstep' : (r.relimit (.deepened depth)).HasStep := hstep
    rcases Nat.lt_or_ge r.depth r.limits.maxDepth with hplace | hplace
    · rw [enter_of_place hstep hplace, enter_of_place hstep' (Nat.lt_of_lt_of_le hplace hdepth)]
      rfl
    · rw [enter_of_no_place hstep hplace] at h
      exact absurd rfl h
  · rw [enter_of_no_step hlimit hsteps,
      enter_of_no_step (r := r.relimit (.deepened depth)) hlimit hsteps]

namespace Store

variable {g : Limits → Limits} {s : Store}

theorem standings_relimit (s : Store) :
    (s.relimit g).standings = s.standings.map fun standing => (g standing.1, standing.2) := by
  simp only [standings, relimit, Array.map_map]
  rfl

/-- Limits with more depth leave more room. -/
theorem headroom_le_relimit (h : s.EveryLimits fun l => l.maxDepth ≤ (g l).maxDepth) :
    s.headroom ≤ (s.relimit g).headroom := by
  rw [headroom_eq_rooms, headroom_eq_rooms, standings_relimit, Array.toList_map]
  have hroom : ∀ p ∈ s.standings.toList, Runtime.room p ≤ Runtime.room (g p.1, p.2) := by
    intro p hp
    obtain ⟨i, hi⟩ := List.mem_iff_getElem?.1 hp
    rw [Array.getElem?_toList, getElem?_standings] at hi
    obtain ⟨r, hr, rfl⟩ := Option.map_eq_some_iff.1 hi
    exact Nat.sub_le_sub_right (h i r hr) _
  generalize s.standings.toList = standings at hroom ⊢
  induction standings with
  | nil => exact Nat.le_refl _
  | cons p rest ih =>
    exact Nat.add_le_add (hroom p (by simp)) (ih fun p hp => hroom p (by simp [hp]))

theorem headroom_relimit_capped (s : Store) (limit : Nat) :
    (s.relimit (.capped limit)).headroom = s.headroom := by
  rw [headroom_eq_rooms, headroom_eq_rooms, standings_relimit, Array.toList_map]
  induction s.standings.toList with
  | nil => rfl
  | cons p rest ih => exact congrArg (Runtime.room p + ·) ih

end Store

/-- A computation with too little depth, and one with more: they do the same if the first does not
exceed its depth. This is claimed only if the fuel is enough for the depth that is left. -/
def Eval.DeepenedBy {α : Type} (depth fuel : Nat) (s : Store) (x y : Eval α) : Prop :=
  s.EveryLimits (·.maxDepth ≤ depth) → s.headroom < fuel →
    (∀ limit, (x s).1 ≠ .error (.error (.recursionLimit limit))) →
      AgreesUnder (.deepened depth) s x y

namespace Eval.DeepenedBy

variable {α β : Type} {depth fuel : Nat} {s : Store} {x y : Eval α}

theorem bind {k k' : α → Eval β} (hgrows : s.Grows (x s).2)
    (hstandings : (x s).2.standings = s.standings) (hx : DeepenedBy depth fuel s x y)
    (hk : ∀ a, (x s).1 = .ok a → DeepenedBy depth fuel (x s).2 (k a) (k' a)) :
    DeepenedBy depth fuel s (x.bind k) (y.bind k') := by
  intro hlimits hfuel hdepth
  cases hr : x s with
  | mk result t =>
    cases result with
    | error halt =>
      rw [Eval.bind_of_error hr] at hdepth
      refine (hx hlimits hfuel fun limit h => ?_).bind fun a ha => ?_
      · rw [hr] at h
        cases h
        exact hdepth limit rfl
      · rw [hr] at ha
        cases ha
    | ok a =>
      rw [Eval.bind_of_ok hr] at hdepth
      refine (hx hlimits hfuel (by simp [hr])).bind fun a' ha => ?_
      refine hk a' ha (hlimits.of_grows hgrows) ?_ ?_
      · rwa [Store.headroom_congr hstandings]
      · rw [hr] at ha ⊢
        cases ha
        exact hdepth

theorem within {f : FrameId}
    (hx : (s.enter f).1 = .ok () → DeepenedBy depth fuel (s.enter f).2 x y) :
    DeepenedBy depth (fuel + 1) s (Eval.within f x) (Eval.within f y) := by
  intro hlimits hfuel hdepth
  have henter : (s.relimit (.deepened depth)).enter f =
      ((s.enter f).1, (s.enter f).2.relimit (.deepened depth)) := by
    refine Store.enter_relimit fun i r hi hr => ?_
    refine Runtime.enter_relimit_deepened (hlimits i r hr) fun hexceeded => ?_
    have hrefused : (s.enter f).1 = .error (.recursionLimit r.limits.maxDepth) := by
      rw [Store.enter_of_runtime hi hr, hexceeded]
    exact hdepth _ (by rw [Eval.within_of_error x hrefused])
  refine .within henter fun hok => hx hok (hlimits.of_grows (s.grows_enter f)) ?_ ?_
  · rcases s.enter_cases f with ⟨e, he, -⟩ | ⟨i, r, -, hr, hplace, -, hstandings⟩
    · rw [he] at hok
      cases hok
    · have := Store.headroom_of_place hr hplace hstandings
      omega
  · rwa [Eval.within_of_ok x hok] at hdepth

end Eval.DeepenedBy

/-! ### Evaluation under other limits -/

namespace Judgment

/-- The judgment that compares a computation with one under a step limit. -/
def capped (limit : Nat) : Judgment Realm.everything where
  judge s x y Q := Realm.everything.Runs s x Q ∧ Eval.CappedBy limit s x y
  pure hQ := ⟨(keeping _).pure hQ, .of_agrees rfl rfl⟩
  bind hx hk := ⟨hx.1.bind fun t a hgrows hQ => (hk t a hgrows hQ).1,
    hx.2.bind hx.1.store_grows fun a ha =>
      have h := hk _ a hx.1.store_grows (hx.1.post ha)
      ⟨h.1.store_grows, h.2⟩⟩
  fail _ := ⟨Realm.runs_halt rfl, .of_agrees rfl rfl⟩
  make hop hw hstore hQ :=
    ⟨Realm.runs_make hop hw hstore hQ, .of_agrees (.make hop) (hop.runtimes _)⟩
  mayHang := True
  hang _ := ⟨Realm.runs_halt rfl, .of_agrees rfl rfl⟩
  looseEq h := absurd trivial h
  encode h := absurd trivial h

/-- The judgment that compares a computation with one under more depth. -/
def deepened (depth fuel : Nat) : Judgment Realm.everything where
  judge s x y Q := Realm.everything.Runs s x Q ∧ Eval.DeepenedBy depth fuel s x y
  pure hQ := ⟨(keeping _).pure hQ, fun _ _ _ => rfl⟩
  bind hx hk := ⟨hx.1.bind fun t a hgrows hQ => (hk t a hgrows hQ).1,
    hx.2.bind hx.1.store_grows hx.1.standings fun a ha =>
      (hk _ a hx.1.store_grows (hx.1.post ha)).2⟩
  fail _ := ⟨Realm.runs_halt rfl, fun _ _ _ => rfl⟩
  make hop hw hstore hQ := ⟨Realm.runs_make hop hw hstore hQ, fun _ _ _ => .make hop⟩
  mayHang := True
  hang _ := ⟨Realm.runs_halt rfl, fun _ _ _ => rfl⟩
  looseEq h := absurd trivial h
  encode h := absurd trivial h

/-- A step limit that is kept does not show in evaluation. -/
theorem respects_capped (limit : Nat) : (capped limit).Respects evaluate evaluate := by
  intro s form scope hform hscope
  have h := respects_evaluateWithin (fun _ => capped limit) 0
    (fun _ _ _ => (capped limit).hang trivial) ?_ (s.headroom + 1) s form scope hform hscope
  · have hfuel : evaluate form scope (s.relimit (.capped limit)) =
        evaluateWithin (s.headroom + 1) form scope (s.relimit (.capped limit)) := by
      simp only [evaluate, Store.evaluator, Store.headroom_relimit_capped]
    refine ⟨h.1, ?_⟩
    unfold Eval.CappedBy Eval.AgreesUnder
    rw [hfuel]
    exact h.2
  · intro n s scope x y hscope h
    refine ⟨Realm.runs_within hscope fun t hgrows => (h t hgrows).1, ?_⟩
    refine .within fun _ => ?_
    have hbody := h _ (s.grows_enter scope)
    exact ⟨hbody.1.store_grows, hbody.2⟩

/-- More depth does not show in evaluation that does not exceed what it has. -/
theorem respects_deepened (depth fuel : Nat) :
    (deepened depth fuel).Respects evaluate evaluate := by
  intro s form scope hform hscope
  refine ⟨Realm.runs_evaluate hform hscope, fun hlimits _ => ?_⟩
  -- More depth leaves more room, so the second run has `k` more fuel than the first one.
  obtain ⟨k, hk⟩ := Nat.exists_eq_add_of_le
    (Store.headroom_le_relimit (g := .deepened depth) hlimits)
  have h := respects_evaluateWithin (deepened depth) k ?_ ?_ (s.headroom + 1) s form scope hform
    hscope
  · have hfuel : evaluate form scope (s.relimit (.deepened depth)) =
        evaluateWithin (s.headroom + 1 + k) form scope (s.relimit (.deepened depth)) := by
      simp only [evaluate, Store.evaluator, hk, Nat.add_right_comm]
    unfold Eval.AgreesUnder
    rw [hfuel]
    exact h.2 hlimits (Nat.lt_succ_self _)
  · refine fun s form scope => ⟨Realm.runs_halt rfl, fun _ hfuel => ?_⟩
    exact absurd hfuel (Nat.not_lt_zero _)
  · intro n s scope x y hscope h
    refine ⟨Realm.runs_within hscope fun t hgrows => (h t hgrows).1, ?_⟩
    refine .within fun _ => ?_
    exact (h _ (s.grows_enter scope)).2

end Judgment

/-! ### Texts in a fresh engine -/

namespace Engine

/-- The number of applications that an engine has made. -/
def steps (engine : Engine) (s : Store) : Nat :=
  match s.runtime? engine.root with
  | some runtime => runtime.steps
  | none => 0

/-- Evaluates a text in a fresh engine, the first one of its store. -/
def evalFresh (registry : Registry) (limits : Limits) (source : String) :
    Except Halt Value × Store :=
  Eval.run (do (← Engine.create registry limits).evalSource source) Store.empty

theorem evalFresh_eq (registry : Registry) (limits : Limits) (source : String) :
    evalFresh registry limits source =
      first.evalSource source (Store.empty.withEngine registry limits) :=
  rfl

end Engine

namespace Store

theorem withEngine_relimit (registry : Registry) (limits : Limits) (g : Limits → Limits) :
    empty.withEngine registry (g limits) = (empty.withEngine registry limits).relimit g := by
  have hstart : (empty.addRuntime registry (g limits)).2 =
      (empty.addRuntime registry limits).2.relimit g := by
    simp [addRuntime, relimit, Runtime.relimit, empty]
  have hrelimit := (Unbudgeted.bindAll empty.frames.size Engine.seed).relimit g
    ((empty.addRuntime registry limits).2.addFrame none empty.runtimes.size).2
  unfold withEngine
  rw [hstart]
  exact (Prod.mk.inj hrelimit).2

theorem eq_of_runtime_withEngine {registry : Registry} {limits : Limits} {i : RuntimeId}
    {r : Runtime} (h : (empty.withEngine registry limits).runtimes[i]? = some r) :
    r = ⟨registry, limits, 0, 0⟩ := by
  rw [runtimes_withEngine] at h
  simpa [empty] using Array.mem_of_getElem? h

/-- In the store of a single engine, the steps of the engine are all there are. -/
theorem stepsWithin_iff {registry : Registry} {limits : Limits} {s : Store} {limit : Nat}
    (h : (empty.withEngine registry limits).Grows s) :
    s.StepsWithin limit ↔ Engine.first.steps s ≤ limit := by
  have hcount : s.runtimes.size = 1 := by
    rw [h.runtimeCount, runtimes_withEngine]
    rfl
  have hroot : s.runtimeId? Engine.first.root = some 0 :=
    h.runtimeId? (runtimeId?_withEngine empty registry limits)
  have hruntime : s.runtimes[0]? = some s.runtimes[0] := Array.getElem?_eq_getElem (by omega)
  have hsteps : Engine.first.steps s = s.runtimes[0].steps := by
    simp [Engine.steps, runtime?, hroot, hruntime]
  rw [hsteps]
  constructor
  · exact fun hwithin => hwithin 0 _ hruntime
  · intro hle i r hr
    obtain ⟨hi, -⟩ := Array.getElem?_eq_some_iff.1 hr
    obtain rfl : i = 0 := Nat.lt_one_iff.1 (hcount ▸ hi)
    rw [hruntime] at hr
    cases hr
    exact hle

end Store

namespace Engine

theorem evalFresh_relimit (registry : Registry) (limits : Limits) (g : Limits → Limits)
    (source : String) : evalFresh registry (g limits) source =
      first.evalSource source ((Store.empty.withEngine registry limits).relimit g) := by
  rw [evalFresh_eq, Store.withEngine_relimit]

/-- A text takes the same steps under a step limit that it keeps to. -/
theorem evalSource_capped (limit : Nat) (source : String) (s : Store) :
    s.Grows (first.evalSource source s).2 ∧
      Eval.CappedBy limit s (first.evalSource source) (first.evalSource source) := by
  have h := (Judgment.capped limit).evalNamed (w := s) (Judgment.respects_capped limit)
    first defaultSourceName source trivial
    fun _ => ⟨Realm.runs_halt rfl, .of_agrees rfl rfl⟩
  exact ⟨h.1.store_grows, h.2⟩

/-- A text that does not exceed its depth does the same with more depth. -/
theorem evalSource_deepened (depth : Nat) (source : String) (s : Store) :
    Eval.DeepenedBy depth (s.headroom + 1) s (first.evalSource source) (first.evalSource source) :=
  ((Judgment.deepened depth (s.headroom + 1)).evalNamed (w := s)
    (Judgment.respects_deepened depth _) first defaultSourceName source trivial
    fun _ => ⟨Realm.runs_halt rfl, fun _ _ _ => rfl⟩).2

/-- Limits are exact and otherwise unobservable. If a text takes `n` steps without a step limit,
then every limit of at least `n` gives the same outcome and the same store but for the limit itself,
and every smaller limit gives the error that names it. If the text does not exceed its depth, then
every greater depth gives the same outcome and the same store, steps included. -/
theorem evalFresh_exact (registry : Registry) (depth : Nat) (source : String)
    {outcome : Except Halt Value} {s : Store}
    (h : evalFresh registry ⟨depth, none⟩ source = (outcome, s)) :
    (∀ limit, first.steps s ≤ limit →
      evalFresh registry ⟨depth, some limit⟩ source = (outcome, s.relimit (.capped limit))) ∧
    (∀ limit, limit < first.steps s →
      (evalFresh registry ⟨depth, some limit⟩ source).1 = .error (.error (.budgetExceeded limit))) ∧
    ((∀ limit, outcome ≠ .error (.error (.recursionLimit limit))) → ∀ depth', depth ≤ depth' →
      evalFresh registry ⟨depth', none⟩ source = (outcome, s.relimit (.deepened depth'))) := by
  let start := Store.empty.withEngine registry ⟨depth, none⟩
  rw [evalFresh_eq] at h
  have hgrows : start.Grows s := by
    have := (evalSource_capped 0 source start).1
    rwa [h] at this
  have hlimits : ∀ {P : Limits → Prop}, P ⟨depth, none⟩ → start.EveryLimits P := by
    intro P hP i r hr
    rw [Store.eq_of_runtime_withEngine hr]
    exact hP
  have hsteps : ∀ limit, start.StepsWithin limit := by
    intro limit i r hr
    rw [Store.eq_of_runtime_withEngine hr]
    exact Nat.zero_le _
  refine ⟨fun limit hle => ?_, fun limit hlt => ?_, fun hdepth depth' hle => ?_⟩
  · obtain ⟨hwithin, -⟩ := (evalSource_capped limit source start).2 (hlimits rfl)
    have hagrees := hwithin (by rw [h]; exact (Store.stepsWithin_iff hgrows).2 hle)
    rw [Eval.AgreesUnder, h] at hagrees
    exact (evalFresh_relimit registry ⟨depth, none⟩ (.capped limit) source).trans hagrees
  · obtain ⟨-, hbeyond⟩ := (evalSource_capped limit source start).2 (hlimits rfl)
    have hrefused := hbeyond (hsteps limit) (by
      rw [h]
      exact fun hwithin => Nat.not_le.2 hlt ((Store.stepsWithin_iff hgrows).1 hwithin))
    rw [← evalFresh_relimit] at hrefused
    exact hrefused
  · have hagrees := evalSource_deepened depth' source start (hlimits hle) (Nat.lt_succ_self _)
      (by rwa [h])
    rw [Eval.AgreesUnder, h] at hagrees
    exact (evalFresh_relimit registry ⟨depth, none⟩ (.deepened depth') source).trans hagrees

/-- Two nested applications: one step is too few, two are enough, and so is a depth of two. -/
theorem evalFresh_exact_nested :
    ∃ outcome s, evalFresh .standard ⟨2, none⟩ "(+ 1 (* 2 3))" = (outcome, s) ∧ first.steps s = 2 ∧
      (evalFresh .standard ⟨2, some 1⟩ "(+ 1 (* 2 3))").1 = .error (.error (.budgetExceeded 1)) ∧
      evalFresh .standard ⟨2, some 2⟩ "(+ 1 (* 2 3))" = (outcome, s.relimit (.capped 2)) ∧
      evalFresh .standard ⟨200, none⟩ "(+ 1 (* 2 3))" = (outcome, s.relimit (.deepened 200)) := by
  have hsteps : first.steps (evalFresh .standard ⟨2, none⟩ "(+ 1 (* 2 3))").2 = 2 := by
    decide +kernel
  have hok : (evalFresh .standard ⟨2, none⟩ "(+ 1 (* 2 3))").1.isOk = true := by decide +kernel
  obtain ⟨hwithin, hbeyond, hdeeper⟩ :=
    evalFresh_exact .standard 2 "(+ 1 (* 2 3))" (Prod.eta _).symm
  rw [hsteps] at hwithin hbeyond
  refine ⟨_, _, (Prod.eta _).symm, hsteps, hbeyond 1 (by decide), hwithin 2 (by decide), ?_⟩
  refine hdeeper (fun limit herror => ?_) 200 (by decide)
  rw [herror] at hok
  cases hok

end Engine

end ConfinedLisp
