import ConfinedLisp.Proofs.BudgetExactness

/-!
# Room to spare

Without step limits, a program that does not run out of places does the same wherever at least as
many places are left: it does not matter how deep it starts, how deep it may go, nor how many steps
have been taken before.

## Main definitions

- `Runtime.AllRoomier`: runtimes that leave at least so many more places than others.
- `Eval.SameWithRoom`: two computations do the same, the second one with more room.

## Main results

- `Store.evaluateWithin_of_room`: evaluation with more room.
-/

namespace ConfinedLisp

namespace Runtime

variable {r r' q q' : Runtime} {rs rs' qs qs' : Array Runtime} {spare : Nat}

/-- A runtime but for the steps that it has taken. -/
def unstepped (r : Runtime) : Runtime := { r with steps := 0 }

/-- A runtime in which one more application has been entered. -/
def entered (r : Runtime) : Runtime := { r with steps := r.steps + 1, depth := r.depth + 1 }

/-- Neither of two runtimes has a step limit, and the second one leaves at least so many more places
than the first one. -/
structure Roomier (spare : Nat) (r r' : Runtime) : Prop where
  registry : r'.registry = r.registry
  unlimited : r.limits.stepLimit = none
  unlimited' : r'.limits.stepLimit = none
  places : room r.standing + spare ≤ room r'.standing

theorem Roomier.congr (h : Roomier spare r r') (hq : q.unstepped = r.unstepped)
    (hq' : q'.unstepped = r'.unstepped) : Roomier spare q q' := by
  obtain ⟨registry, limits, depth, steps⟩ := q
  obtain ⟨registry', limits', depth', steps'⟩ := q'
  cases hq
  cases hq'
  exact ⟨h.registry, h.unlimited, h.unlimited', h.places⟩

theorem Roomier.hasStep (h : Roomier spare r r') : r.HasStep :=
  fun limit hlimit => by simp [h.unlimited] at hlimit

theorem Roomier.hasStep' (h : Roomier spare r r') : r'.HasStep :=
  fun limit hlimit => by simp [h.unlimited'] at hlimit

/-- A place that is left in the first one is left in the second one. -/
theorem Roomier.place (h : Roomier spare r r') (hplace : 0 < room r.standing + spare) :
    r'.depth < r'.limits.maxDepth :=
  Nat.lt_of_sub_pos (Nat.lt_of_lt_of_le hplace h.places)

theorem rooms_add_le {rs rs' : List Runtime} (hlength : rs'.length = rs.length)
    (heach : ∀ (i : Nat) r, rs[i]? = some r → ∃ r', rs'[i]? = some r' ∧ Roomier spare r r') :
    rooms (rs.map standing) + spare * rs.length ≤ rooms (rs'.map standing) := by
  induction rs generalizing rs' with
  | nil => simp [rooms]
  | cons r rest ih =>
    cases rs' with
    | nil => cases hlength
    | cons r' rest' =>
      obtain ⟨_, hr', hroomier⟩ := heach 0 r rfl
      cases hr'
      have hplaces := hroomier.places
      have hrest := ih (Nat.succ.inj hlength) fun i q hq => heach (i + 1) q hq
      simp only [List.map_cons, rooms, List.length_cons, Nat.mul_succ]
      omega

/-- Giving back a place that was taken undoes everything but the steps. -/
theorem unstepped_leave {i : Nat} (hr : rs[i]? = some r) (h : qs.map unstepped =
    (rs.setIfInBounds i r.entered).map unstepped) :
    (qs.modify i leave).map unstepped = rs.map unstepped := by
  refine Array.ext_getElem? fun j => ?_
  have hj := congrArg (·[j]?) h
  simp only [Array.getElem?_map, Array.getElem?_setIfInBounds] at hj
  simp only [Array.getElem?_map, Array.getElem?_modify]
  by_cases hij : i = j
  · subst hij
    obtain ⟨hi, -⟩ := Array.getElem?_eq_some_iff.1 hr
    rw [if_pos rfl, if_pos hi, Option.map_some] at hj
    obtain ⟨q, hq, hsame⟩ := Option.map_eq_some_iff.1 hj
    obtain ⟨registry, limits, depth, steps⟩ := q
    cases hsame
    rw [if_pos rfl, hq, hr]
    rfl
  · rw [if_neg hij] at hj ⊢
    exact hj

/-- Every runtime has a counterpart that leaves more room. -/
structure AllRoomier (spare : Nat) (rs rs' : Array Runtime) : Prop where
  size : rs'.size = rs.size
  each : Continues (Roomier spare) rs rs'

namespace AllRoomier

theorem mono (h : AllRoomier spare rs rs') {less : Nat} (hless : less ≤ spare) :
    AllRoomier less rs rs' := by
  refine ⟨h.size, fun i r hr => ?_⟩
  obtain ⟨r', hr', hroomier⟩ := h.each i r hr
  refine ⟨r', hr', hroomier.registry, hroomier.unlimited, hroomier.unlimited', ?_⟩
  exact Nat.le_trans (Nat.add_le_add_left hless _) hroomier.places

theorem offerSame (h : AllRoomier spare rs rs') : OfferSame rs rs' := by
  intro i
  unfold registryOf
  cases hr : rs[i]? with
  | some r =>
    obtain ⟨r', hr', hroomier⟩ := h.each i r hr
    rw [hr', Option.map_some, Option.map_some, hroomier.registry]
  | none =>
    have hnone : rs'[i]? = none := by
      rw [Array.getElem?_eq_none_iff, h.size]
      exact Array.getElem?_eq_none_iff.1 hr
    rw [hnone]

/-- Steps that have been taken do not matter. -/
theorem congr (h : AllRoomier spare rs rs') (hq : qs.map unstepped = rs.map unstepped)
    (hq' : qs'.map unstepped = rs'.map unstepped) : AllRoomier spare qs qs' := by
  have hcounterpart : ∀ {as bs : Array Runtime} {i : Nat} {a : Runtime},
      as.map unstepped = bs.map unstepped → as[i]? = some a →
        ∃ b, bs[i]? = some b ∧ a.unstepped = b.unstepped := by
    intro as bs i a heq ha
    have hi := congrArg (·[i]?) heq
    simp only [Array.getElem?_map, ha, Option.map_some] at hi
    obtain ⟨b, hb, hba⟩ := Option.map_eq_some_iff.1 hi.symm
    exact ⟨b, hb, hba.symm⟩
  refine ⟨?_, fun i q hi => ?_⟩
  · have hsize := congrArg Array.size hq
    have hsize' := congrArg Array.size hq'
    simp only [Array.size_map] at hsize hsize'
    rw [hsize', h.size, hsize]
  · obtain ⟨r, hr, hsame⟩ := hcounterpart hq hi
    obtain ⟨r', hr', hroomier⟩ := h.each i r hr
    obtain ⟨q', hi', hsame'⟩ := hcounterpart hq'.symm hr'
    exact ⟨q', hi', hroomier.congr hsame hsame'.symm⟩

/-- A place is taken on both sides. -/
theorem enter (h : AllRoomier spare rs rs') {i : Nat} (hr : rs[i]? = some r)
    (hr' : rs'[i]? = some r')
    (hplace : r.depth < r.limits.maxDepth) :
    AllRoomier spare (rs.setIfInBounds i r.entered) (rs'.setIfInBounds i r'.entered) := by
  obtain ⟨hi, -⟩ := Array.getElem?_eq_some_iff.1 hr
  refine ⟨by simp only [Array.size_setIfInBounds, h.size], fun j q hq => ?_⟩
  rw [Array.getElem?_setIfInBounds] at hq ⊢
  by_cases hij : i = j
  · subst hij
    obtain ⟨_, hcounterpart, hroomier⟩ := h.each i r hr
    obtain rfl := Option.some.inj (hr'.symm.trans hcounterpart)
    have hplaces := hroomier.places
    rw [if_pos rfl, if_pos hi] at hq
    rw [if_pos rfl, if_pos (h.size ▸ hi)]
    cases hq
    refine ⟨_, rfl, hroomier.registry, hroomier.unlimited, hroomier.unlimited', ?_⟩
    simp only [room, standing, entered] at hplaces ⊢
    omega
  · rw [if_neg hij] at hq ⊢
    exact h.each j q hq

/-- Places to spare are added up over all runtimes. -/
theorem rooms_le (h : AllRoomier spare rs rs') :
    rooms (rs.map standing).toList + spare * rs.size ≤ rooms (rs'.map standing).toList := by
  rw [Array.toList_map, Array.toList_map, ← Array.length_toList]
  refine rooms_add_le (by simpa using h.size) fun i r hr => ?_
  obtain ⟨r', hr', hroomier⟩ := h.each i r (by rwa [Array.getElem?_toList] at hr)
  exact ⟨r', by rwa [Array.getElem?_toList], hroomier⟩

end AllRoomier

end Runtime

namespace Store

variable {s t : Store}

/-- What a run leaves of the runtimes is what they were but for steps. -/
theorem unstepped_of_runs (hgrows : s.Grows t) (hstandings : t.standings = s.standings) :
    t.runtimes.map Runtime.unstepped = s.runtimes.map Runtime.unstepped := by
  refine Array.ext_getElem? fun i => ?_
  have hi := congrArg (·[i]?) hstandings
  simp only [getElem?_standings] at hi
  rw [Array.getElem?_map, Array.getElem?_map]
  cases hr : s.runtimes[i]? with
  | none =>
    rw [hr] at hi
    rw [Option.map_eq_none_iff.1 hi]
  | some r =>
    obtain ⟨r', hr', hextends⟩ := hgrows.runtimes i r hr
    rw [hr, hr'] at hi
    have hdepth : r'.depth = r.depth := congrArg Prod.snd (Option.some.inj hi)
    rw [hr', Option.map_some, Option.map_some, Runtime.unstepped, Runtime.unstepped,
      hextends.registry, hextends.limits, hdepth]

/-- Places to spare in every runtime are places to spare in all. -/
theorem headroom_le_of_roomier {spare : Nat} {rs : Array Runtime}
    (h : Runtime.AllRoomier spare s.runtimes rs) :
    s.headroom + spare * s.runtimes.size ≤ (s.rebudget rs).headroom := by
  rw [headroom_eq_rooms, headroom_eq_rooms]
  exact h.rooms_le

/-- An application is entered where there is no step limit and a place is left. -/
theorem enter_of_place {f : FrameId} {i : RuntimeId} {r : Runtime} (hi : s.runtimeId? f = some i)
    (hr : s.runtimes[i]? = some r) (hstep : r.HasStep) (hplace : r.depth < r.limits.maxDepth) :
    s.enter f = (.ok (), s.rebudget (s.runtimes.setIfInBounds i r.entered)) := by
  rw [enter_of_runtime hi hr, Runtime.enter_of_place hstep hplace]
  rfl

theorem headroom_of_entered {i : RuntimeId} {r : Runtime} (hr : s.runtimes[i]? = some r)
    (hplace : r.depth < r.limits.maxDepth) :
    (s.rebudget (s.runtimes.setIfInBounds i r.entered)).headroom + 1 = s.headroom :=
  headroom_of_place hr hplace (standings_setIfInBounds s i r.entered)

theorem rebudget_leave {f : FrameId} {i : RuntimeId} (hi : s.runtimeId? f = some i)
    (rs : Array Runtime) :
    (s.rebudget rs).leave f = (s.leave f).rebudget (rs.modify i Runtime.leave) := by
  unfold leave
  rw [runtimeId?_rebudget, hi]
  rfl

end Store

/-- Two computations do the same, the second one with more room, if the first one does not run out
of places. This is claimed only if the fuel is enough for the places that are left. -/
def Eval.SameWithRoom {α : Type} (fuel : Nat) (s : Store) (x y : Eval α) : Prop :=
  ∀ rs, Runtime.AllRoomier 0 s.runtimes rs → s.headroom < fuel →
    (∀ limit, (x s).1 ≠ .error (.error (.recursionLimit limit))) →
      ∃ rs', y (s.rebudget rs) = ((x s).1, (x s).2.rebudget rs') ∧
        rs'.map Runtime.unstepped = rs.map Runtime.unstepped

namespace Eval.SameWithRoom

variable {α β : Type} {fuel : Nat} {s : Store} {x y : Eval α}

theorem make {op : Store → α × Store} (hop : Unbudgeted op) :
    SameWithRoom fuel s (Eval.make op) (Eval.make op) := by
  intro rs hrs _ _
  refine ⟨rs, ?_, rfl⟩
  show (Except.ok (op (s.rebudget rs)).1, (op (s.rebudget rs)).2) = _
  rw [hop.rebudget s rs hrs.offerSame]
  rfl

theorem bind {k k' : α → Eval β} (hgrows : s.Grows (x s).2)
    (hstandings : (x s).2.standings = s.standings) (hx : SameWithRoom fuel s x y)
    (hk : ∀ a, (x s).1 = .ok a → SameWithRoom fuel (x s).2 (k a) (k' a)) :
    SameWithRoom fuel s (x.bind k) (y.bind k') := by
  intro rs hrs hfuel hplaces
  cases hr : x s with
  | mk result t =>
    rw [hr] at hgrows hstandings hk
    cases result with
    | error halt =>
      rw [Eval.bind_of_error hr] at hplaces ⊢
      obtain ⟨rs', hy, hsame⟩ := hx rs hrs hfuel (by simpa [hr] using hplaces)
      rw [hr] at hy
      exact ⟨rs', Eval.bind_of_error hy k', hsame⟩
    | ok a =>
      rw [Eval.bind_of_ok hr] at hplaces ⊢
      obtain ⟨rs₁, hy, hsame⟩ := hx rs hrs hfuel (by simp [hr])
      rw [hr] at hy
      have hrs₁ := hrs.congr (Store.unstepped_of_runs hgrows hstandings) hsame
      obtain ⟨rs₂, hk', hsame'⟩ :=
        hk a rfl rs₁ hrs₁ (by rwa [Store.headroom_congr hstandings]) hplaces
      exact ⟨rs₂, (Eval.bind_of_ok hy k').trans hk', hsame'.trans hsame⟩

/-- The places that an application takes on both sides are given back on both sides. -/
theorem within {f : FrameId} (hgrows : (s.enter f).2.Grows (x (s.enter f).2).2)
    (hx : SameWithRoom fuel (s.enter f).2 x y) :
    SameWithRoom (fuel + 1) s (Eval.within f x) (Eval.within f y) := by
  intro rs hrs hfuel hplaces
  rcases s.runtime?_cases f with hnone | ⟨i, r, hi, hr⟩
  · have hrefused : (s.enter f).1 = .error (.recursionLimit 0) := by
      rw [Store.enter_of_no_runtime hnone]
    exact absurd (by rw [Eval.within_of_error x hrefused]) (hplaces 0)
  obtain ⟨r', hr', hroomier⟩ := hrs.each i r hr
  rcases Nat.lt_or_ge r.depth r.limits.maxDepth with hplace | hplace
  · have hplace' := hroomier.place (Nat.sub_pos_of_lt hplace)
    have henter := Store.enter_of_place hi hr hroomier.hasStep hplace
    have henter' : (s.rebudget rs).enter f = (.ok (), s.rebudget (rs.setIfInBounds i r'.entered)) :=
      Store.enter_of_place (s := s.rebudget rs) hi hr' hroomier.hasStep' hplace'
    rw [Eval.within_of_ok x (congrArg Prod.fst henter), henter] at hplaces ⊢
    rw [Eval.within_of_ok y (congrArg Prod.fst henter'), henter']
    rw [henter] at hx hgrows
    have hroom : (s.rebudget (s.runtimes.setIfInBounds i r.entered)).headroom < fuel := by
      have := Store.headroom_of_entered hr hplace
      omega
    obtain ⟨rs₂, hy, hsame⟩ := hx _ (hrs.enter hr hr' hplace) hroom hplaces
    refine ⟨rs₂.modify i Runtime.leave, ?_, Runtime.unstepped_leave hr' hsame⟩
    have hrun : y (s.rebudget (rs.setIfInBounds i r'.entered)) = _ := hy
    dsimp only
    rw [hrun, Store.rebudget_leave (hgrows.runtimeId? (i := i) hi) rs₂]
  · have hrefused : (s.enter f).1 = .error (.recursionLimit r.limits.maxDepth) := by
      rw [Store.enter_of_runtime hi hr, Runtime.enter_of_no_place hroomier.hasStep hplace]
    exact absurd (by rw [Eval.within_of_error x hrefused]) (hplaces r.limits.maxDepth)

end Eval.SameWithRoom

/-- The judgment that compares a computation with one that has more room. -/
def Judgment.roomier (fuel : Nat) : Judgment Realm.everything :=
  .keepingFirst Realm.everything (Eval.SameWithRoom fuel) .make
    (fun _ rs _ _ _ => ⟨rs, rfl, rfl⟩) fun hx hrel hk =>
      hrel.bind hx.store_grows hx.standings fun a ha => (hk _ a hx.store_grows (hx.post ha)).2

/-- Evaluation with more room does the same, if it does not run out of places with less. -/
theorem Store.evaluateWithin_of_room {s t : Store} {form : Value} {scope : FrameId}
    {result : Except Halt Value} (hrun : evaluate form scope s = (result, t))
    (hplaces : ∀ limit, result ≠ .error (.error (.recursionLimit limit))) {rs : Array Runtime}
    (hrs : Runtime.AllRoomier 0 s.runtimes rs) {fuel : Nat} (hfuel : s.headroom < fuel) :
    ∃ rs', evaluateWithin fuel form scope (s.rebudget rs) = (result, t.rebudget rs') ∧
      rs'.map Runtime.unstepped = rs.map Runtime.unstepped := by
  obtain ⟨k, rfl⟩ := Nat.exists_eq_add_of_le (Nat.succ_le_of_lt hfuel)
  have h := Judgment.respects_evaluateWithin Judgment.roomier k ?_ ?_ (s.headroom + 1) s form scope
    (fun _ _ => trivial) trivial
  · have hwithin : evaluateWithin (s.headroom + 1) form scope s = (result, t) := hrun
    obtain ⟨rs', hy, hsame⟩ := h.2 rs hrs (Nat.lt_succ_self _) (by rwa [hwithin])
    rw [hwithin] at hy
    exact ⟨rs', hy, hsame⟩
  · refine fun s form scope => ⟨Realm.runs_halt rfl, fun _ _ hfuel => ?_⟩
    exact absurd hfuel (Nat.not_lt_zero _)
  · intro n s scope x y hscope h
    refine ⟨Realm.runs_within hscope fun t hgrows => (h t hgrows).1, ?_⟩
    have hbody := h _ (s.grows_enter scope)
    exact .within hbody.1.store_grows hbody.2

end ConfinedLisp
