import ConfinedLisp.Proofs.SessionMeters

/-!
# Callables in progress

How many callables can be in progress at once is not a matter of the depth alone. Only a list with a
head takes a place. A control operation that is called calls on without one, and ends only because
the operands get less deep. So a place carries an application, a call, and as many further calls as
the operands of a control operation that is called are nested.

## Main definitions

- `Activity.places`, `Activity.activations`: how many places are taken, and how many callables are
  in progress.
- `Activity.ReachAtMost`: no control operation that is called reaches deeper than a bound.
- `Observer.barring`: the observer that halts where a property fails.

## Main results

- `Activity.Nested.activations_le`: the bound, for activities in progress one inside the other.
- `Session.activations_le_places`: the depth of an engine is the number of places, and the callables
  in progress are at most as many as that allows.
- `Session.not_two_for_each_place`: there can be more of them than two for each place.
-/

namespace ConfinedLisp

namespace Activity

/-- Whether an activity is that of a list in its place. -/
def isPlace : Activity → Bool
  | .place => true
  | _ => false

/-- How many places are taken. -/
def places (stack : List Activity) : Nat := stack.countP isPlace

/-- How many callables are in progress. -/
def activations (stack : List Activity) : Nat := stack.countP isActivation

/-- No control operation that is called has operands that reach deeper than a bound. -/
def ReachAtMost (bound : Nat) (stack : List Activity) : Prop :=
  ∀ k copy args, .call (.primitive (.control k) copy) args ∈ stack → Control.reach args ≤ bound

/-- How many more callables may come to be in progress in the innermost place. -/
def left (bound : Nat) : List Activity → Nat
  | .place :: _ => bound + 2
  | .application _ :: _ => bound + 1
  | .call (.primitive (.control _) _) args :: _ => Control.reach args
  | _ => 0

variable {stack : List Activity} {bound : Nat}

theorem ReachAtMost.tail {activity : Activity} (h : ReachAtMost bound (activity :: stack)) :
    ReachAtMost bound stack :=
  fun k copy args hmem => h k copy args (List.mem_cons_of_mem _ hmem)

theorem left_call_le_reach (c : Callable Value) (args : List Value) :
    left bound (.call c args :: stack) ≤ Control.reach args := by
  unfold left
  split
  · next heq => cases heq
  · next heq => cases heq
  · next heq =>
    cases heq
    exact Nat.le_refl _
  · exact Nat.zero_le _

theorem ReachAtMost.left_call_le {c : Callable Value} {args : List Value}
    (h : ReachAtMost bound (.call c args :: stack)) :
    left bound (.call c args :: stack) ≤ bound := by
  unfold left
  split
  · next heq => cases heq
  · next heq => cases heq
  · next heq =>
    cases heq
    exact h _ _ _ List.mem_cons_self
  · exact Nat.zero_le _

theorem places_place (stack : List Activity) : places (.place :: stack) = places stack + 1 :=
  List.countP_cons_of_pos rfl

theorem activations_place (stack : List Activity) :
    activations (.place :: stack) = activations stack :=
  List.countP_cons_of_neg Bool.false_ne_true

theorem places_cons_of_activation {activity : Activity} (h : activity.isActivation = true) :
    places (activity :: stack) = places stack := by
  cases activity with
  | application c | call c args => exact List.countP_cons_of_neg Bool.false_ne_true
  | request | place => cases h

theorem activations_cons_of_activation {activity : Activity} (h : activity.isActivation = true) :
    activations (activity :: stack) = activations stack + 1 :=
  List.countP_cons_of_pos h

/-- Each place has room for an application and for calls that reach less and less deep, and what has
room is in progress or may still come. -/
theorem Nested.activations_add_left (h : Nested stack) (hreach : ReachAtMost bound stack) :
    activations stack + left bound stack ≤ places stack * (bound + 2) := by
  -- A place adds room for `bound + 2`; whatever begins in it takes one of what is left.
  induction h with
  | nil => exact Nat.zero_le _
  | @place stack _ ih =>
    have hstack : activations stack ≤ places stack * (bound + 2) :=
      Nat.le_trans (Nat.le_add_right ..) (ih hreach.tail)
    rw [activations_place, places_place, Nat.succ_mul]
    exact Nat.add_le_add_right hstack (bound + 2)
  | application c _ ih =>
    have hplace := ih hreach.tail
    rw [activations_cons_of_activation rfl, places_cons_of_activation rfl]
    dsimp only [left] at hplace ⊢
    omega
  | call c args _ ih =>
    have happlication := ih hreach.tail
    have hleft := hreach.left_call_le
    rw [activations_cons_of_activation rfl, places_cons_of_activation rfl]
    dsimp only [left] at happlication
    omega
  | @further stack k copy args args' c _ hless ih =>
    have hcall := ih hreach.tail
    have hleft : left bound (.call c args' :: .call (.primitive (.control k) copy) args :: stack) ≤
        Control.reach args' := left_call_le_reach c args'
    rw [activations_cons_of_activation rfl, places_cons_of_activation rfl]
    dsimp only [left] at hcall
    omega

theorem Nested.activations_le (h : Nested stack) (hreach : ReachAtMost bound stack) :
    activations stack ≤ places stack * (bound + 2) :=
  Nat.le_trans (Nat.le_add_right ..) (h.activations_add_left hreach)

end Activity

open Activity

/-- The observer that halts where a property of what is in progress fails. -/
def Observer.barring (p : List Activity → Bool) : Observer := fun _ stack =>
  if p stack then Eval.pure () else Eval.endless

theorem Observer.idleWhere_barring {p : List Activity → Bool} {P : List Activity → Store → Prop}
    (h : ∀ stack s, P stack s → p stack = true) : (Observer.barring p).IdleWhere P := by
  intro scope stack s hP
  unfold barring
  rw [if_pos (h stack s hP)]
  rfl

/-! ### The places of an engine -/

namespace Realm

variable {owner : VectorId → RuntimeId} {i : RuntimeId} {limits : Limits}

/-- In its own territory, the depth of a runtime is the number of places. -/
theorem follows_places :
    (limited owner i limits).Follows fun stack standings =>
      standings[i]? = some (limits, places stack) where
  activation hactivation hstands := by rw [places_cons_of_activation hactivation, hstands]
  place := by
    intro w scope j r stack hscope hj hr _ hstands
    obtain rfl : i = j := Option.some.inj (Eq.trans (Eq.symm hscope) hj)
    rw [Store.getElem?_standings, hr] at hstands
    obtain ⟨hlimits, hdepth⟩ := Prod.mk.inj (Option.some.inj hstands)
    have hlt := (Array.getElem?_eq_some_iff.1 hr).1
    rw [Array.getElem?_setIfInBounds, if_pos rfl, if_pos (by simpa [Store.standings] using hlt),
      hlimits, hdepth, places_place]

/-- The places that are taken are within the limit. -/
theorem places_le (w : {w : Store.Territory owner i // Runtime.KeepsTo i limits w.store.runtimes})
    {stack : List Activity}
    (hstands : ((limited owner i limits).store w).standings[i]? = some (limits, places stack)) :
    (∃ r, ((limited owner i limits).store w).runtimes[i]? = some r ∧ r.limits = limits ∧
      r.depth = places stack) ∧ places stack ≤ limits.maxDepth := by
  obtain ⟨r, hr, rfl, hwithin⟩ := w.2
  have hstanding := Store.getElem?_standings ((limited owner i r.limits).store w) i
  rw [hstands, show ((limited owner i r.limits).store w).runtimes[i]? = some r from hr] at hstanding
  obtain ⟨-, hplaces⟩ := Prod.mk.inj (Option.some.inj hstanding)
  exact ⟨⟨r, hr, rfl, hplaces.symm⟩, hplaces ▸ hwithin.1⟩

end Realm

namespace Session

variable {engines : List Engine} {s : Store} {engine : Engine}

/-- At every moment of every text, the depth of an engine is the number of places that are taken,
which its limit bounds. If no control operation that is called reaches deeper than a bound, then
each place carries at most two callables and as many more as the bound says; so there are at most
two if control operations are only applied. -/
theorem activations_le_places (h : Session engines s) (hengine : engine ∈ engines) :
    ∃ i r, s.runtimeId? engine.root = some i ∧ s.runtimes[i]? = some r ∧
      ∀ source, engine.Throughout source s fun stack t =>
        (∃ r', t.runtimes[i]? = some r' ∧ r'.limits = r.limits ∧ r'.depth = places stack) ∧
        places stack ≤ r.limits.maxDepth ∧
        ∀ bound, ReachAtMost bound stack → activations stack ≤ r.limits.maxDepth * (bound + 2) := by
  obtain ⟨i, r, owner, w, rfl, hroot, hr⟩ := h.exists_world hengine
  refine ⟨i, r, hroot, hr, fun source => ?_⟩
  have hstart : w.1.store.standings[i]? = some (r.limits, places []) := by
    rw [Store.getElem?_standings, hr]
    exact congrArg (fun depth => some (r.limits, depth)) (h.at_rest i r hr).1
  refine Realm.throughout Realm.follows_places ?_ ?_ hroot hstart source
  · intro w stack hnested hstands
    obtain ⟨hdepth, hplaces⟩ := Realm.places_le w hstands
    refine ⟨hdepth, hplaces, fun bound hreach => ?_⟩
    exact Nat.le_trans (hnested.activations_le hreach.tail) (Nat.mul_le_mul_right _ hplaces)
  · intro w activity stack hnested hstands
    obtain ⟨hdepth, hplaces⟩ := Realm.places_le w hstands
    refine ⟨hdepth, hplaces, fun bound hreach => ?_⟩
    exact Nat.le_trans (hnested.activations_le hreach) (Nat.mul_le_mul_right _ hplaces)

/-- Control operations that are called, one inside the other, with two places. -/
theorem activations_le_places_nested :
    let s := Store.empty.withEngine .empty ⟨2, none⟩
    Session [Engine.first] s ∧
      Engine.first.Throughout
        "(define x (list list ())) (define x (list apply x)) (apply apply x)" s
        fun stack _ => ∀ bound, ReachAtMost bound stack → activations stack ≤ 2 * (bound + 2) := by
  intro s
  have hs : Session [Engine.first] s := .create .start (Engine.create_eq .empty ⟨2, none⟩ .empty)
  obtain ⟨i, r, -, hr, hthroughout⟩ := activations_le_places hs (List.mem_singleton.2 rfl)
  rw [Store.eq_of_runtime_withEngine hr] at hthroughout
  exact ⟨hs, (hthroughout _).mono fun stack t hstack => hstack.2.2⟩

/-- With two places, there can be more callables in progress than two for each place and two
besides: a control operation that is called calls a control operation, and so on. -/
theorem not_two_for_each_place :
    ¬ Engine.first.Throughout
      ("(define x (list list ())) (define x (list apply x)) (define x (list apply x)) " ++
        "(define x (list apply x)) (define x (list apply x)) (apply apply x)")
      (Store.empty.withEngine .empty ⟨2, none⟩) fun stack _ => activations stack ≤ 2 * 2 + 2 := by
  intro h
  have hsame := h (.barring fun stack => activations stack ≤ 2 * 2 + 2)
    (Observer.idleWhere_barring fun _ _ hstack => decide_eq_true hstack)
  have hok := congrArg (fun outcome => outcome.1.isOk) hsame
  revert hok
  decide +kernel

end Session

end ConfinedLisp
