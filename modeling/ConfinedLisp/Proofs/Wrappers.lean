import ConfinedLisp.Proofs.GenericCall
import ConfinedLisp.Proofs.Resting
import ConfinedLisp.Proofs.Transplant

/-!
# Transparent wrappers

There are several ways to write a form that do nothing but evaluate it: to quote it and evaluate the
quotation, to put it into a sequence or a branch of its own, or to give it to an operative that
evaluates its operand in the scope of its caller. Each of them takes at most three more places on
the way down, and comes to the same thing.

## Main definitions

- `Store.Seeded`: a scope finds what a fresh sandbox binds to the names of the wrappers.
- `Value.WrappedAs`: the ways to wrap a form.

## Main results

- `Reachable.wrappers_transparent`: a wrapper does what the form does.
-/

namespace ConfinedLisp

/-! ### Parts of a store -/

namespace Store.Within

variable {s u : Store} {spare : Nat} {f : FrameId} {i : RuntimeId} {r : Runtime}

theorem mono (h : s.Within spare u) {less : Nat} (hless : less ≤ spare) : s.Within less u :=
  ⟨h.frames, h.frameCount, h.vectors, h.identity, h.roomier.mono hless⟩

theorem freshened (h : s.Within spare u) : s.Within spare u.freshened :=
  ⟨h.frames, h.frameCount, h.vectors, Nat.le_succ_of_le h.identity, h.roomier⟩

theorem stepped (h : s.Within spare u) (i : RuntimeId) (n : Nat) :
    s.Within spare (u.stepped i n) where
  frames := h.frames
  frameCount := h.frameCount
  vectors := h.vectors
  identity := Nat.le_add_right_of_le h.identity
  roomier := by
    refine h.roomier.congr rfl (Array.ext_getElem? fun j => ?_)
    simp only [Store.stepped, Array.getElem?_map, Array.getElem?_modify]
    split
    · cases u.runtimes[j]? <;> rfl
    · rfl

theorem unlimited (h : s.Within spare u) : u.EveryLimits (·.stepLimit = none) := by
  intro i r' hr'
  obtain ⟨hi, -⟩ := Array.getElem?_eq_some_iff.1 hr'
  rw [h.roomier.size] at hi
  obtain ⟨q, hq, hroomier⟩ := h.roomier.each i _ (Array.getElem?_eq_getElem hi)
  obtain rfl := Option.some.inj (hr'.symm.trans hq)
  exact hroomier.unlimited'

/-- A place that is to spare is taken. -/
theorem enter (h : s.Within (spare + 1) u) (hi : u.runtimeId? f = some i)
    (hr : s.runtimes[i]? = some r) : (u.enter f).1 = .ok () ∧ s.Within spare (u.enter f).2 := by
  obtain ⟨r', hr', hroomier⟩ := h.roomier.each i r hr
  rw [Store.enter_of_place hi hr' hroomier.hasStep' (hroomier.place (Nat.succ_pos _))]
  refine ⟨rfl, h.frames, h.frameCount, h.vectors, h.identity, ?_, fun j q hq => ?_⟩
  · exact (Array.size_setIfInBounds ..).trans h.roomier.size
  · show ∃ q', (u.runtimes.setIfInBounds i r'.entered)[j]? = some q' ∧ _
    rw [Array.getElem?_setIfInBounds]
    obtain ⟨q', hq', hplaces⟩ := (h.roomier.mono (Nat.le_succ spare)).each j q hq
    by_cases hij : i = j
    · subst hij
      obtain rfl := Option.some.inj (hr.symm.trans hq)
      have hroom := hroomier.places
      rw [if_pos rfl, if_pos (Array.getElem?_eq_some_iff.1 hr').1]
      refine ⟨_, rfl, hroomier.registry, hroomier.unlimited, hroomier.unlimited', ?_⟩
      simp only [Runtime.room, Runtime.standing, Runtime.entered] at hroom ⊢
      omega
    · rw [if_neg hij]
      exact ⟨q', hq', hplaces⟩

/-- An application that does nothing but take an identity. -/
theorem enter_leave (h : s.Within (spare + 1) u) (hi : u.runtimeId? f = some i)
    (hr : s.runtimes[i]? = some r) :
    s.Within (spare + 1) ((u.enter f).2.freshened.leave f) := by
  obtain ⟨r', hr', hroomier⟩ := h.roomier.each i r hr
  obtain ⟨-, hleave⟩ := Store.leave_enter hi hr' hroomier.hasStep' (hroomier.place (Nat.succ_pos _))
  rw [hleave]
  exact h.stepped i 1

/-- A frame is made, and names are bound there. -/
theorem child (h : s.Within spare u) (parent : Option FrameId) (runtime : RuntimeId)
    (pairs : List (String × Value)) :
    s.Within spare ((u.addFrame parent runtime).2.bindAll u.frames.size pairs) := by
  have hgrows := (u.grows_addFrame parent runtime).trans
    (Store.grows_bindAll (u.addFrame parent runtime).2 u.frames.size pairs)
  refine ⟨fun f hf => ?_, Nat.le_trans h.frameCount hgrows.frameCount, ?_,
    Nat.le_trans h.identity hgrows.identity, ?_⟩
  · have hne : u.frames.size ≠ f := Nat.ne_of_gt (Nat.lt_of_lt_of_le hf h.frameCount)
    rw [Store.frames_bindAll_of_ne hne, Store.frames_addFrame, if_neg hne.symm, h.frames f hf]
  · rw [Store.vectors_bindAll]
    exact h.vectors
  · rw [(Unbudgeted.bindAll u.frames.size pairs).runtimes]
    exact h.roomier

/-- A name is looked up among the frames of the smaller store. -/
theorem lookup? (h : s.Within spare u) (hs : s.Rooted) (name : String) (hf : f < s.frames.size) :
    u.lookup? f name = s.lookup? f name :=
  hs.lookup?_eq_of_frames (fun g hg => h.frames g (Nat.lt_of_le_of_lt hg hf)) name

theorem runtimeId? (h : s.Within spare u) (hf : f < s.frames.size) :
    u.runtimeId? f = s.runtimeId? f := by
  rw [Store.runtimeId?, h.frames f hf, Store.runtimeId?]

end Store.Within

/-! ### Applying a wrapper -/

namespace Evaluator

variable {ev : Evaluator} {scope : FrameId} {u v w : Store} {form x operand : Value}

theorem apply_sequence (ev : Evaluator) (scope : FrameId) (copy : Option Identity) (id : Identity)
    (form : Value) :
    ev.apply scope (.primitive (.special .sequence) copy) id [form] = ev form scope :=
  Eval.bind_pure (ev form scope)

theorem apply_branch (copy : Option Identity) (id : Identity) (form : Value)
    (hcondition : ev operand scope u = (.ok (.bool true), v)) :
    ev.apply scope (.primitive (.special .branch) copy) id [operand, form] u = ev form scope v :=
  Eval.bind_of_ok hcondition _

theorem apply_eval (copy : Option Identity) (id : Identity)
    (hform : ev operand scope u = (.ok form, v)) :
    ev.apply scope (.primitive (.special .eval) copy) id [operand] u = ev form scope v :=
  Eval.bind_of_ok hform _

/-- Evaluating in a scope that is given. -/
theorem apply_eval_scope {target : FrameId} {place : Value} (copy : Option Identity) (id : Identity)
    (hform : ev operand scope u = (.ok form, v))
    (hplace : ev place scope v = (.ok (.scope target), w)) :
    ev.apply scope (.primitive (.special .eval) copy) id [operand, place] u = ev form target w :=
  (Eval.bind_of_ok hform _).trans (Eval.bind_of_ok hplace _)

theorem apply_car {rest : List Value} {listId : Identity} (copy : Option Identity) (id : Identity)
    (hlist : ev operand scope u = (.ok (.list listId (x :: rest)), v)) :
    ev.apply scope (.primitive (.operation .car) copy) id [operand] u = (.ok x, v) := by
  have hvalues : ev.values scope [operand] u = (.ok [.list listId (x :: rest)], v) :=
    Eval.bind_of_ok hlist _
  exact Eval.bind_of_ok hvalues _

end Evaluator

/-! ### Where wrappers can be used -/

namespace Store

variable {s u v : Store} {f p : FrameId} {spare : Nat} {name : String}

/-- The names that the wrappers need. -/
def wrapperNames : List String := ["eval", "quote", "do", "if", "true", "car"]

/-- The chain of a scope binds the names of the wrappers to what a fresh sandbox binds them to. -/
def Seeded (s : Store) (f : FrameId) : Prop :=
  ∀ name ∈ wrapperNames, s.lookup? f name = Assoc.find? name Engine.seed

theorem searchWithin_congr (h : v.frames = u.frames) (name : String) (fuel : Nat) (f : FrameId) :
    v.searchWithin name fuel f = u.searchWithin name fuel f := by
  induction fuel generalizing f with
  | zero => rfl
  | succ fuel ih => simp only [searchWithin, h, ih]

theorem lookup?_congr (h : v.frames = u.frames) (f : FrameId) (name : String) :
    v.lookup? f name = u.lookup? f name := by
  rw [lookup?, searchWithin_congr h, lookup?]

/-- A scope of a larger store where wrappers can be used: it finds what a fresh sandbox binds, and
places can be taken from the runtime of the scope. -/
structure Usable (s u : Store) (f : FrameId) : Prop where
  seeded : u.Seeded f
  runtime : ∃ i r, u.runtimeId? f = some i ∧ s.runtimes[i]? = some r

namespace Usable

theorem congr (h : s.Usable u f) (hframes : v.frames = u.frames) : s.Usable v f where
  seeded name hname := (lookup?_congr hframes f name).trans (h.seeded name hname)
  runtime := by
    obtain ⟨i, r, hi, hr⟩ := h.runtime
    exact ⟨i, r, by rwa [runtimeId?, hframes], hr⟩

theorem freshened (h : s.Usable u f) : s.Usable u.freshened f := h.congr rfl

theorem enter (h : s.Usable u f) (hu : s.Within (spare + 1) u) :
    ∃ v, u.enter f = (.ok (), v) ∧ s.Within spare v ∧ v.frames = u.frames := by
  obtain ⟨i, r, hi, hr⟩ := h.runtime
  obtain ⟨hok, hv⟩ := hu.enter hi hr
  exact ⟨_, Prod.ext hok rfl, hv, u.frames_enter f⟩

/-- An application of something that can be called by its name. -/
theorem application (h : s.Usable u f) (hu : s.Within (spare + 1) u) {c : Callable Value}
    (hc : u.lookup? f name = some (.callable c)) (n : Nat) (id : Identity) (operands : List Value) :
    ∃ v fresh, s.Within spare v ∧ v.frames = u.frames ∧ s.Within (spare + 1) (v.leave f) ∧
      evaluateWithin (n + 2) (.list id (.sym name :: operands)) f u =
        (((evaluateWithin (n + 1)).apply f c fresh operands v).1,
          ((evaluateWithin (n + 1)).apply f c fresh operands v).2.leave f) := by
  obtain ⟨i, r, hi, hr⟩ := h.runtime
  obtain ⟨hok, hv⟩ := hu.enter hi hr
  have hframes := u.frames_enter f
  have hhead := evaluate_name ((lookup?_congr hframes f name).trans hc) n
  exact ⟨(u.enter f).2.freshened, (u.enter f).2.nextIdentity, hv.freshened, hframes,
    hu.enter_leave hi hr, evaluateWithin_application (Prod.ext hok rfl) hhead id operands⟩

/-- A quotation evaluates to what it quotes. -/
theorem quote (h : s.Usable u f) (hu : s.Within (spare + 1) u) (n : Nat) (id : Identity)
    (form : Value) :
    ∃ v, s.Within (spare + 1) v ∧ v.frames = u.frames ∧
      evaluateWithin (n + 2) (.list id [.sym "quote", form]) f u = (.ok form, v) := by
  have hname := h.seeded "quote" (by decide)
  obtain ⟨v, fresh, -, hframes, hleft, hrun⟩ := h.application hu hname n id [form]
  exact ⟨v.leave f, hleft, (v.frames_leave f).trans hframes, hrun⟩

/-- The first item of a list that a name is bound to. -/
theorem car (h : s.Usable u f) (hu : s.Within (spare + 1) u) {listId : Identity} {x : Value}
    {rest : List Value} (hlist : u.lookup? f name = some (.list listId (x :: rest))) (n : Nat)
    (id : Identity) :
    ∃ v, s.Within (spare + 1) v ∧ v.frames = u.frames ∧
      evaluateWithin (n + 2) (.list id [.sym "car", .sym name]) f u = (.ok x, v) := by
  have hname := h.seeded "car" (by decide)
  obtain ⟨v, fresh, -, hframes, hleft, hrun⟩ := h.application hu hname n id [.sym name]
  have hoperand := evaluate_name ((lookup?_congr hframes f name).trans hlist) n
  rw [Evaluator.apply_car none fresh hoperand] at hrun
  exact ⟨v.leave f, hleft, (v.frames_leave f).trans hframes, hrun⟩

end Usable

/-- A scope of the smaller store. -/
theorem Within.usable (hu : s.Within spare u) (hs : s.Rooted) (hrest : s.Resting)
    (hf : f < s.frames.size) (hseeded : s.Seeded f) : s.Usable u f where
  seeded name hname := (hu.lookup? hs name hf).trans (hseeded name hname)
  runtime := by
    obtain ⟨i, r, hi, hr, -⟩ := hrest.runtime_of_frame hf
    exact ⟨i, r, (hu.runtimeId? hf).trans hi, hr⟩

/-! ### The scope of an operative -/

/-- A store after the scope of an operative has been made. -/
def operativeScope (u : Store) (caller g : FrameId) (operands : Value) : Store :=
  (u.addFrame (some g) ((u.runtimeId? g).getD 0)).2.bindAll u.frames.size
    [(callerScopeName, .scope caller), (argumentsName, operands)]

theorem frames_operativeScope (u : Store) (caller g : FrameId) (operands : Value) :
    (u.operativeScope caller g operands).frames[u.frames.size]? =
      some ⟨[(callerScopeName, .scope caller), (argumentsName, operands)], some g,
        (u.runtimeId? g).getD 0⟩ := by
  simp only [operativeScope, bindAll, List.foldl_cons, List.foldl_nil, Store.bind, addFrame,
    Array.getElem?_modify, Array.getElem?_push_size, if_pos, Option.map_some]
  rfl

theorem lookup?_callerScope (u : Store) (caller g : FrameId) (operands : Value) :
    (u.operativeScope caller g operands).lookup? u.frames.size callerScopeName =
      some (.scope caller) := by
  refine lookup?_here ?_
  rw [bindings, frames_operativeScope]
  rfl

theorem lookup?_arguments (u : Store) (caller g : FrameId) (operands : Value) :
    (u.operativeScope caller g operands).lookup? u.frames.size argumentsName = some operands := by
  refine lookup?_here ?_
  rw [bindings, frames_operativeScope]
  rfl

/-- Wrappers can be used in the scope of an operative if they can be used where it was made. -/
theorem Within.usable_operativeScope (hu : s.Within spare u) (hs : s.Rooted) (hrest : s.Resting)
    {g : FrameId} (hg : g < s.frames.size) (hseeded : s.Seeded g) (caller : FrameId)
    (operands : Value) :
    s.Usable (u.operativeScope caller g operands) u.frames.size where
  seeded name hname := by
    have hnone : Assoc.find? name [(callerScopeName, .scope caller), (argumentsName, operands)] =
        none := by
      simp only [wrapperNames, List.mem_cons, List.not_mem_nil, or_false] at hname
      rcases hname with rfl | rfl | rfl | rfl | rfl | rfl <;> rfl
    have hlt : g < u.frames.size := Nat.lt_of_lt_of_le hg hu.frameCount
    have hwithin : s.Within spare (u.operativeScope caller g operands) := hu.child _ _ _
    rw [lookup?_above (u.frames_operativeScope caller g operands) hnone rfl,
      hs.searchWithin_eq_of_frames name (fun f hf => hwithin.frames f (Nat.lt_of_le_of_lt hf hg))
        hlt (Nat.lt_succ_self g)]
    exact hseeded name hname
  runtime := by
    obtain ⟨i, r, hi, hr, -⟩ := hrest.runtime_of_frame hg
    refine ⟨i, r, ?_, hr⟩
    rw [Store.runtimeId?, frames_operativeScope, hu.runtimeId? hg, hi]
    rfl

end Store

theorem Evaluator.apply_operative (ev : Evaluator) (scope g : FrameId) (m id : Identity)
    (form : Value) (operands : List Value) (u : Store) :
    ev.apply scope (.operative m g [form]) id operands u =
      ev form u.frames.size (u.operativeScope scope g (.list id operands)) :=
  congrFun (Eval.bind_pure (ev form u.frames.size)) _

/-! ### The wrappers -/

/-- What the operative of the last wrapper does: it evaluates its operand in the scope of its
caller. -/
def Value.forwarding (id carId : Identity) : Value :=
  .list id [.sym "eval", .list carId [.sym "car", .sym argumentsName], .sym callerScopeName]

/-- A form stands for a callable, either by itself or by its name in a scope. -/
def Value.StandsFor (s : Store) (f : FrameId) (c : Callable Value) (head : Value) : Prop :=
  head = .callable c ∨ ∃ name, head = .sym name ∧ s.lookup? f name = some (.callable c)

theorem Value.StandsFor.congr {s u : Store} {f : FrameId} {c : Callable Value} {head : Value}
    (h : head.StandsFor s f c) (hframes : u.frames = s.frames) : head.StandsFor u f c := by
  rcases h with rfl | ⟨name, rfl, hname⟩
  · exact Or.inl rfl
  · exact Or.inr ⟨name, rfl, (Store.lookup?_congr hframes f name).trans hname⟩

theorem Value.StandsFor.evaluateWithin {u : Store} {f : FrameId} {c : Callable Value} {head : Value}
    (h : head.StandsFor u f c) (n : Nat) :
    ConfinedLisp.evaluateWithin (n + 1) head f u = (.ok (.callable c), u) := by
  rcases h with rfl | ⟨name, rfl, hname⟩
  · rfl
  · exact Store.evaluate_name hname n

/-- A wrapper comes down to the form itself, in a larger store that leaves as many places. What is
left to do then is only to give places back. -/
def Store.ComesDown (s u : Store) (n : Nat) (wrapper form : Value) (scope : FrameId) : Prop :=
  ∃ (v : Store) (fuel : Nat) (finish : Store → Store), s.Within 0 v ∧ n < fuel ∧
    (∀ w, (finish w).frames = w.frames ∧ (finish w).vectors = w.vectors) ∧
    evaluateWithin (n + 4) wrapper scope u =
      ((evaluateWithin fuel form scope v).1, finish (evaluateWithin fuel form scope v).2)

namespace Store.Usable

variable {s u : Store} {f : FrameId}

/-- An application of something that can be called by its name, and that does nothing in the end but
evaluate the form. -/
theorem comesDown_application (h : s.Usable u f) (hu : s.Within 3 u) {name : String}
    {c : Callable Value} (hc : u.lookup? f name = some (.callable c)) {n : Nat} {form : Value}
    {operands : List Value}
    (happly : ∀ {v} fresh, s.Within 2 v → s.Usable v f → ∃ w, s.Within 2 w ∧
      (evaluateWithin (n + 3)).apply f c fresh operands v = evaluateWithin (n + 3) form f w)
    (id : Identity) : s.ComesDown u n (.list id (.sym name :: operands)) form f := by
  obtain ⟨v, fresh, hv, hframes, -, hrun⟩ := h.application hu hc (n + 2) id operands
  obtain ⟨w, hw, hform⟩ := happly fresh hv (h.congr hframes)
  rw [hform] at hrun
  exact ⟨w, n + 3, (leave · f), hw.mono (by omega), by omega,
    fun x => ⟨x.frames_leave f, x.vectors_leave f⟩, hrun⟩

theorem comesDown_sequence (h : s.Usable u f) (hu : s.Within 3 u) (n : Nat) (id : Identity)
    (form : Value) : s.ComesDown u n (.list id [.sym "do", form]) form f := by
  refine h.comesDown_application hu (h.seeded "do" (by decide)) (fun {v} fresh hv _ => ?_) id
  exact ⟨v, hv, congrFun (Evaluator.apply_sequence _ f none fresh form) v⟩

theorem comesDown_branch (h : s.Usable u f) (hu : s.Within 3 u) (n : Nat) (id : Identity)
    (form : Value) : s.ComesDown u n (.list id [.sym "if", .sym "true", form]) form f := by
  refine h.comesDown_application hu (h.seeded "if" (by decide)) (fun {v} fresh hv husable => ?_) id
  have hcondition : evaluateWithin (n + 3) (.sym "true") f v = (.ok (.bool true), v) :=
    evaluate_name (husable.seeded "true" (by decide)) (n + 2)
  exact ⟨v, hv, Evaluator.apply_branch none fresh form hcondition⟩

theorem comesDown_eval (h : s.Usable u f) (hu : s.Within 3 u) (n : Nat) (id quoteId : Identity)
    (form : Value) :
    s.ComesDown u n (.list id [.sym "eval", .list quoteId [.sym "quote", form]]) form f := by
  refine h.comesDown_application hu (h.seeded "eval" (by decide)) (fun fresh hv husable => ?_) id
  obtain ⟨w, hw, -, hquote⟩ := husable.quote hv (n + 1) quoteId form
  exact ⟨w, hw, Evaluator.apply_eval none fresh hquote⟩

/-- The operative takes the most places: one for its call, one for evaluating the operand, and one
for finding it, which is given back. -/
theorem comesDown_operative (h : s.Usable u f) (hu : s.Within 3 u) (hs : s.Rooted)
    (hrest : s.Resting) {g : FrameId} (hg : g < s.frames.size) (hseeded : s.Seeded g)
    {m bodyId carId : Identity} {head : Value}
    (hhead : head.StandsFor u f (.operative m g [.forwarding bodyId carId])) (n : Nat)
    (id : Identity) (form : Value) : s.ComesDown u n (.list id [head, form]) form f := by
  obtain ⟨v, henter, hv, hframes⟩ := h.enter hu
  have hcallable := (hhead.congr hframes).evaluateWithin (n + 2)
  have hcall := evaluateWithin_application henter hcallable id [form]
  rw [Evaluator.apply_operative] at hcall
  have hinner := hv.freshened.usable_operativeScope hs hrest hg hseeded f
    (.list v.nextIdentity [form])
  have hwithin : s.Within 2 (v.freshened.operativeScope f g (.list v.nextIdentity [form])) :=
    hv.freshened.child _ _ _
  have hcaller := v.freshened.lookup?_callerScope f g (.list v.nextIdentity [form])
  have harguments := v.freshened.lookup?_arguments f g (.list v.nextIdentity [form])
  generalize v.freshened.operativeScope f g (.list v.nextIdentity [form]) = inner
    at hcall hinner hwithin hcaller harguments
  generalize v.freshened.frames.size = i at hcall hinner hcaller harguments
  have hname := hinner.seeded "eval" (by decide)
  obtain ⟨w, fresh, hw, hwframes, -, hrun⟩ := hinner.application hwithin hname (n + 1) bodyId
    [.list carId [.sym "car", .sym argumentsName], .sym callerScopeName]
  obtain ⟨x, hx, hxframes, hoperand⟩ := (hinner.congr hwframes).car hw
    ((lookup?_congr hwframes _ _).trans harguments) n carId
  have hplace : evaluateWithin (n + 2) (.sym callerScopeName) i x = (.ok (.scope f), x) :=
    evaluate_name ((lookup?_congr (hxframes.trans hwframes) _ _).trans hcaller) (n + 1)
  rw [Evaluator.apply_eval_scope _ _ hoperand hplace] at hrun
  rw [Value.forwarding, hrun] at hcall
  refine ⟨x, n + 2, fun y => (y.leave i).leave f, hx.mono (by omega), by omega,
    fun y => ?_, hcall⟩
  simp only [frames_leave, vectors_leave, and_self]

end Store.Usable

/-! ### Fresh sandboxes -/

namespace Store

variable {s u : Store} {f : FrameId} {spare : Nat} {name : String}

/-- What a frame binds after names without repetition have been bound there. -/
theorem find?_bindAll (hf : f < s.frames.size) {pairs : List (String × Value)}
    (hkeys : (Assoc.keys pairs).Nodup) (name : String) :
    Assoc.find? name ((s.bindAll f pairs).bindings f) =
      (Assoc.find? name pairs).or (Assoc.find? name (s.bindings f)) := by
  induction pairs generalizing s with
  | nil => rfl
  | cons pair rest ih =>
    obtain ⟨key, v⟩ := pair
    obtain ⟨hkey, hrest⟩ := List.nodup_cons.1 hkeys
    have hsize : f < (s.bind f key v).frames.size := by simpa [Store.bind] using hf
    refine (ih hsize hrest).trans ?_
    rw [bindings_bind, Assoc.find?]
    by_cases hname : key = name
    · subst hname
      rw [Assoc.find?_eq_none_iff.2 hkey]
      simp [hf]
    · simp [hf, hname, Assoc.find?_put_of_ne (Ne.symm hname)]

/-- The root of a fresh sandbox finds everything that is bound there. -/
theorem lookup?_withEngine (s : Store) (registry : Registry) (limits : Limits) {x : Value}
    (hx : Assoc.find? name Engine.seed = some x) :
    (s.withEngine registry limits).lookup? s.frames.size name = some x := by
  have hkeys : (Assoc.keys Engine.seed).Nodup := by decide +kernel
  have hroot : s.frames.size <
      ((s.addRuntime registry limits).2.addFrame none s.runtimes.size).2.frames.size := by
    simp [addFrame, addRuntime]
  refine lookup?_here ?_
  rw [withEngine, find?_bindAll hroot hkeys, hx, Option.some_or]

theorem seeded_withEngine (s : Store) (registry : Registry) (limits : Limits) :
    (s.withEngine registry limits).Seeded s.frames.size := by
  intro name hname
  have hsome : (Assoc.find? name Engine.seed).isSome := by
    simp only [wrapperNames, List.mem_cons, List.not_mem_nil, or_false] at hname
    rcases hname with rfl | rfl | rfl | rfl | rfl | rfl <;> rfl
  obtain ⟨x, hx⟩ := Option.isSome_iff_exists.1 hsome
  rw [hx, lookup?_withEngine s registry limits hx]

/-- Where it can be made, an operative is made of the scope and the body. -/
theorem Usable.operative (h : s.Usable u f) (hu : s.Within (spare + 1) u)
    (hname : u.lookup? f "macro" = some (.callable (.primitive (.special .operative) none)))
    (n : Nat) (id : Identity) (body : List Value) :
    ∃ v m, s.Within (spare + 1) v ∧ v.frames = u.frames ∧
      evaluateWithin (n + 2) (.list id (.sym "macro" :: body)) f u =
        (.ok (.callable (.operative m f body)), v) := by
  obtain ⟨v, fresh, -, hframes, hleft, hrun⟩ := h.application hu hname n id body
  refine ⟨v.freshened.leave f, v.nextIdentity, ?_, ?_, hrun⟩
  · have hleave : v.freshened.leave f = (v.leave f).freshened := by
      have hid : v.freshened.runtimeId? f = v.runtimeId? f := rfl
      rw [leave, leave, hid]
      cases v.runtimeId? f <;> rfl
    rw [hleave]
    exact hleft.freshened
  · exact (v.freshened.frames_leave f).trans hframes

end Store

/-! ### Deeper limits -/

/-- The same limits with so many more places. -/
def Limits.deeper (extra : Nat) (l : Limits) : Limits := { l with maxDepth := l.maxDepth + extra }

namespace Store

variable {s : Store}

/-- A store at rest without step limits, seen from the same store under deeper limits. -/
theorem Resting.within_deeper (h : s.Resting) (hunlimited : s.EveryLimits (·.stepLimit = none))
    (extra : Nat) : s.Within extra (s.relimit (.deeper extra)) where
  frames _ _ := rfl
  frameCount := Nat.le_refl _
  vectors := rfl
  identity := Nat.le_refl _
  roomier := by
    refine ⟨Array.size_map, fun i r hr => ?_⟩
    have hdeeper : (s.relimit (.deeper extra)).runtimes[i]? = some (r.relimit (.deeper extra)) := by
      rw [getElem?_runtimes_relimit, hr, Option.map_some]
    refine ⟨_, hdeeper, rfl, hunlimited i r hr, hunlimited i r hr, ?_⟩
    have hidle := h.idle i r hr
    simp only [Runtime.room, Runtime.standing, Runtime.relimit, Limits.deeper]
    omega

/-- There is fuel for the wrapper and for the form. -/
theorem Within.exists_fuel {u : Store} {spare : Nat} (h : s.Within spare u)
    (hsome : 0 < s.runtimes.size) : ∃ n, s.headroom ≤ n ∧ u.headroom + 1 = n + (spare + 1) := by
  have hrooms := headroom_le_of_roomier h.roomier
  have hheadroom : (s.rebudget u.runtimes).headroom = u.headroom := rfl
  have hspare : spare ≤ spare * s.runtimes.size := Nat.le_mul_of_pos_right spare hsome
  exact ⟨u.headroom - spare, by omega, by omega⟩

end Store

/-- The wrappers of a form: quoting it and evaluating the quotation, a sequence of its own, a branch
that is always taken, and an operative, made where wrappers can be used, that evaluates its operand
in the scope of its caller. -/
inductive Value.WrappedAs (s : Store) (given : List Value) (scope : FrameId) (form : Value) :
    Value → Prop
  | eval (id quoteId : Identity) :
      WrappedAs s given scope form (.list id [.sym "eval", .list quoteId [.sym "quote", form]])
  | sequence (id : Identity) : WrappedAs s given scope form (.list id [.sym "do", form])
  | branch (id : Identity) : WrappedAs s given scope form (.list id [.sym "if", .sym "true", form])
  | operative {m bodyId carId : Identity} {g : FrameId} {head : Value} (id : Identity)
      (hgiven : .callable (.operative m g [.forwarding bodyId carId]) ∈ given)
      (hseeded : s.Seeded g)
      (hhead : head.StandsFor s scope (.operative m g [.forwarding bodyId carId])) :
      WrappedAs s given scope form (.list id [head, form])

/-- After evaluation every runtime stands as before. -/
theorem standings_evaluate (form : Value) (scope : FrameId) (s : Store) :
    (evaluate form scope s).2.standings = s.standings :=
  Realm.Runs.standings (Realm.runs_evaluate (fun _ _ => trivial) trivial)

namespace Reachable

open Relabelling

variable {s t : Store} {given : List Value} {form wrapper : Value} {scope : FrameId}

/-- An operative that a host has in hand was made in a scope that is there. -/
theorem lt_of_operative (h : Reachable s given) {m : Identity} {g : FrameId} {body : List Value}
    (hm : .callable (.operative m g body) ∈ given) : g < s.frames.size := by
  obtain ⟨w, rfl, hgiven⟩ := h.isRecorded
  exact (Realm.value_operative.1 (hgiven _ hm)).1

/-- Every wrapper comes down to its form. -/
theorem comesDown (h : Reachable s given) (hscope : .scope scope ∈ given)
    (hseeded : s.Seeded scope) (hunlimited : s.EveryLimits (·.stepLimit = none))
    (hwrapper : form.WrappedAs s given scope wrapper) (n : Nat) :
    s.ComesDown (s.relimit (.deeper 3)) n wrapper form scope := by
  have hu := h.resting.within_deeper hunlimited 3
  have husable := hu.usable h.rooted h.resting (h.lt_of_scope hscope) hseeded
  cases hwrapper with
  | eval id quoteId => exact husable.comesDown_eval hu n id quoteId form
  | sequence id => exact husable.comesDown_sequence hu n id form
  | branch id => exact husable.comesDown_branch hu n id form
  | operative id hgiven hseeded hhead =>
    exact husable.comesDown_operative hu h.rooted h.resting (h.lt_of_operative hgiven) hseeded
      (hhead.congr rfl) n id form

/-- Wrappers are transparent. Without step limits, what a form comes to other than running out of
places, a wrapper of it comes to with three more places, and it has the same effect: what was there
before keeps its name, and what is made in between may get another one. -/
theorem wrappers_transparent {result : Except Halt Value} (h : Reachable s given)
    (hform : form ∈ given) (hscope : .scope scope ∈ given) (hseeded : s.Seeded scope)
    (hunlimited : s.EveryLimits (·.stepLimit = none)) (hrun : evaluate form scope s = (result, t))
    (hplaces : ∀ limit, result ≠ .error (.error (.recursionLimit limit)))
    (hwrapper : form.WrappedAs s given scope wrapper) :
    ∃ (ρ : Relabelling) (u : Store),
      (∀ f < s.frames.size, ρ.frame f = f) ∧ (∀ id < s.nextIdentity, ρ.identity id = id) ∧
      evaluate wrapper scope (s.relimit (.deeper 3)) = (result.map ρ.value, u) ∧
      (∀ f, u.frames[ρ.frame f]? = t.frames[f]?.map ρ.frameOf) ∧
      u.vectors = t.vectors.map (fun items => items.map ρ.value) ∧
      u.standings = (t.relimit (.deeper 3)).standings := by
  have hu := h.resting.within_deeper hunlimited 3
  obtain ⟨i, r, hi, hr, -⟩ := h.resting.runtime_of_frame (h.lt_of_scope hscope)
  obtain ⟨n, hn, hfuel⟩ := hu.exists_fuel (Nat.zero_lt_of_lt (Array.getElem?_eq_some_iff.1 hr).1)
  obtain ⟨v, fuel, finish, hv, hlt, hfinish, hcomes⟩ :=
    h.comesDown hscope hseeded hunlimited hwrapper n
  obtain ⟨w, hw, hframes, hvectors⟩ :=
    h.evaluateWithin_into hform hscope hrun hplaces hv (Nat.lt_of_le_of_lt hn hlt)
  have hwrapped : evaluate wrapper scope (s.relimit (.deeper 3)) =
      (result.map (into s v).value, finish w) := by
    rw [evaluate, Store.evaluator, hfuel, hcomes, hw]
  refine ⟨into s v, finish w, fun f => moved_of_lt, fun id => moved_of_lt, hwrapped, fun f => ?_,
    ?_, ?_⟩
  · rw [(hfinish w).1]
    exact hframes f
  · rw [(hfinish w).2]
    exact hvectors
  · have hwrapper := standings_evaluate wrapper scope (s.relimit (.deeper 3))
    have hform := standings_evaluate form scope s
    rw [hwrapped] at hwrapper
    rw [hrun] at hform
    rw [hwrapper, Store.standings_relimit, Store.standings_relimit, hform]

/-- A fresh sandbox with three places, seen from one without any. -/
theorem exists_within_fresh :
    ∃ bare : Store, 0 < bare.runtimes.size ∧
      bare.Within 3 (Store.empty.withEngine .standard ⟨3, none⟩) ∧
      bare.Usable (Store.empty.withEngine .standard ⟨3, none⟩) 0 := by
  have hbare : Reachable (Store.empty.withEngine .standard ⟨0, none⟩) [.scope Engine.first.root] :=
    .create .start (Engine.create_eq .standard ⟨0, none⟩ .empty)
  have hunlimited :
      (Store.empty.withEngine .standard ⟨0, none⟩).EveryLimits (·.stepLimit = none) := by
    intro i r hr
    rw [Store.eq_of_runtime_withEngine hr]
  have hwithin := hbare.resting.within_deeper hunlimited 3
  have husable := hwithin.usable hbare.rooted hbare.resting
    (hbare.lt_of_scope (List.mem_singleton.2 rfl))
    (Store.seeded_withEngine .empty .standard ⟨0, none⟩)
  rw [← Store.withEngine_relimit] at hwithin husable
  exact ⟨_, by simp [Store.runtimes_withEngine], hwithin, husable⟩

/-- A sandbox that has read an operative and a definition can make the first and then evaluate the
second. It does not matter what else the sandbox binds. -/
theorem exists_operative {bare fresh : Store} (hsome : 0 < bare.runtimes.size)
    (hwithin : bare.Within 3 fresh) (husable : bare.Usable fresh 0)
    (hmake : fresh.lookup? 0 "macro" = some (.callable (.primitive (.special .operative) none)))
    (hdefine : fresh.lookup? 0 "define" = some (.callable (.primitive (.special .define) none)))
    {body : Value} {id defineId : Identity}
    (hread : Reachable fresh.freshened.freshened.freshened.freshened
      [.list id [.sym "macro", body], .list defineId [.sym "define", .sym "y", .int 1], .scope 0]) :
    ∃ (s t : Store) (given : List Value) (m : Identity),
      Reachable s given ∧ .callable (.operative m 0 [body]) ∈ given ∧
      .list defineId [.sym "define", .sym "y", .int 1] ∈ given ∧ .scope 0 ∈ given ∧
      bare.Within 3 s ∧ s.Seeded 0 ∧
      evaluate (.list defineId [.sym "define", .sym "y", .int 1]) 0 s = (.ok (.int 1), t) := by
  replace hwithin := hwithin.freshened.freshened.freshened.freshened
  replace husable := husable.freshened.freshened.freshened.freshened
  obtain ⟨n, -, hfuel⟩ := hwithin.exists_fuel hsome
  obtain ⟨s, m, hs, hframes, hmade⟩ := husable.operative hwithin
    ((Store.lookup?_congr rfl 0 "macro").trans hmake) (n + 2) id [body]
  have hscope : Value.scope 0 ∈ [.list id [.sym "macro", body],
      .list defineId [.sym "define", .sym "y", .int 1], .scope 0] := by simp
  have hreach := hread.evaluated (List.mem_cons_self ..) hscope
  rw [evaluate, Store.evaluator, hfuel, hmade] at hreach
  replace husable := husable.congr hframes
  obtain ⟨k, -, hfuel⟩ := hs.exists_fuel hsome
  obtain ⟨v, called, -, -, -, hdefined⟩ := husable.application hs
    ((Store.lookup?_congr hframes 0 "define").trans hdefine) (k + 2) defineId [.sym "y", .int 1]
  refine ⟨s, (v.define 0 "y" (.int 1)).leave 0, _, m, hreach, List.mem_cons_self .., ?_, ?_, hs,
    husable.seeded, ?_⟩
  · simp [Eval.handed]
  · simp [Eval.handed]
  · rw [evaluate, Store.evaluator, hfuel]
    exact hdefined

/-- In a fresh sandbox, a definition is wrapped with an operative that was made there, and in every
other way. -/
theorem wrappers_transparent_definition :
    ∃ (s : Store) (given : List Value) (m : Callable Value) (form : Value),
      Reachable s given ∧ form.display = "(define y 1)" ∧ (evaluate form 0 s).1 = .ok (.int 1) ∧
      form.WrappedAs s given 0 (.list 0 [.callable m, form]) ∧
      ∀ wrapper, form.WrappedAs s given 0 wrapper →
        (evaluate wrapper 0 (s.relimit (.deeper 3))).1 = .ok (.int 1) := by
  obtain ⟨bare, hsome, hwithin, husable⟩ := exists_within_fresh
  have hmake := Store.lookup?_withEngine .empty .standard ⟨3, none⟩ (x := .callable (.primitive
    (.special .operative) none)) (show Assoc.find? "macro" Engine.seed = _ from rfl)
  have hdefine := Store.lookup?_withEngine .empty .standard ⟨3, none⟩ (x := .callable (.primitive
    (.special .define) none)) (show Assoc.find? "define" Engine.seed = _ from rfl)
  have hforms : Form.read "(macro (eval (car #arguments) #scope)) (define y 1)" =
    .ok [.list [.sym "macro", .list [.sym "eval", .list [.sym "car", .sym "#arguments"],
      .sym "#scope"]], .list [.sym "define", .sym "y", .int 1]] := by rfl
  have hread := (Reachable.start.create (Engine.create_eq .standard ⟨3, none⟩ .empty)).read "text"
    "(macro (eval (car #arguments) #scope)) (define y 1)"
  rw [Eval.readForms, hforms] at hread
  obtain ⟨s, t, given, m, hreach, hgiven, hform, hscope, hs, hseeded, hresult⟩ :=
    exists_operative hsome hwithin husable hmake hdefine hread
  refine ⟨s, given, _, _, hreach, rfl, congrArg Prod.fst hresult,
    .operative 0 hgiven hseeded (Or.inl rfl), fun wrapper hwrapper => ?_⟩
  obtain ⟨ρ, u, -, -, hrun, -⟩ := wrappers_transparent hreach hform hscope hseeded hs.unlimited
    hresult (fun _ h => by cases h) hwrapper
  rw [hrun]
  rfl

end Reachable

end ConfinedLisp
