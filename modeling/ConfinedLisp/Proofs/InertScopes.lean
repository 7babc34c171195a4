import ConfinedLisp.Proofs.Keeping
import ConfinedLisp.Proofs.Session
import ConfinedLisp.Proofs.Territory

/-!
# Scopes without bindings

Where no name is bound there is nothing that could be applied: every symbol evaluates to nil, and
the innermost head of a list is a symbol, a literal or the empty list, none of which gives a
callable. So no text changes a frame or a vector there, and it never comes to a binding.

## Main definitions

- `Store.Inert`: no frame of the chain of a scope binds a name.
- `Value.innermost`: what is reached by taking heads.
- `Value.Written`: a value that the reader can make.
- `Value.ComesTo`: what a form evaluates to where no name is bound.
- `Eval.Untouching`: a computation leaves frames and vectors alone.

## Main results

- `Store.Inert.untouching_evaluate`: a form evaluates to what it comes to, and leaves frames and
  vectors alone.
- `inert_scopes_stay_inert`: the same for a whole sequence of texts.
-/

namespace ConfinedLisp

/-! ### The outcome of a form -/

namespace Value

/-- What is reached by taking heads, for as long as there is one. -/
def innermost : Value → Value
  | .list _ (head :: _) => head.innermost
  | v => v

/-- A value that the reader can make. -/
inductive Written : Value → Prop
  | int (n : Int64) : Written (.int n)
  | float (x : Float) : Written (.float x)
  | str (s : String) : Written (.str s)
  | sym (name : String) : Written (.sym name)
  | list (id : Identity) {items : List Value} (hitems : ∀ v ∈ items, v.Written) :
      Written (.list id items)

/-- What a form evaluates to where no name is bound. A list with a head fails: there is no place or
no step left for it, or else what its innermost head evaluates to is no callable. -/
inductive ComesTo : Value → Except Halt Value → Prop
  | symbol (name : String) : ComesTo (.sym name) (.ok .nil)
  | int (n : Int64) : ComesTo (.int n) (.ok (.int n))
  | float (x : Float) : ComesTo (.float x) (.ok (.float x))
  | str (s : String) : ComesTo (.str s) (.ok (.str s))
  | empty (id : Identity) : ComesTo (.list id []) (.ok (.list id []))
  | tooDeep (id : Identity) (head : Value) (rest : List Value) (limit : Nat) :
      ComesTo (.list id (head :: rest)) (.error (.error (.recursionLimit limit)))
  | tooLong (id : Identity) (head : Value) (rest : List Value) (limit : Nat) :
      ComesTo (.list id (head :: rest)) (.error (.error (.budgetExceeded limit)))
  | notCallable (id : Identity) (head : Value) (rest : List Value) {w : Value}
      (hw : head.innermost.ComesTo (.ok w)) :
      ComesTo (.list id (head :: rest))
        (.error (.error (.typeMismatch head.innermost.display .callable w.kind)))

/-- What some forms come to one after the other: the last of their values, unless one of them
fails. -/
inductive ComeTo : Value → List Value → Except Halt Value → Prop
  | nil (last : Value) : ComeTo last [] (.ok last)
  | halts {v : Value} {halt : Halt} (last : Value) (rest : List Value)
      (h : v.ComesTo (.error halt)) : ComeTo last (v :: rest) (.error halt)
  | goesOn {v w : Value} {rest : List Value} {result : Except Halt Value} (last : Value)
      (h : v.ComesTo (.ok w)) (hrest : ComeTo w rest result) : ComeTo last (v :: rest) result

namespace ComesTo

variable {v w : Value} {halt : Halt}

/-- What has a value has no head. -/
theorem innermost_of_ok (h : v.ComesTo (.ok w)) : v.innermost = v := by
  cases h <;> rfl

theorem not_callable (h : v.ComesTo (.ok w)) (c : Callable Value) : w ≠ .callable c := by
  cases h <;> nofun

/-- A list fails as its head does. -/
theorem cons (h : v.ComesTo (.error halt)) (id : Identity) (rest : List Value) :
    (Value.list id (v :: rest)).ComesTo (.error halt) := by
  cases h with
  | tooDeep _ _ _ limit => exact .tooDeep id _ rest limit
  | tooLong _ _ _ limit => exact .tooLong id _ rest limit
  | notCallable _ head tail hw => exact .notCallable id (.list _ (head :: tail)) rest hw

end ComesTo

end Value

/-! ### Nothing is bound -/

namespace Store

/-- No frame of the chain of a scope binds a name. -/
def Inert (s : Store) (f : FrameId) : Prop := ∀ g ∈ s.chain f, s.bindings g = []

variable {s t : Store} {f : FrameId}

theorem chainWithin_congr (h : t.frames = s.frames) (fuel : Nat) (f : FrameId) :
    t.chainWithin fuel f = s.chainWithin fuel f := by
  induction fuel generalizing f with
  | zero => rfl
  | succ fuel ih => simp only [chainWithin, h, ih]

theorem Inert.congr (hs : s.Inert f) (h : t.frames = s.frames) : t.Inert f := by
  intro g hg
  rw [chain, chainWithin_congr h] at hg
  rw [bindings, h]
  exact hs g hg

/-- A frame without parent and without bindings. -/
theorem inert_of_root (hparent : s.parent? f = none) (hbindings : s.bindings f = []) :
    s.Inert f := by
  intro g hg
  rw [chain, chainWithin] at hg
  cases hframe : s.frames[f]? with
  | none =>
    rw [hframe] at hg
    cases hg
  | some frame =>
    have hnone : frame.parent = none := by simpa [parent?, hframe] using hparent
    rw [hframe] at hg
    dsimp only at hg
    rw [hnone] at hg
    obtain rfl := List.mem_singleton.1 hg
    exact hbindings

theorem inert_addFrame (s : Store) (runtime : RuntimeId) :
    (s.addFrame none runtime).2.Inert s.frames.size := by
  refine inert_of_root ?_ ?_
  · rw [parent?, frames_addFrame, if_pos rfl]
    rfl
  · rw [bindings, frames_addFrame, if_pos rfl]

/-- Without its bindings a root is inert. -/
theorem inert_clear (hparent : s.parent? f = none) : (s.clear f).Inert f := by
  have hframe : (s.clear f).frames[f]? =
      s.frames[f]?.map fun frame => { frame with bindings := [] } := by
    simp [clear, Array.getElem?_modify]
  refine inert_of_root ?_ ?_
  · rw [parent?, hframe]
    cases hf : s.frames[f]? with
    | none => rfl
    | some frame => simpa [parent?, hf] using hparent
  · rw [bindings, hframe]
    cases s.frames[f]? <;> rfl

theorem parent?_withEngine (s : Store) (registry : Registry) (limits : Limits) :
    (s.withEngine registry limits).parent? s.frames.size = none := by
  have hadded : ((s.addRuntime registry limits).2.addFrame none s.runtimes.size).2.parent?
      s.frames.size = none := by
    simp [parent?, addFrame, addRuntime]
  rw [withEngine, (shape_bindAll _ _ _ _).2, hadded]

theorem Inert.get (hs : s.Inert f) (name : String) : s.get f name = .nil := by
  have hnone : s.lookup? f name = none := by
    rw [lookup?_eq_findSome?, List.findSome?_eq_none_iff]
    intro g hg
    rw [localValue?, hs g hg]
    rfl
  rw [Store.get, hnone]
  rfl

/-- An application is refused for want of a place or of a step. -/
theorem enter_eq_error {e : EvalError} (h : (s.enter f).1 = .error e) :
    (∃ limit, e = .recursionLimit limit) ∨ ∃ limit, e = .budgetExceeded limit := by
  rcases s.runtime?_cases f with hnone | ⟨i, r, hi, hr⟩
  · rw [enter_of_no_runtime hnone] at h
    cases h
    exact Or.inl ⟨_, rfl⟩
  · rw [enter_of_runtime hi hr] at h
    rcases r.hasStep_or with hstep | ⟨limit, hlimit, hsteps⟩
    · rcases Nat.lt_or_ge r.depth r.limits.maxDepth with hdepth | hdepth
      · rw [Runtime.enter_of_place hstep hdepth] at h
        cases h
      · rw [Runtime.enter_of_no_place hstep hdepth] at h
        cases h
        exact Or.inl ⟨_, rfl⟩
    · rw [Runtime.enter_of_no_step hlimit hsteps] at h
      cases h
      exact Or.inr ⟨_, rfl⟩

end Store

/-! ### Evaluation where nothing is bound -/

/-- A computation ends with a result of some kind and leaves frames and vectors alone. -/
def Eval.Untouching {α : Type} (x : Eval α) (s : Store) (Q : Except Halt α → Prop) : Prop :=
  ∃ result t, x s = (result, t) ∧ t.frames = s.frames ∧ t.vectors = s.vectors ∧ Q result

namespace Eval.Untouching

variable {α β : Type} {x : Eval α} {s : Store} {f : FrameId} {P : Except Halt α → Prop}
  {Q : Except Halt β → Prop}

theorem pure {a : α} (h : P (.ok a)) : (Eval.pure a).Untouching s P := ⟨_, s, rfl, rfl, rfl, h⟩

theorem bind {k : α → Eval β} (hx : x.Untouching s P)
    (hhalt : ∀ halt, P (.error halt) → Q (.error halt))
    (hk : ∀ a t, t.frames = s.frames → P (.ok a) → (k a).Untouching t Q) :
    (x.bind k).Untouching s Q := by
  obtain ⟨result, t, hrun, hframes, hvectors, hresult⟩ := hx
  cases result with
  | error halt => exact ⟨_, t, bind_of_error hrun k, hframes, hvectors, hhalt halt hresult⟩
  | ok a =>
    obtain ⟨result, u, hrest, hframes', hvectors', hq⟩ := hk a t hframes hresult
    exact ⟨result, u, (bind_of_ok hrun k).trans hrest, hframes'.trans hframes,
      hvectors'.trans hvectors, hq⟩

theorem within (hok : (s.enter f).1 = .ok ()) (h : x.Untouching (s.enter f).2 P) :
    (Eval.within f x).Untouching s P := by
  obtain ⟨result, t, hx, hframes, hvectors, hresult⟩ := h
  refine ⟨result, t.leave f, ?_, ?_, ?_, hresult⟩
  · rw [Eval.within_of_ok x hok, hx]
  · rw [Store.frames_leave, hframes, Store.frames_enter]
  · rw [Store.vectors_leave, hvectors, Store.vectors_enter]

/-- A list is applied to no avail where its head comes to something. -/
theorem applyForm {ev : Evaluator} {head : Value} (h : (ev head f).Untouching s head.ComesTo)
    (id : Identity) (rest : List Value) :
    (ev.applyForm f head rest).Untouching s (Value.list id (head :: rest)).ComesTo := by
  refine h.bind (fun halt hhalt => hhalt.cons id rest) fun w t _ hw => ?_
  have hmismatch : (Value.list id (head :: rest)).ComesTo
      (.error (.error (.typeMismatch head.display .callable w.kind))) := by
    have hinnermost := hw.innermost_of_ok
    have hlist := Value.ComesTo.notCallable id head rest (w := w) (by rwa [hinnermost])
    rwa [hinnermost] at hlist
  cases w with
  | callable c => exact absurd rfl (hw.not_callable c)
  | _ => exact ⟨_, t, rfl, rfl, rfl, hmismatch⟩

end Eval.Untouching

namespace Store.Inert

variable {s : Store} {f : FrameId}

/-- Evaluating a form, by induction on the fuel, of which there is enough for every place that is
left. -/
theorem untouching_evaluateWithin (fuel : Nat) (hs : s.Inert f) {v : Value} (hv : v.Written)
    (hfuel : s.headroom < fuel) : (evaluateWithin fuel v f).Untouching s v.ComesTo := by
  induction fuel generalizing s v with
  | zero => exact absurd hfuel (Nat.not_lt_zero _)
  | succ fuel ih =>
    cases hv with
    | int n => exact .pure (.int n)
    | float x => exact .pure (.float x)
    | str text => exact .pure (.str text)
    | sym name =>
      refine ⟨.ok (s.get f name), s, rfl, rfl, rfl, ?_⟩
      rw [hs.get]
      exact .symbol name
    | @list id items hitems =>
      cases items with
      | nil => exact .pure (.empty id)
      | cons head rest =>
        show (Eval.within f ((evaluateWithin fuel).applyForm f head rest)).Untouching s _
        rcases s.enter_cases f with ⟨e, he, -⟩ | ⟨i, r, -, hr, hplace, hok, hstandings⟩
        · refine ⟨_, _, Eval.within_of_error _ he, s.frames_enter f, s.vectors_enter f, ?_⟩
          rcases enter_eq_error he with ⟨limit, rfl⟩ | ⟨limit, rfl⟩
          · exact .tooDeep id head rest limit
          · exact .tooLong id head rest limit
        · -- The place that is taken pays for the head.
          have hroom := headroom_of_place hr hplace hstandings
          have hhead := hitems head (List.mem_cons_self ..)
          have hcomes := ih (hs.congr (s.frames_enter f)) hhead (by omega)
          exact (hcomes.applyForm id rest).within hok

theorem untouching_evaluate (hs : s.Inert f) {v : Value} (hv : v.Written) :
    (evaluate v f).Untouching s v.ComesTo :=
  hs.untouching_evaluateWithin (s.headroom + 1) hv (Nat.lt_succ_self _)

theorem untouching_lastFrom (hs : s.Inert f) (last : Value) {values : List Value}
    (hvalues : ∀ v ∈ values, v.Written) :
    (Evaluator.lastFrom evaluate f last values).Untouching s (Value.ComeTo last values) := by
  induction values generalizing s last with
  | nil => exact .pure (.nil last)
  | cons v rest ih =>
    obtain ⟨hv, hrest⟩ := List.forall_mem_cons.1 hvalues
    refine (hs.untouching_evaluate hv).bind (fun halt h => .halts last rest h) ?_
    intro w t hframes hw
    obtain ⟨result, u, hrun, hframes', hvectors', hcome⟩ := ih (hs.congr hframes) w hrest
    exact ⟨result, u, hrun, hframes', hvectors', .goesOn last hw hcome⟩

end Store.Inert

/-! ### Reading -/

/-- A result that is a value of some kind. -/
inductive Eval.Succeeds {α : Type} (P : α → Prop) : Except Halt α → Prop
  | ok {a : α} (h : P a) : Succeeds P (.ok a)

namespace Eval

mutual

/-- The reader makes what it can make, and touches nothing. -/
theorem untouching_ofForm (form : Form) (s : Store) :
    (ofForm form).Untouching s (Succeeds Value.Written) := by
  cases form with
  | int n => exact .pure (.ok (.int n))
  | float x => exact .pure (.ok (.float x))
  | str text => exact .pure (.ok (.str text))
  | sym name => exact .pure (.ok (.sym name))
  | list items =>
    rw [ofForm]
    refine (untouching_ofForms items s).bind nofun ?_
    rintro values t - ⟨hvalues⟩
    exact ⟨_, _, rfl, rfl, rfl, .ok (.list t.nextIdentity hvalues)⟩

theorem untouching_ofForms (forms : List Form) (s : Store) :
    (ofForms forms).Untouching s (Succeeds fun values => ∀ v ∈ values, v.Written) := by
  cases forms with
  | nil => exact .pure (.ok fun _ hv => by cases hv)
  | cons form rest =>
    rw [ofForms]
    refine (untouching_ofForm form s).bind nofun ?_
    rintro v t - ⟨hv⟩
    refine (untouching_ofForms rest t).bind nofun ?_
    rintro values u - ⟨hvalues⟩
    exact .pure (.ok (List.forall_mem_cons.2 ⟨hv, hvalues⟩))

end

end Eval

namespace Engine

/-- The store after some texts, each of which may succeed or fail. -/
def after (engine : Engine) (texts : List String) (s : Store) : Store :=
  texts.foldl (fun s text => (engine.evalSource text s).2) s

theorem evalNamed_of_fault (engine : Engine) (name : String) {text : String} {fault : Fault}
    (hread : Form.read text = .error fault) (s : Store) :
    engine.evalNamed name text s = (.error (.error (.unreadable name fault)), s) := by
  have hforms : Eval.readForms name text s = (.error (.error (.unreadable name fault)), s) := by
    rw [Eval.readForms, hread]
    rfl
  exact Eval.bind_of_error hforms _

end Engine

namespace Store.Inert

variable {s : Store} {f : FrameId}

/-- A text that can be read: its forms come to what they come to one after the other. -/
theorem untouching_evalNamed (hs : s.Inert f) (name : String) {text : String} {forms : List Form}
    (hread : Form.read text = .ok forms) :
    ∃ values t, Eval.ofForms forms s = (.ok values, t) ∧ t.frames = s.frames ∧
      (∀ v ∈ values, v.Written) ∧
      (Engine.evalNamed ⟨f⟩ name text).Untouching s (Value.ComeTo .nil values) := by
  obtain ⟨_, t, hforms, hframes, hvectors, ⟨hvalues⟩⟩ := Eval.untouching_ofForms forms s
  next values =>
  refine ⟨values, t, hforms, hframes, hvalues, ?_⟩
  obtain ⟨result, u, hrun, hframes', hvectors', hcome⟩ :=
    (hs.congr hframes).untouching_lastFrom .nil hvalues
  have hreadForms : Eval.readForms name text s = (.ok values, t) := by
    rw [Eval.readForms, hread]
    exact hforms
  exact ⟨result, u, (Eval.bind_of_ok hreadForms _).trans hrun, hframes'.trans hframes,
    hvectors'.trans hvectors, hcome⟩

/-- Whatever is evaluated in an inert scope, no frame and no vector changes. -/
theorem evalSource (hs : s.Inert f) (text : String) :
    (Engine.evalSource ⟨f⟩ text s).2.frames = s.frames ∧
      (Engine.evalSource ⟨f⟩ text s).2.vectors = s.vectors := by
  cases hread : Form.read text with
  | error fault =>
    have hrefused := Engine.evalNamed_of_fault ⟨f⟩ Engine.defaultSourceName hread s
    rw [Engine.evalSource, hrefused]
    exact ⟨rfl, rfl⟩
  | ok forms =>
    obtain ⟨_, _, -, -, -, result, t, hrun, hframes, hvectors, -⟩ :=
      hs.untouching_evalNamed Engine.defaultSourceName hread
    rw [Engine.evalSource, hrun]
    exact ⟨hframes, hvectors⟩

theorem after (hs : s.Inert f) (texts : List String) :
    (Engine.after ⟨f⟩ texts s).frames = s.frames ∧
      (Engine.after ⟨f⟩ texts s).vectors = s.vectors := by
  induction texts generalizing s with
  | nil => exact ⟨rfl, rfl⟩
  | cons text rest ih =>
    obtain ⟨hframes, hvectors⟩ := hs.evalSource text
    obtain ⟨hframes', hvectors'⟩ := ih (hs.congr hframes)
    exact ⟨hframes'.trans hframes, hvectors'.trans hvectors⟩

end Store.Inert

/-- **A scope without bindings stays without.** Such scopes are a new root, a detached scope and the
root of an engine that has been dropped. After any texts that are evaluated in such a scope, no
frame and no vector is other than before. A further text is refused by the reader or comes to what
its forms come to: a symbol to nil, a literal and the empty list to itself, and a list with a head
to a failure for want of a place or of a step, or because its innermost head is no callable. -/
theorem inert_scopes_stay_inert :
    (∀ registry limits s, (Eval.newRoot registry limits s).1 = .ok s.frames.size ∧
      (Eval.newRoot registry limits s).2.Inert s.frames.size) ∧
    (∀ f s, (Eval.newDetached f s).1 = .ok s.frames.size ∧
      (Eval.newDetached f s).2.Inert s.frames.size) ∧
    (∀ registry limits s engine t u, Engine.create registry limits s = (.ok engine, t) →
      u.parent? engine.root = t.parent? engine.root → (engine.drop u).2.Inert engine.root) ∧
    ∀ (s : Store) (f : FrameId), s.Inert f → ∀ texts : List String,
      let t := Engine.after ⟨f⟩ texts s
      t.frames = s.frames ∧ t.vectors = s.vectors ∧ t.Inert f ∧
      ∀ name text : String,
        (∀ fault, Form.read text = .error fault →
          Engine.evalNamed ⟨f⟩ name text t = (.error (.error (.unreadable name fault)), t)) ∧
        ∀ forms, Form.read text = .ok forms →
          ∃ values u, Eval.ofForms forms t = (.ok values, u) ∧ u.frames = s.frames ∧
            (Engine.evalNamed ⟨f⟩ name text).Untouching t (Value.ComeTo .nil values) ∧
            ∀ v ∈ values, ∀ now, now.frames = s.frames →
              (evaluate v f).Untouching now v.ComesTo := by
  refine ⟨fun registry limits s => ⟨rfl, ?_⟩, fun f s => ⟨rfl, Store.inert_addFrame s _⟩, ?_, ?_⟩
  · exact Store.inert_addFrame (s.addRuntime registry limits).2 s.runtimes.size
  · intro registry limits s engine t u hcreate hparent
    rw [Engine.create_eq] at hcreate
    cases hcreate
    rw [Store.parent?_withEngine] at hparent
    exact Store.inert_clear hparent
  · intro s f hs texts t
    obtain ⟨hframes, hvectors⟩ := hs.after texts
    have ht : t.Inert f := hs.congr hframes
    refine ⟨hframes, hvectors, ht, fun name text => ⟨fun fault hread => ?_, fun forms hread => ?_⟩⟩
    · exact Engine.evalNamed_of_fault ⟨f⟩ name hread t
    · obtain ⟨values, u, hforms, hsame, hvalues, hrun⟩ := ht.untouching_evalNamed name hread
      refine ⟨values, u, hforms, hsame.trans hframes, hrun, fun v hv now hnow => ?_⟩
      exact (hs.congr hnow).untouching_evaluate (hvalues v hv)

/-- An engine is dropped, and a definition and an application are tried at its root. -/
theorem inert_scopes_stay_inert_dropped :
    let gone := (Engine.first.drop (Store.empty.withEngine .standard {})).2
    gone.Inert 0 ∧ (Engine.after ⟨0⟩ ["(define x 1)"] gone).Inert 0 ∧
      ∃ values u, Eval.ofForms [.sym "x", .list [.list [.int 1, .int 2], .sym "x"]]
        (Engine.after ⟨0⟩ ["(define x 1)"] gone) = (.ok values, u) ∧
        (Engine.evalNamed ⟨0⟩ "text" "x ((1 2) x)").Untouching
          (Engine.after ⟨0⟩ ["(define x 1)"] gone) (Value.ComeTo .nil values) ∧
        Value.ComeTo .nil values (.error (.error (.typeMismatch "1" .callable .int))) := by
  obtain ⟨-, -, hdrop, hinert⟩ := inert_scopes_stay_inert
  have hgone := hdrop .standard {} .empty Engine.first (Store.empty.withEngine .standard {})
    (Store.empty.withEngine .standard {}) (Engine.create_eq .standard {} .empty) rfl
  intro gone
  obtain ⟨-, -, hafter, htext⟩ := hinert gone 0 hgone ["(define x 1)"]
  obtain ⟨-, hread⟩ := htext "text" "x ((1 2) x)"
  have hforms : Form.read "x ((1 2) x)" =
    .ok [.sym "x", .list [.list [.int 1, .int 2], .sym "x"]] := by rfl
  obtain ⟨values, u, hvalues, -, hrun, -⟩ := hread _ hforms
  refine ⟨hgone, hafter, values, u, hvalues, hrun, ?_⟩
  -- What the forms come to does not depend on what has been tried before.
  generalize Engine.after ⟨0⟩ ["(define x 1)"] gone = now at hvalues
  cases hvalues
  refine .goesOn _ (.symbol "x") (.halts _ _ ?_)
  exact .notCallable _ (.list _ [.int 1, .int 2]) _ (.int 1)

end ConfinedLisp
