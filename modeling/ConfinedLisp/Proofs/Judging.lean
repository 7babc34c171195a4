import ConfinedLisp.Proofs.Effects

/-!
# What evaluation can do

Special forms, closures and control operations evaluate forms. They respect a judgment if the
evaluators they are given do, so the application of a form respects every judgment that its parts
do. This is where the built-ins are gone through, once for all properties of evaluation.

## Main results

- `Judgment.runSpecial`: special forms.
- `Judgment.call`: calls of callables with values, through any chain of control operations.
- `Judgment.applyForm`: the application of one form.
-/

namespace ConfinedLisp

namespace Judgment

variable {World : Type} {R : Realm World} (J : Judgment R) {w : World} {ev ev' : Evaluator}

/-- Two evaluators agree on every form that may be around, in every frame where it may be
evaluated. -/
def Respects (ev ev' : Evaluator) : Prop :=
  ∀ (w : World) (form : Value) (scope : FrameId), R.value w form → R.scope w scope →
    J.judge w (ev form scope) (ev' form scope) R.value

section Evaluators

variable {J} (hev : J.Respects ev ev')

include hev

/-! ### Sequences of forms -/

theorem evaluateValues {scope : FrameId} {forms : List Value} (hscope : R.scope w scope)
    (h : R.values w forms) :
    J.judge w (ev.values scope forms) (ev'.values scope forms) R.values := by
  induction forms generalizing w with
  | nil => exact J.pure Realm.values_nil
  | cons form rest ih =>
    obtain ⟨hform, hrest⟩ := Realm.values_cons.1 h
    refine J.bind (hev w form scope hform hscope) fun w₁ v hw₁ hv => ?_
    refine J.bind (ih (Realm.scope_later hw₁ hscope) (Realm.values_later hw₁ hrest))
      fun w₂ vs hw₂ hvs => ?_
    exact J.pure (Realm.values_cons.2 ⟨Realm.value_later hw₂ hv, hvs⟩)

theorem evaluateLast {scope : FrameId} {forms : List Value} {last : Value}
    (hscope : R.scope w scope) (hlast : R.value w last) (h : R.values w forms) :
    J.judge w (ev.lastFrom scope last forms) (ev'.lastFrom scope last forms) R.value := by
  induction forms generalizing w last with
  | nil => exact J.pure hlast
  | cons form rest ih =>
    obtain ⟨hform, hrest⟩ := Realm.values_cons.1 h
    refine J.bind (hev w form scope hform hscope) fun w₁ v hw₁ hv => ?_
    exact ih (Realm.scope_later hw₁ hscope) hv (Realm.values_later hw₁ hrest)

theorem evaluateBody {scope : FrameId} {forms : List Value} (hscope : R.scope w scope)
    (h : R.values w forms) :
    J.judge w (ev.body scope forms) (ev'.body scope forms) R.value :=
  evaluateLast hev hscope Realm.value_nil h

/-! ### Closures -/

theorem callFunction {frame : FrameId} {parameters : List String} {forms args : List Value}
    (hframe : R.captured w frame) (hforms : R.values w forms) (hargs : R.values w args) :
    J.judge w (ev.callFunction frame parameters forms args)
      (ev'.callFunction frame parameters forms args) R.value := by
  unfold Evaluator.callFunction
  split
  · exact J.fail trivial
  · refine J.bind (J.newChild hframe) fun w₁ inner hw₁ hinner => ?_
    refine J.bind (J.newList (Realm.values_later hw₁ hargs)) fun w₂ all hw₂ hall => ?_
    have hw₂' := R.later_trans hw₁ hw₂
    have hinner₂ := Realm.scope_later hw₂ hinner
    refine J.bind (J.bindAll hinner₂ fun pair hpair => ?_) fun w₃ _ hw₃ _ => ?_
    -- The frame binds the parameters, and then the list of all arguments.
    · rcases List.mem_append.1 hpair with hpair | hpair
      · exact Realm.value_later hw₂' (hargs _ (List.of_mem_zip hpair).2)
      · obtain rfl := List.mem_singleton.1 hpair
        exact hall
    · exact evaluateBody hev (Realm.scope_later hw₃ hinner₂)
        (Realm.values_later (R.later_trans hw₂' hw₃) hforms)

theorem applyOperative {caller frame : FrameId} {forms : List Value} {operands : Value}
    (hcaller : R.scope w caller) (hframe : R.captured w frame) (hforms : R.values w forms)
    (hoperands : R.value w operands) :
    J.judge w (ev.applyOperative caller frame forms operands)
      (ev'.applyOperative caller frame forms operands) R.value := by
  unfold Evaluator.applyOperative
  refine J.bind (J.newChild hframe) fun w₁ inner hw₁ hinner => ?_
  refine J.bind (J.bindAll hinner fun pair hpair => ?_) fun w₂ _ hw₂ _ => ?_
  · rcases List.mem_cons.1 hpair with rfl | hpair
    · exact Realm.value_scope.2 (Realm.scope_later hw₁ hcaller)
    · obtain rfl := List.mem_singleton.1 hpair
      exact Realm.value_later hw₁ hoperands
  · exact evaluateBody hev (Realm.scope_later hw₂ hinner)
      (Realm.values_later (R.later_trans hw₁ hw₂) hforms)

/-! ### Special forms -/

theorem bindEach {inner : FrameId} {bindings : List Value} (hinner : R.scope w inner)
    (h : R.values w bindings) :
    J.judge w (ev.bindEach inner bindings) (ev'.bindEach inner bindings) fun _ _ => True := by
  induction bindings generalizing w with
  | nil => exact J.pure trivial
  | cons binding rest ih =>
    obtain ⟨hbinding, hrest⟩ := Realm.values_cons.1 h
    unfold Evaluator.bindEach
    split
    · cases ‹_ = _›
    · next name form rest' hsplit =>
      cases hsplit
      obtain ⟨-, hitems⟩ := Realm.value_list.1 hbinding
      have hform : R.value w form := hitems form (by simp)
      refine J.bind (J.ofExcept (Operands.symbol_yields _ _)) fun w₁ name hw₁ _ => ?_
      have hinner₁ := Realm.scope_later hw₁ hinner
      refine J.bind (hev w₁ form inner (Realm.value_later hw₁ hform) hinner₁)
        fun w₂ v hw₂ hv => ?_
      have hinner₂ := Realm.scope_later hw₂ hinner₁
      refine J.bind (J.bindOne hinner₂ hv) fun w₃ _ hw₃ _ => ?_
      have hw := R.later_trans hw₁ (R.later_trans hw₂ hw₃)
      exact ih (Realm.scope_later hw hinner) (Realm.values_later hw hrest)
    · exact J.fail trivial

theorem evaluateEntries {scope : FrameId} {table : Table Value} {forms : List Value}
    (hscope : R.scope w scope) (hbuilt : table.Built) (htable : R.values w table.values)
    (h : R.values w forms) :
    J.judge w (ev.entries scope table forms) (ev'.entries scope table forms)
      fun w' t => t.Built ∧ R.values w' t.values := by
  induction forms generalizing w table with
  | nil => exact J.pure ⟨hbuilt, htable⟩
  | cons form rest ih =>
    obtain ⟨hform, hrest⟩ := Realm.values_cons.1 h
    -- A form without a key is evaluated and its value pushed.
    have hpush : ∀ form, R.value w form →
        J.judge w ((ev form scope).bind fun v => ev.entries scope (table.push v) rest)
          ((ev' form scope).bind fun v => ev'.entries scope (table.push v) rest)
          fun w' t => t.Built ∧ R.values w' t.values := by
      intro form hform
      refine J.bind (hev w form scope hform hscope) fun w₁ v hw₁ hv => ?_
      refine ih (Realm.scope_later hw₁ hscope) (hbuilt.push v) (fun x hx => ?_)
        (Realm.values_later hw₁ hrest)
      rcases Table.mem_values_push hx with rfl | hx
      · exact hv
      · exact Realm.value_later hw₁ (htable x hx)
    unfold Evaluator.entries
    split
    · cases ‹_ = _›
    · next key form rest' hsplit =>
      cases hsplit
      obtain ⟨-, hitems⟩ := Realm.value_list.1 hform
      refine J.bind (hev w key scope (hitems key (by simp)) hscope) fun w₁ k hw₁ hk => ?_
      have hscope₁ := Realm.scope_later hw₁ hscope
      refine J.bind (hev w₁ form scope (Realm.value_later hw₁ (hitems form (by simp))) hscope₁)
        fun w₂ v hw₂ hv => ?_
      refine J.bind (J.ofExcept (Operands.key_yields _ _)) fun w₃ k hw₃ _ => ?_
      have hw := R.later_trans hw₁ (R.later_trans hw₂ hw₃)
      refine ih (Realm.scope_later hw hscope) (hbuilt.insert k v) (fun x hx => ?_)
        (Realm.values_later hw hrest)
      rcases Table.mem_values_insert hx with rfl | hx
      · exact Realm.value_later hw₃ hv
      · exact Realm.value_later hw (htable x hx)
    · next form rest' hsplit =>
      cases hsplit
      obtain ⟨-, hitems⟩ := Realm.value_list.1 hform
      exact hpush form (hitems form (by simp))
    · next form rest' _ _ hsplit =>
      cases hsplit
      exact hpush form hform

theorem runDefine {scope : FrameId} {operands : List Value} (hscope : R.scope w scope)
    (h : R.values w operands) :
    J.judge w (SpecialForm.runDefine ev scope operands) (SpecialForm.runDefine ev' scope operands)
      R.value := by
  unfold SpecialForm.runDefine
  refine J.bind (J.ofExcept (Operands.count_yields _ _ _)) fun w₁ _ hw₁ _ => ?_
  refine J.bind (J.ofExcept (Operands.symbol_yields _ _)) fun w₂ name hw₂ _ => ?_
  have hw := R.later_trans hw₁ hw₂
  have hform := Operands.all_getD (R.part_plain w₂ _ trivial) (Realm.values_later hw h) 1
  refine J.bind (hev w₂ _ scope hform (Realm.scope_later hw hscope)) fun w₃ v hw₃ hv => ?_
  refine J.bind (J.define (Realm.scope_later (R.later_trans hw hw₃) hscope) hv)
    fun w₄ _ hw₄ _ => ?_
  exact J.pure (Realm.value_later hw₄ hv)

theorem runLet {scope : FrameId} {operands : List Value} (hscope : R.scope w scope)
    (h : R.values w operands) :
    J.judge w (SpecialForm.runLet ev scope operands) (SpecialForm.runLet ev' scope operands)
      R.value := by
  unfold SpecialForm.runLet
  refine J.bind (J.ofExcept (Operands.count_yields _ _ _)) fun w₁ _ hw₁ _ => ?_
  have h₁ := Realm.values_later hw₁ h
  have hhead : R.value w₁ (operands.headD .nil) :=
    Operands.all_headD (R.part_plain w₁ _ trivial) h₁
  split
  · next id bindings hbindings =>
    rw [hbindings, Realm.value_list] at hhead
    refine J.bind (J.newChild (R.captured_of_scope (Realm.scope_later hw₁ hscope)))
      fun w₂ inner hw₂ hinner => ?_
    refine J.bind (bindEach hev hinner (Realm.values_later hw₂ hhead.2)) fun w₃ _ hw₃ _ => ?_
    refine evaluateBody hev (Realm.scope_later hw₃ hinner) ?_
    exact Realm.values_later (R.later_trans hw₂ hw₃) fun v hv => h₁ v (List.mem_of_mem_drop hv)
  · exact J.fail trivial

theorem runBranch {scope : FrameId} {operands : List Value} (hscope : R.scope w scope)
    (h : R.values w operands) :
    J.judge w (SpecialForm.runBranch ev scope operands) (SpecialForm.runBranch ev' scope operands)
      R.value := by
  unfold SpecialForm.runBranch
  refine J.bind (J.ofExcept (Operands.count_yields _ _ _)) fun w₁ _ hw₁ _ => ?_
  have h₁ := Realm.values_later hw₁ h
  have hhead := Operands.all_headD (R.part_plain w₁ _ trivial) h₁
  refine J.bind (hev w₁ _ scope hhead (Realm.scope_later hw₁ hscope)) fun w₂ v hw₂ _ => ?_
  have hw := R.later_trans hw₁ hw₂
  have h₂ := Realm.values_later hw h
  have hscope₂ := Realm.scope_later hw hscope
  split
  · exact hev w₂ _ scope (Operands.all_getD (R.part_plain w₂ _ trivial) h₂ 1) hscope₂
  · split
    · next form hform => exact hev w₂ form scope (h₂ form (List.mem_of_getElem? hform)) hscope₂
    · exact J.pure Realm.value_nil

theorem runEval {scope : FrameId} {operands : List Value} (hscope : R.scope w scope)
    (h : R.values w operands) :
    J.judge w (SpecialForm.runEval ev scope operands) (SpecialForm.runEval ev' scope operands)
      R.value := by
  unfold SpecialForm.runEval
  refine J.bind (J.ofExcept (Operands.count_yields _ _ _)) fun w₁ _ hw₁ _ => ?_
  have h₁ := Realm.values_later hw₁ h
  have hhead := Operands.all_headD (R.part_plain w₁ _ trivial) h₁
  refine J.bind (hev w₁ _ scope hhead (Realm.scope_later hw₁ hscope)) fun w₂ form hw₂ hform => ?_
  have hw := R.later_trans hw₁ hw₂
  have hscope₂ := Realm.scope_later hw hscope
  split
  · exact hev w₂ form scope hform hscope₂
  · next scopeForm hfound =>
    have hscopeForm := Realm.values_later hw h scopeForm (List.mem_of_getElem? hfound)
    refine J.bind (hev w₂ scopeForm scope hscopeForm hscope₂) fun w₃ target hw₃ htarget => ?_
    split
    · exact hev w₃ form _ (Realm.value_later hw₃ hform) (Realm.value_scope.1 htarget)
    · exact J.fail trivial

/-- Running a special form on unevaluated operands. -/
theorem runSpecial (form : SpecialForm) {scope : FrameId} {operands : List Value}
    (hscope : R.scope w scope) (h : R.values w operands) :
    J.judge w (form.run ev scope operands) (form.run ev' scope operands) R.value := by
  cases form with
  | define => exact runDefine hev hscope h
  | letIn => exact runLet hev hscope h
  | lambda => exact J.runLambda hscope h
  | operative =>
    unfold SpecialForm.run
    refine J.bind (J.freshIdentity Realm.values_nil) fun w₁ id hw₁ _ => ?_
    have hscope₁ := R.captured_of_scope (Realm.scope_later hw₁ hscope)
    exact J.pure (Realm.value_operative.2 ⟨hscope₁, Realm.values_later hw₁ h⟩)
  | quote => exact J.effectless (SpecialForm.runQuote_yields (R.part_plain w) h)
  | branch => exact runBranch hev hscope h
  | dict =>
    have hempty : R.values w (Table.empty : Table Value).values := fun v hv => by
      simp [Table.empty, Table.values, Table.entries] at hv
    refine J.bind (evaluateEntries hev hscope .empty hempty h) fun w₁ t _ ht => ?_
    exact J.pure (ht.1.all (R.part_plain w₁) ht.2)
  | eval => exact runEval hev hscope h
  | sequence => exact evaluateBody hev hscope h
  | imports => exact J.bind (J.performImports hscope) fun w₁ vs _ hvs => J.newList hvs

end Evaluators

/-! ### Control operations -/

theorem expectCallable {name : String} {scope : FrameId} {v : Value} :
    J.judge w (Control.expectCallable name scope v) (Control.expectCallable name scope v)
      fun w' _ => (R.store w').isCallable scope v = true := by
  unfold Control.expectCallable
  refine J.bind (J.read fun _ _ h => Store.isCallable_rebudget h scope v) fun w₁ b _ hb => ?_
  obtain ⟨rfl, rfl⟩ := hb
  split
  · next hcallable => exact J.pure hcallable
  · exact J.fail trivial

section Calls

variable {ρ : Type} {P : World → ρ → Prop} (hP : ∀ {w w' r}, R.later w w' → P w r → P w' r)

include hP

theorem callEachOnto {call call' : ρ → Eval Value} {done : List Value} {rows : List ρ}
    (hcall : ∀ w' row, R.later w w' → P w' row → J.judge w' (call row) (call' row) R.value)
    (hdone : R.values w done) (hrows : ∀ row ∈ rows, P w row) :
    J.judge w (Control.callEachOnto call done rows) (Control.callEachOnto call' done rows)
      R.values := by
  induction rows generalizing w done with
  | nil => exact J.pure fun v hv => hdone v (List.mem_reverse.1 hv)
  | cons row rest ih =>
    refine J.bind (hcall w row (R.later_refl w) (hrows row (by simp))) fun w₁ v hw₁ hv => ?_
    refine ih (fun w' row hw => hcall w' row (R.later_trans hw₁ hw)) ?_ ?_
    · exact Realm.values_cons.2 ⟨hv, Realm.values_later hw₁ hdone⟩
    · exact fun row hrow => hP hw₁ (hrows row (by simp [hrow]))

theorem foldCalls {call call' : Value → ρ → Eval Value} {acc : Value} {items : List ρ}
    (hcall : ∀ w' acc item, R.later w w' → R.value w' acc → P w' item →
      J.judge w' (call acc item) (call' acc item) R.value)
    (hacc : R.value w acc) (hitems : ∀ item ∈ items, P w item) :
    J.judge w (Control.foldCalls call acc items) (Control.foldCalls call' acc items) R.value := by
  induction items generalizing w acc with
  | nil => exact J.pure hacc
  | cons item rest ih =>
    refine J.bind (hcall w acc item (R.later_refl w) hacc (hitems item (by simp)))
      fun w₁ v hw₁ hv => ?_
    refine ih (fun w' acc item hw => hcall w' acc item (R.later_trans hw₁ hw)) hv ?_
    exact fun item hitem => hP hw₁ (hitems item (by simp [hitem]))

end Calls

theorem keepTruthyOnto {call call' : Value → Eval Value} {kept items : List Value}
    (hcall : ∀ w' v, R.later w w' → R.value w' v → J.judge w' (call v) (call' v) R.value)
    (hkept : R.values w kept) (hitems : R.values w items) :
    J.judge w (Control.keepTruthyOnto call kept items) (Control.keepTruthyOnto call' kept items)
      R.values := by
  induction items generalizing w kept with
  | nil => exact J.pure fun v hv => hkept v (List.mem_reverse.1 hv)
  | cons v rest ih =>
    obtain ⟨hv, hrest⟩ := Realm.values_cons.1 hitems
    refine J.bind (hcall w v (R.later_refl w) hv) fun w₁ answer hw₁ _ => ?_
    refine ih (fun w' v hw => hcall w' v (R.later_trans hw₁ hw)) ?_ (Realm.values_later hw₁ hrest)
    split
    · exact Realm.values_cons.2 ⟨Realm.value_later hw₁ hv, Realm.values_later hw₁ hkept⟩
    · exact Realm.values_later hw₁ hkept

/-- Running a control operation, given the means to call its first operand. -/
theorem runControlWith (control : Control) {scope : FrameId} {operands : List Value}
    {call call' : Value → (args : List Value) → Control.reach args < Control.reach operands →
      Eval Value}
    (h : R.values w operands)
    (hcall : ∀ w' args hargs, R.later w w' →
      (R.store w').isCallable scope (operands.headD .nil) = true → R.values w' args →
        J.judge w' (call (operands.headD .nil) args hargs)
          (call' (operands.headD .nil) args hargs) R.value) :
    J.judge w (control.runWith scope operands call) (control.runWith scope operands call')
      R.value := by
  have hgetD : ∀ {w'} i, R.later w w' → R.value w' (operands.getD i .nil) := fun i hw =>
    Operands.all_getD (R.part_plain _ _ trivial) (Realm.values_later hw h) i
  -- Every operation that calls counts its operands and checks the first one.
  have hchecked : ∀ {name expected} {x y : Eval Value}, (∀ w', R.later w w' →
      (R.store w').isCallable scope (operands.headD .nil) = true → J.judge w' x y R.value) →
      J.judge w
        ((Eval.ofExcept (Operands.count name expected operands)).bind fun _ =>
          (Control.expectCallable name scope (operands.headD .nil)).bind fun _ => x)
        ((Eval.ofExcept (Operands.count name expected operands)).bind fun _ =>
          (Control.expectCallable name scope (operands.headD .nil)).bind fun _ => y) R.value := by
    intro name expected x y hxy
    refine J.bind (J.ofExcept (Operands.count_yields _ _ _)) fun w₁ _ hw₁ _ => ?_
    exact J.bind J.expectCallable fun w₂ _ hw₂ hcallable => hxy w₂ (R.later_trans hw₁ hw₂) hcallable
  -- What is called stays callable, so each of several calls may be made.
  have hcalls : ∀ {w₁ w₂ args} hargs, R.later w w₁ → R.later w₁ w₂ →
      (R.store w₁).isCallable scope (operands.headD .nil) = true → R.values w₂ args →
        J.judge w₂ (call (operands.headD .nil) args hargs) (call' (operands.headD .nil) args hargs)
          R.value := by
    intro w₁ w₂ args hargs hw₁ hw₂ hcallable hvalues
    have hcallable₂ := Realm.isCallable_later hw₂ hcallable
    exact hcall w₂ args hargs (R.later_trans hw₁ hw₂) hcallable₂ hvalues
  cases control with
  | apply =>
    refine hchecked fun w₁ hw₁ hcallable => ?_
    have hsequence := Operands.sequence_yields "apply" (hgetD 1 hw₁)
    split
    · next e he => exact J.fail (hsequence.ordinary he)
    · next args hok => exact hcall w₁ args _ hw₁ hcallable (hsequence.value hok)
  | map =>
    refine hchecked fun w₁ hw₁ hcallable => ?_
    have hsequences := Yields.mapM fun v hv => Operands.sequence_yields "map"
      (Realm.values_later hw₁ h v (List.mem_of_mem_drop (i := 1) hv))
    split
    · next e he => exact J.fail (hsequences.ordinary he)
    · next columns hok =>
      have hcolumns := hsequences.value hok
      refine J.bind (J.callEachOnto (P := fun w row => R.values w row.1) Realm.values_later
        (fun w₂ row hw₂ hrow => hcalls row.2 hw₁ hw₂ hcallable hrow) Realm.values_nil ?_)
        fun w₂ vs _ hvs => J.newList hvs
      intro row hrow v hv
      obtain ⟨column, hcolumn, hv⟩ :=
        (Control.mem_of_mem_lockstep ((List.mem_attachWith _ _).1 hrow)).2 v hv
      exact hcolumns column hcolumn v hv
  | filter =>
    refine hchecked fun w₁ hw₁ hcallable => ?_
    have hsequence := Operands.sequence_yields "filter" (hgetD 1 hw₁)
    split
    · next e he => exact J.fail (hsequence.ordinary he)
    · next items hok =>
      refine J.bind (J.keepTruthyOnto (fun w₂ v hw₂ hv => ?_) Realm.values_nil
        (hsequence.value hok)) fun w₂ vs _ hvs => J.newList hvs
      exact hcalls _ hw₁ hw₂ hcallable (Realm.values_cons.2 ⟨hv, Realm.values_nil⟩)
  | fold =>
    refine hchecked fun w₁ hw₁ hcallable => ?_
    have hsequence := Operands.sequence_yields "fold" (hgetD 2 hw₁)
    split
    · next e he => exact J.fail (hsequence.ordinary he)
    · next items hok =>
      refine J.foldCalls (P := fun w item => R.value w item.1) Realm.value_later
        (fun w₂ acc item hw₂ hacc hitem => ?_) (hgetD 1 hw₁) ?_
      · exact hcalls _ hw₁ hw₂ hcallable
          (Realm.values_cons.2 ⟨hacc, Realm.values_cons.2 ⟨hitem, Realm.values_nil⟩⟩)
      · exact fun item hitem => hsequence.value hok item.1 ((List.mem_attachWith _ _).1 hitem)
  | isCallable =>
    refine J.bind (J.ofExcept (Operands.count_yields _ _ _)) fun w₁ _ _ _ => ?_
    refine J.bind (J.read fun _ _ h => Store.isCallable_rebudget h scope _) fun w₂ b _ _ => ?_
    exact J.pure (Value.all_bool (R.part_plain w₂) b)

/-! ### Calls and applications -/

section Evaluators

variable {J} (hev : J.Respects ev ev')

include hev

/-- Calling a callable with values, given the means to run a control operation on them. -/
theorem invokeWith {scope : FrameId} {c : Callable Value} {args : List Value}
    {control control' : Control → Eval Value} (hscope : R.scope w scope)
    (hc : R.value w (.callable c)) (hargs : R.values w args)
    (hcontrol : ∀ k copy, c = .primitive (.control k) copy →
      J.judge w (control k) (control' k) R.value) :
    J.judge w (ev.invokeWith scope c args control) (ev'.invokeWith scope c args control')
      R.value := by
  cases c with
  | primitive p copy =>
    cases p with
    | operation o => exact J.runOperation o hargs
    | control k => exact hcontrol k copy rfl
    | special f =>
      refine J.bind (J.quoteAll hargs) fun w₁ forms hw₁ hforms => ?_
      exact runSpecial hev f (Realm.scope_later hw₁ hscope) hforms
  | function id frame parameters forms =>
    obtain ⟨hframe, hforms⟩ := Realm.value_function.1 hc
    exact callFunction hev hframe hforms hargs
  | operative id frame forms =>
    obtain ⟨hframe, hforms⟩ := Realm.value_operative.1 hc
    refine J.bind (J.quoteAll hargs) fun w₁ quoted hw₁ hquoted => ?_
    refine J.bind (J.newList hquoted) fun w₂ operands hw₂ hoperands => ?_
    have hw := R.later_trans hw₁ hw₂
    have hframe₂ : R.value w₂ (.callable (.operative id frame forms)) := Realm.value_later hw hc
    exact applyOperative hev (Realm.scope_later hw hscope) (Realm.value_operative.1 hframe₂).1
      (Realm.values_later hw hforms) hoperands
  | foreign id name f => exact J.runHost (R.runs_foreign (Realm.value_foreign.1 hc)) hargs
  | constructor id type => exact J.runConstructor (Realm.value_constructor.1 hc) hscope hargs

/-- Calling a value with values, through any chain of control operations. -/
theorem call {scope : FrameId} {callee : Value} {args : List Value} (hscope : R.scope w scope)
    (hcallable : (R.store w).isCallable scope callee = true)
    (hcallee : R.value w callee) (hargs : R.values w args) :
    J.judge w (ev.call scope callee args) (ev'.call scope callee args) R.value := by
  -- A control operation calls with operands that reach less deep than its own.
  induction hreach : Control.reach args using Nat.strongRecOn generalizing w callee args with
  | _ n ih =>
    subst hreach
    cases callee with
    | callable c =>
      rw [Evaluator.call, Evaluator.call]
      refine invokeWith hev hscope hcallee hargs fun k _ _ => ?_
      refine J.runControlWith k hargs fun w₁ args' hless hw₁ hcallable₁ hargs' => ?_
      have hhead := Operands.all_headD (R.part_plain w₁ _ trivial) (Realm.values_later hw₁ hargs)
      exact ih _ hless (Realm.scope_later hw₁ hscope) hcallable₁ hhead hargs' rfl
    | str name =>
      -- A text stands for the registered function of that name.
      rw [Evaluator.call, Evaluator.call]
      obtain ⟨f, hf⟩ := Option.isSome_iff_exists.1 hcallable
      refine J.bind (J.read fun _ _ h => by simp [h]) fun w₁ found hw₁ hfound => ?_
      obtain ⟨rfl, rfl⟩ := hfound
      rw [hf]
      exact J.runHost (R.runs_foreign (R.part_foreign 0 hscope hf)) hargs
    | _ => cases hcallable

theorem runControl {scope : FrameId} (control : Control) {operands : List Value}
    (hscope : R.scope w scope) (h : R.values w operands) :
    J.judge w (ev.runControl scope control operands) (ev'.runControl scope control operands)
      R.value := by
  refine J.runControlWith control h fun w₁ args _ hw₁ hcallable hargs => ?_
  exact call hev (Realm.scope_later hw₁ hscope) hcallable
    (Operands.all_headD (R.part_plain w₁ _ trivial) (Realm.values_later hw₁ h)) hargs

/-- Applying a callable to unevaluated operands. -/
theorem apply {scope : FrameId} {c : Callable Value} {id : Identity} {operands : List Value}
    (hscope : R.scope w scope) (hc : R.value w (.callable c))
    (h : R.value w (.list id operands)) :
    J.judge w (ev.apply scope c id operands) (ev'.apply scope c id operands) R.value := by
  obtain ⟨-, hoperands⟩ := Realm.value_list.1 h
  have hvalues := evaluateValues hev hscope hoperands
  cases c with
  | primitive p copy =>
    cases p with
    | operation o => exact J.bind hvalues fun w₁ args _ hargs => J.runOperation o hargs
    | control k =>
      refine J.bind hvalues fun w₁ args hw₁ hargs => ?_
      exact runControl hev k (Realm.scope_later hw₁ hscope) hargs
    | special f => exact runSpecial hev f hscope hoperands
  | function id frame parameters forms =>
    refine J.bind hvalues fun w₁ args hw₁ hargs => ?_
    obtain ⟨hframe, hforms⟩ := Realm.value_function.1 (Realm.value_later hw₁ hc)
    exact callFunction hev hframe hforms hargs
  | operative id frame forms =>
    obtain ⟨hframe, hforms⟩ := Realm.value_operative.1 hc
    exact applyOperative hev hscope hframe hforms h
  | foreign id name f =>
    refine J.bind hvalues fun w₁ args hw₁ hargs => ?_
    exact J.runHost (R.runs_foreign (Realm.value_foreign.1 (Realm.value_later hw₁ hc))) hargs
  | constructor id type =>
    refine J.bind hvalues fun w₁ args hw₁ hargs => ?_
    exact J.runConstructor (Realm.value_constructor.1 (Realm.value_later hw₁ hc))
      (Realm.scope_later hw₁ hscope) hargs

/-- Evaluating a list with a head. -/
theorem applyForm {scope : FrameId} {head : Value} {rest : List Value} (hscope : R.scope w scope)
    (hhead : R.value w head) (hrest : R.values w rest) :
    J.judge w (ev.applyForm scope head rest) (ev'.applyForm scope head rest) R.value := by
  refine J.bind (hev w head scope hhead hscope) fun w₁ v hw₁ hv => ?_
  split
  · next c =>
    refine J.bind (J.freshIdentity (Realm.values_later hw₁ hrest)) fun w₂ id hw₂ hlist => ?_
    have hw := R.later_trans hw₁ hw₂
    exact apply hev (Realm.scope_later hw hscope) (Realm.value_later hw₂ hv) hlist
  · exact J.fail trivial

end Evaluators

end Judgment

end ConfinedLisp
