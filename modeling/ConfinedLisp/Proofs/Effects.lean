import ConfinedLisp.Proofs.Descent
import ConfinedLisp.Proofs.Realm

/-!
# What is called with values

Operations, host functions and host types get evaluated operands. They are made of the operations of
a realm alone, so they respect every judgment: given values that may be around, they give such a
value.

## Main results

- `Judgment.runOperation`: the operations.
- `Judgment.runHost`, `Judgment.runConstructor`: host functions, and instances of host types.
-/

namespace ConfinedLisp

namespace Judgment

variable {World : Type} {R : Realm World} (J : Judgment R) {w : World}

/-- What an operation without effect gives is all right now, and so it stays. -/
theorem effectless {x : Except EvalError Value} (hx : Yields (R.value w) x) :
    J.judge w (Eval.ofExcept x) (Eval.ofExcept x) R.value :=
  J.mono (J.ofExcept hx) fun _ _ hw hv => Realm.value_later hw hv

/-- Comparing the first of some values with the others has an answer if nothing may hang. -/
theorem allLooseWith_ne_none (hhang : ¬ J.mayHang) {first : Value} {others : List Value}
    (hfirst : R.value w first) (hothers : R.values w others) :
    Logic.allLooseWith first (R.store w) others ≠ none := by
  induction others with
  | nil => simp [Logic.allLooseWith]
  | cons v rest ih =>
    obtain ⟨hv, hrest⟩ := Realm.values_cons.1 hothers
    rw [Logic.allLooseWith]
    split
    · exact ih hrest
    · exact J.looseEq hhang hfirst hv

theorem allLoose {callee : String} {operands : List Value} (h : R.values w operands) :
    J.judge w (Logic.allLoose callee operands) (Logic.allLoose callee operands)
      fun _ _ => True := by
  refine J.bind (J.ofExcept (Operands.count_yields _ _ _)) fun w₁ _ hw₁ _ => ?_
  refine J.bind (J.read fun _ _ _ => by simp) fun w₂ answer hw₂ hanswer => ?_
  obtain ⟨rfl, rfl⟩ := hanswer
  have h := Realm.values_later hw₁ h
  have hhead : R.value w₂ (operands.headD .nil) :=
    Operands.all_headD (R.part_plain w₂ _ trivial) h
  have hrest : R.values w₂ (operands.drop 1) := fun v hv => h v (List.mem_of_mem_drop hv)
  split
  · exact J.pure trivial
  · next hnone =>
    refine J.hang (Classical.byContradiction fun hhang => ?_)
    exact J.allLooseWith_ne_none hhang hhead hrest hnone

/-- Running an operation on evaluated operands. -/
theorem runOperation (o : Operation) {operands : List Value} (h : R.values w operands) :
    J.judge w (o.run operands) (o.run operands) R.value := by
  have hp := R.part_plain w
  -- The four comparisons for equality give their answer, or the opposite of it, as a boolean.
  have hbool : ∀ {x : Eval Bool} (f : Bool → Bool), J.judge w x x (fun _ _ => True) →
      J.judge w (x.bind fun b => Eval.pure (Value.bool (f b)))
        (x.bind fun b => Eval.pure (Value.bool (f b))) R.value :=
    fun f hx => J.bind hx fun w' b _ _ => J.pure (Value.all_bool (R.part_plain w') (f b))
  cases o with
  | add => exact J.effectless (Arithmetic.sum_yields hp operands)
  | subtract => exact J.effectless (Arithmetic.difference_yields hp operands)
  | multiply => exact J.effectless (Arithmetic.product_yields hp operands)
  | divide => exact J.effectless (Arithmetic.quotient_yields hp operands)
  | remainder => exact J.effectless (Arithmetic.modulus_yields hp operands)
  | not => exact J.effectless (Logic.negation_yields hp operands)
  | and => exact J.pure (Logic.all_conjunction hp h)
  | or => exact J.pure (Logic.all_disjunction hp h)
  | eq => exact hbool id (J.ofExcept (Logic.allStrict_yields _ operands))
  | equal => exact hbool id (J.allLoose h)
  | notEq => exact hbool (!·) (J.ofExcept (Logic.allStrict_yields _ operands))
  | notEqual => exact hbool (!·) (J.allLoose h)
  | less | greater | atMost | atLeast => exact J.effectless (Logic.chain_yields hp _ _ operands)
  | isNil | isSymbol | isList | isArray | isString | isNumber | isInteger | isFloat | isBool
  | isScope => exact J.effectless (Logic.typeTest_yields hp _ _ operands)
  | list => exact J.newList h
  | car => exact J.effectless (Collection.car_yields hp h)
  | cdr =>
    refine J.bind (J.ofExcept (Collection.cdr?_yields hp h)) fun w' rest? hw hrest => ?_
    cases rest? with
    | none => exact J.pure Realm.value_nil
    | some rest => exact J.newList (Realm.values_later hw (hrest rest rfl))
  | «at» => exact J.effectless (Collection.elementAt_yields hp h)
  | existsAt => exact J.effectless (Collection.existsAt_yields hp operands)
  | count => exact J.effectless (Collection.count_yields hp operands)
  | array => exact J.pure (Collection.all_array hp h)
  | symbol => exact J.effectless (Collection.symbol_yields hp operands)
  | string => exact J.pure (Value.all_str hp _)

theorem jsonEncode {args : List Value} (h : R.values w args) :
    J.judge w (Host.jsonEncode args) (Host.jsonEncode args) R.value := by
  refine J.bind (J.ofExcept (Host.single_yields (R.part_plain w _ trivial) h))
    fun w₁ v hw₁ hv => ?_
  have hv : R.value w₁ v := Realm.value_later hw₁ hv
  refine J.bind (J.read fun _ _ _ => by simp) fun w₂ outcome _ houtcome => ?_
  obtain ⟨rfl, rfl⟩ := houtcome
  split
  · exact J.pure (Value.all_str (R.part_plain w₂) _)
  · next e he =>
    rcases Json.encode_error he with hhalt | ⟨failure, hhalt⟩
    · cases hhalt
    · cases hhalt
      exact J.fail trivial
  · next hendless =>
    -- Where nothing may hang, encoding has an answer.
    exact J.hang (Classical.byContradiction fun hhang => J.encode hhang hv hendless)

/-! Decoding follows the document: an array makes a list, an object a table. -/

mutual

theorem decode (d : Json.Document) : ∀ w : World,
    J.judge w (Json.decode d) (Json.decode d) R.value := by
  intro w
  cases d with
  | null => exact J.pure Realm.value_nil
  | bool b => exact J.pure (Value.all_bool (R.part_plain w) b)
  | whole n =>
    rw [Json.decode]
    split
    · exact J.pure (Value.all_int (R.part_plain w) _)
    · exact J.pure (Value.all_float (R.part_plain w) _)
  | float x => exact J.pure (Value.all_float (R.part_plain w) x)
  | string s => exact J.pure (Value.all_str (R.part_plain w) s)
  | array items =>
    rw [Json.decode]
    exact J.bind (decodeItems items w) fun w' vs _ hvs => J.newList hvs
  | object members =>
    rw [Json.decode]
    refine J.bind (decodeMembers members w .empty .empty fun v hv => ?_) fun w' t _ ht => ?_
    · simp [Table.empty, Table.values, Table.entries] at hv
    · exact J.pure (ht.1.all (R.part_plain w') ht.2)

theorem decodeItems (ds : List Json.Document) : ∀ w : World,
    J.judge w (Json.decodeItems ds) (Json.decodeItems ds) R.values := by
  intro w
  cases ds with
  | nil => exact J.pure Realm.values_nil
  | cons d ds =>
    rw [Json.decodeItems]
    refine J.bind (decode d w) fun w₁ v _ hv => ?_
    refine J.bind (decodeItems ds w₁) fun w₂ vs hw₂ hvs => ?_
    exact J.pure (Realm.values_cons.2 ⟨Realm.value_later hw₂ hv, hvs⟩)

theorem decodeMembers (ms : List (String × Json.Document)) : ∀ (w : World) (t : Table Value),
    t.Built → R.values w t.values →
      J.judge w (Json.decodeMembers ms t) (Json.decodeMembers ms t)
        fun w' t => t.Built ∧ R.values w' t.values := by
  intro w t hbuilt ht
  cases ms with
  | nil => exact J.pure ⟨hbuilt, ht⟩
  | cons m ms =>
    rw [Json.decodeMembers]
    refine J.bind (decodeMember m w) fun w₁ entry hw₁ hentry => ?_
    refine decodeMembers ms w₁ _ (hbuilt.insert entry.1 entry.2) fun x hx => ?_
    rcases Table.mem_values_insert hx with rfl | hx
    · exact hentry
    · exact Realm.value_later hw₁ (ht x hx)

theorem decodeMember (m : String × Json.Document) : ∀ w : World,
    J.judge w (Json.decodeMember m) (Json.decodeMember m) fun w' e => R.value w' e.2 := by
  intro w
  obtain ⟨key, d⟩ := m
  rw [Json.decodeMember]
  exact J.bind (decode d w) fun w' v _ hv => J.pure hv

end

theorem vectorOf {args : List Value} (hf : R.runs w .vectorOf) (h : R.values w args) :
    J.judge w (Host.vectorOf args) (Host.vectorOf args) R.value := by
  obtain ⟨w', hw, hstore, hpart⟩ := R.vector hf h
  have hmake : J.judge w (Eval.make fun s => s.addVector args) (Eval.make fun s => s.addVector args)
      fun w' i => R.part w' (.object i) :=
    J.make (Unbudgeted.addVector args) hw hstore hpart
  exact J.bind hmake fun w₁ i _ hi => J.pure (Realm.value_object.2 hi)

theorem vectorArg {name : String} {v : Value} (hv : R.value w v) :
    J.judge w (Eval.ofExcept (Host.vectorArg name v)) (Eval.ofExcept (Host.vectorArg name v))
      fun w' i => R.part w' (.object i) := by
  cases v with
  | object i => exact J.pure (Realm.value_object.1 hv)
  | _ => exact J.fail trivial

theorem vectorSize (i : VectorId) : J.judge w (Host.vectorSize i) (Host.vectorSize i) R.value := by
  have hread : J.judge w (Eval.read fun s => s.vectorSize i) (Eval.read fun s => s.vectorSize i)
      fun _ _ => True :=
    J.mono (J.read fun _ _ _ => rfl) fun _ _ _ _ => trivial
  exact J.bind hread fun w' n _ _ => J.pure (Value.all_int (R.part_plain w') _)

theorem vectorPush {args : List Value} (h : R.values w args) :
    J.judge w (Host.vectorPush args) (Host.vectorPush args) R.value := by
  refine J.bind (J.ofExcept (Operands.count_yields _ _ _)) fun w₁ _ hw₁ _ => ?_
  have h₁ := Realm.values_later hw₁ h
  refine J.bind (J.vectorArg (Operands.all_headD (R.part_plain w₁ _ trivial) h₁))
    fun w₂ i hw₂ hi => ?_
  have h₂ := Realm.values_later hw₂ h₁
  obtain ⟨w₃, hw₃, hstore⟩ := R.extend hi fun v hv => h₂ v (List.mem_of_mem_drop hv)
  refine J.bind (J.make (Q := fun _ _ => True) (Unbudgeted.extendVector i _) hw₃ hstore trivial)
    fun w₄ _ _ _ => ?_
  exact J.vectorSize i

theorem vectorToList {args : List Value} (h : R.values w args) :
    J.judge w (Host.vectorToList args) (Host.vectorToList args) R.value := by
  refine J.bind (J.effectless (Host.single_yields (R.part_plain w _ trivial) h))
    fun w₁ v _ hv => ?_
  refine J.bind (J.vectorArg hv) fun w₂ i _ hi => ?_
  refine J.bind (J.read fun _ _ _ => rfl) fun w₃ items _ hitems => ?_
  obtain ⟨rfl, rfl⟩ := hitems
  exact J.newList fun x hx => R.items hi hx

/-- Running a host function on evaluated arguments. -/
theorem runHost {f : HostFunction} (hf : R.runs w f) {args : List Value} (h : R.values w args) :
    J.judge w (f.run args) (f.run args) R.value := by
  have hp := R.part_plain w
  have hsingle : ∀ name, Yields (R.value w) (Host.single name args) :=
    fun name => Host.single_yields (hp _ trivial) h
  cases f with
  | trim | toUppercase | toLowercase => exact J.effectless (Host.onText_yields hp h)
  | substr => exact J.effectless (Host.substr_yields hp args)
  | strContains => exact J.effectless (Host.strContains_yields hp args)
  | arrayMerge => exact J.effectless (Host.arrayMerge_yields hp h)
  | arraySlice => exact J.effectless (Host.arraySlice_yields hp h)
  | arrayKeys => exact J.effectless (Host.arrayKeys_yields hp h)
  | arrayValues => exact J.effectless (Host.arrayValues_yields hp h)
  | abs => exact J.effectless (Host.abs_yields hp h)
  | floor | ceil | sqrt => exact J.effectless (Host.onFloat_yields hp h)
  | pow => exact J.effectless (Host.pow_yields hp args)
  | min | max => exact J.effectless (Host.extremum_yields h)
  | jsonEncode => exact J.jsonEncode h
  | jsonDecode =>
    refine J.bind (J.effectless (hsingle _)) fun w₁ v _ _ => ?_
    refine J.bind (J.ofExcept (Operands.string_yields _ _)) fun w₂ s _ _ => ?_
    split
    · next d _ => exact J.decode d w₂
    · exact J.fail trivial
  | vectorOf => exact J.vectorOf hf h
  | vectorLen =>
    refine J.bind (J.effectless (hsingle _)) fun w₁ v _ hv => ?_
    exact J.bind (J.vectorArg hv) fun w₂ i _ _ => J.vectorSize i
  | vectorPush => exact J.vectorPush h
  | vectorToList => exact J.vectorToList h
  | symbolOf => exact J.effectless (Host.symbolOf_yields hp h)
  | listOf => exact J.newList h
  | listFrom =>
    refine J.bind (J.effectless (hsingle _)) fun w₁ v _ hv => ?_
    refine J.bind (J.ofExcept (Operands.sequence_yields _ hv)) fun w₂ items hw hitems => ?_
    exact J.newList (Realm.values_later hw hitems)
  | double => exact J.effectless (Host.double_yields hp args)
  | argumentCount => exact J.pure (Value.all_int hp _)
  | pairOf =>
    refine J.bind (J.ofExcept (Operands.count_yields _ _ _)) fun w₁ _ hw _ => ?_
    exact J.newList (Realm.values_later hw h)
  | always text => exact J.pure (Value.all_str hp text)

theorem newScope {caller : FrameId} (hcaller : R.scope w caller) {args : List Value}
    (h : R.values w args) :
    J.judge w (Host.newScope caller args) (Host.newScope caller args) R.value := by
  refine J.bind (J.ofExcept (Operands.count_yields _ _ _)) fun w₁ _ hw₁ _ => ?_
  have hscope : ∀ {w : World} {x : Eval FrameId}, J.judge w x x R.scope →
      J.judge w (x.bind fun f => Eval.pure (.scope f)) (x.bind fun f => Eval.pure (.scope f))
        R.value :=
    fun hx => J.bind hx fun w' f _ hf => J.pure (Realm.value_scope.2 hf)
  match args, Realm.values_later hw₁ h with
  | [], _ => exact hscope (J.newDetached (Realm.scope_later hw₁ hcaller))
  | v :: rest, h =>
    cases v with
    | scope parent =>
      have hparent := Realm.value_scope.1 (Realm.values_cons.1 h).1
      exact hscope (J.newChild (R.captured_of_scope hparent))
    | _ => exact J.fail trivial

/-- Making an instance of a host type. -/
theorem runConstructor {id : Identity} {type : HostType} {caller : FrameId}
    (htype : R.part w (.callable (.constructor id type))) (hcaller : R.scope w caller)
    {args : List Value} (h : R.values w args) :
    J.judge w (type.construct.run caller args) (type.construct.run caller args) R.value := by
  cases hconstruct : type.construct with
  | plain f => exact J.runHost (R.runs_constructor htype hconstruct) h
  | newScope => exact J.newScope hcaller h
  | callerScope => exact J.pure (Realm.value_scope.2 hcaller)

/-! ### Imports -/

theorem bindStatics {scope : FrameId} {label : String} {type : HostType}
    {methods : List (String × HostFunction)} (hscope : R.scope w scope)
    (h : ∀ id, ∀ m ∈ methods, R.part w (.callable (.foreign id (type.qualified m.1) m.2))) :
    J.judge w (Import.bindStatics scope label type methods)
      (Import.bindStatics scope label type methods) fun _ _ => True := by
  induction methods generalizing w with
  | nil => exact J.pure trivial
  | cons m rest ih =>
    obtain ⟨method, function⟩ := m
    unfold Import.bindStatics
    refine J.bind (J.freshIdentity Realm.values_nil) fun w₁ id hw₁ _ => ?_
    have hmethod := Realm.value_foreign.2 (R.part_later hw₁ (h id (method, function) (by simp)))
    refine J.bind (J.bindOne (Realm.scope_later hw₁ hscope) hmethod) fun w₂ _ hw₂ _ => ?_
    have hw := R.later_trans hw₁ hw₂
    exact ih (Realm.scope_later hw hscope) fun id m' hm => R.part_later hw (h id m' (by simp [hm]))

/-- Binding an import and giving it as the result. -/
theorem bindImport {scope : FrameId} {label : String} {v : Value} (hscope : R.scope w scope)
    (hv : R.value w v) :
    J.judge w ((Eval.update fun s => s.bind scope label v).bind fun _ => Eval.pure v)
      ((Eval.update fun s => s.bind scope label v).bind fun _ => Eval.pure v) R.value :=
  J.bind (J.bindOne hscope hv) fun _ _ hw _ => J.pure (Realm.value_later hw hv)

theorem performImport {scope : FrameId} {operand : Value} (hscope : R.scope w scope) :
    J.judge w (Import.perform scope operand) (Import.perform scope operand) R.value := by
  unfold Import.perform
  refine J.bind (J.ofExcept (Import.request_yields operand)) fun w₁ request hw₁ _ => ?_
  refine J.bind (J.read fun _ _ h => by simp [h]) fun w₂ registry hw₂ hregistry => ?_
  obtain ⟨rfl, rfl⟩ := hregistry
  have hscope₂ := Realm.scope_later hw₁ hscope
  split
  · next cause hcause => exact J.fail (Import.resolve_error hcause)
  · next name function hfound =>
    refine J.bind (J.freshIdentity Realm.values_nil) fun w₃ id hw₃ _ => ?_
    have hpart := R.part_foreign id hscope₂ (Import.resolve_function hfound)
    exact J.bindImport (Realm.scope_later hw₃ hscope₂)
      (Realm.value_foreign.2 (R.part_later hw₃ hpart))
  · next type hfound =>
    obtain ⟨name, hname⟩ := Import.resolve_type hfound
    have hstatics : ∀ id, ∀ m ∈ type.sortedStatics,
        R.part w₂ (.callable (.foreign id (type.qualified m.1) m.2)) :=
      fun id m hm => R.part_static id hscope₂ hname (List.mem_mergeSort.1 hm)
    refine J.bind (J.bindStatics hscope₂ hstatics) fun w₃ _ hw₃ _ => ?_
    refine J.bind (J.freshIdentity Realm.values_nil) fun w₄ id hw₄ _ => ?_
    have hw := R.later_trans hw₃ hw₄
    have hpart := R.part_constructor id hscope₂ hname
    exact J.bindImport (Realm.scope_later hw hscope₂)
      (Realm.value_constructor.2 (R.part_later hw hpart))

theorem performImports {scope : FrameId} {operands : List Value} (hscope : R.scope w scope) :
    J.judge w (Import.performAll scope operands) (Import.performAll scope operands) R.values := by
  induction operands generalizing w with
  | nil => exact J.pure Realm.values_nil
  | cons operand rest ih =>
    refine J.bind (J.performImport hscope) fun w₁ v hw₁ hv => ?_
    refine J.bind (ih (Realm.scope_later hw₁ hscope)) fun w₂ vs hw₂ hvs => ?_
    exact J.pure (Realm.values_cons.2 ⟨Realm.value_later hw₂ hv, hvs⟩)

/-! ### Closures as values, and values as forms -/

theorem runLambda {scope : FrameId} {operands : List Value} (hscope : R.scope w scope)
    (h : R.values w operands) :
    J.judge w (SpecialForm.runLambda scope operands) (SpecialForm.runLambda scope operands)
      R.value := by
  unfold SpecialForm.runLambda
  refine J.bind (J.ofExcept (Operands.count_yields _ _ _)) fun w₁ _ hw₁ _ => ?_
  split
  · unfold Eval.newFunction
    refine J.bind (J.ofExcept (parameterNames_yields _)) fun w₂ names hw₂ _ => ?_
    refine J.bind (J.freshIdentity Realm.values_nil) fun w₃ id hw₃ _ => ?_
    have hw := R.later_trans hw₁ (R.later_trans hw₂ hw₃)
    refine J.pure (Realm.value_function.2 ⟨?_, ?_⟩)
    · exact R.captured_of_scope (Realm.scope_later hw hscope)
    · exact fun v hv => Realm.value_later hw (h v (List.mem_of_mem_drop hv))
  · exact J.fail trivial

/-- Quoted values are forms that may be around. -/
theorem quoteAll {args : List Value} (h : R.values w args) :
    J.judge w (Eval.quoteAll args) (Eval.quoteAll args) R.values := by
  induction args generalizing w with
  | nil => exact J.pure Realm.values_nil
  | cons v rest ih =>
    obtain ⟨hv, hrest⟩ := Realm.values_cons.1 h
    -- Whatever stands for the first value, the others are quoted after it.
    have hform : ∀ w₁ form, R.later w w₁ → R.value w₁ form →
        J.judge w₁ ((Eval.quoteAll rest).bind fun forms => Eval.pure (form :: forms))
          ((Eval.quoteAll rest).bind fun forms => Eval.pure (form :: forms)) R.values := by
      intro w₁ form hw₁ hform
      refine J.bind (ih (Realm.values_later hw₁ hrest)) fun w₂ forms hw₂ hforms => ?_
      exact J.pure (Realm.values_cons.2 ⟨Realm.value_later hw₂ hform, hforms⟩)
    -- A form quotes with the primitive itself, so it does not matter what the scope binds.
    have hquote : ∀ w₁ copy, R.later w w₁ →
        J.judge w₁ (Eval.newList [.callable (.primitive (.special .quote) (some copy)), v])
          (Eval.newList [.callable (.primitive (.special .quote) (some copy)), v]) R.value := by
      intro w₁ copy hw₁
      refine J.newList (Realm.values_cons.2 ⟨Realm.value_plain trivial trivial, ?_⟩)
      exact Realm.values_cons.2 ⟨Realm.value_later hw₁ hv, Realm.values_nil⟩
    unfold Eval.quoteAll
    split
    · refine J.bind (J.freshIdentity Realm.values_nil) fun w₁ copy hw₁ _ => ?_
      exact J.bind (hquote w₁ copy hw₁) fun w₂ form hw₂ => hform w₂ form (R.later_trans hw₁ hw₂)
    · refine J.bind (J.freshIdentity Realm.values_nil) fun w₁ copy hw₁ _ => ?_
      exact J.bind (hquote w₁ copy hw₁) fun w₂ form hw₂ => hform w₂ form (R.later_trans hw₁ hw₂)
    · exact hform w _ (R.later_refl w) hv

end Judgment

end ConfinedLisp
