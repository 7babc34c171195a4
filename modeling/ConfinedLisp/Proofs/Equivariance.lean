import ConfinedLisp.Proofs.Mirroring

/-!
# Evaluation under other names

Evaluation makes nothing of names but to pass them on and to compare them. So evaluating a form under
other names, in a store under other names, does what evaluating the form in the store does, under
other names. This goes through the built-ins once.

## Main results

- `Relabelling.commutes_evaluate`, `Relabelling.carries_call`: evaluation and calls.
- `Relabelling.carries_readForms`: reading a text.
-/

namespace ConfinedLisp

namespace Eval

variable {α β : Type} {x : Except EvalError α}

theorem bind_ofExcept_of_ok {a : α} (h : x = .ok a) (f : α → Eval β) : (ofExcept x).bind f = f a := by
  subst h
  rfl

theorem bind_ofExcept_of_error {e : EvalError} (h : x = .error e) (f : α → Eval β) :
    (ofExcept x).bind f = fail e := by
  subst h
  rfl

end Eval

namespace Control

/-! ### Control operations without the bounds -/

variable {ι κ : Type}

theorem callEachOnto_map (call : κ → Eval Value) (k : ι → κ) (done : List Value) (rows : List ι) :
    callEachOnto (fun row => call (k row)) done rows = callEachOnto call done (rows.map k) := by
  induction rows generalizing done with
  | nil => rfl
  | cons row rest ih => exact congrArg (Eval.bind (call (k row))) (funext fun v => ih (v :: done))

theorem foldCalls_map (call : Value → κ → Eval Value) (k : ι → κ) (acc : Value) (items : List ι) :
    foldCalls (fun acc v => call acc (k v)) acc items = foldCalls call acc (items.map k) := by
  induction items generalizing acc with
  | nil => rfl
  | cons v rest ih => exact congrArg (Eval.bind (call acc (k v))) (funext ih)

variable (scope : FrameId) (operands : List Value) (call : Value → List Value → Eval Value)

/-- Checks how many operands there are and that the first one can be called, and goes on. -/
def checking (callee : String) (arity : Arity) (x : Eval Value) : Eval Value :=
  (Eval.ofExcept (Operands.count callee arity operands)).bind fun _ =>
    (expectCallable callee scope (operands.headD .nil)).bind fun _ => x

theorem runWith_apply : apply.runWith scope operands (fun callee args _ => call callee args) =
    checking scope operands "apply" (.exactly 2)
      ((Eval.ofExcept (Operands.sequence "apply" (operands.getD 1 .nil))).bind
        (call (operands.headD .nil))) := by
  refine congrArg (checking scope operands _ _) ?_
  split
  · next e herror => exact (Eval.bind_ofExcept_of_error herror _).symm
  · next args hok => exact (Eval.bind_ofExcept_of_ok hok _).symm

theorem runWith_map : map.runWith scope operands (fun callee args _ => call callee args) =
    checking scope operands "map" (.atLeast 2)
      ((Eval.ofExcept ((operands.drop 1).mapM (Operands.sequence "map"))).bind fun columns =>
        (callEach (call (operands.headD .nil)) (lockstep columns)).bind Eval.newList) := by
  refine congrArg (checking scope operands _ _) ?_
  split
  · next e herror => exact (Eval.bind_ofExcept_of_error herror _).symm
  · next columns hok =>
    rw [Eval.bind_ofExcept_of_ok hok]
    simp only [callEach, callEachOnto_map (call (operands.headD .nil)) Subtype.val,
      List.attachWith_map_subtype_val]
    rfl

theorem runWith_filter : filter.runWith scope operands (fun callee args _ => call callee args) =
    checking scope operands "filter" (.exactly 2)
      ((Eval.ofExcept (Operands.sequence "filter" (operands.getD 1 .nil))).bind fun items =>
        (keepTruthy (fun v => call (operands.headD .nil) [v]) items).bind Eval.newList) := by
  refine congrArg (checking scope operands _ _) ?_
  split
  · next e herror => exact (Eval.bind_ofExcept_of_error herror _).symm
  · next items hok =>
    rw [Eval.bind_ofExcept_of_ok hok]
    rfl

theorem runWith_fold : fold.runWith scope operands (fun callee args _ => call callee args) =
    checking scope operands "fold" (.exactly 3)
      ((Eval.ofExcept (Operands.sequence "fold" (operands.getD 2 .nil))).bind
        (foldCalls (fun acc v => call (operands.headD .nil) [acc, v]) (operands.getD 1 .nil))) := by
  refine congrArg (checking scope operands _ _) ?_
  split
  · next e herror => exact (Eval.bind_ofExcept_of_error herror _).symm
  · next items hok =>
    rw [Eval.bind_ofExcept_of_ok hok]
    simp only [foldCalls_map (fun acc v => call (operands.headD .nil) [acc, v]) Subtype.val,
      List.attachWith_map_subtype_val]

/-- Rows of lists under a map are the rows under the map. -/
theorem lockstepOnto_map (g : ι → κ) (done others : List (List ι)) (xs : List ι) :
    lockstepOnto (done.map (List.map g)) (xs.map g) (others.map (List.map g)) =
      (lockstepOnto done xs others).map (List.map g) := by
  induction xs generalizing done others with
  | nil => simp [lockstepOnto]
  | cons x xs ih =>
    have hempty : (others.map (List.map g)).any List.isEmpty = others.any List.isEmpty := by
      simp [List.any_map, Function.comp_def]
    have hheads : (others.map (List.map g)).filterMap List.head? =
        (others.filterMap List.head?).map g := by
      rw [List.filterMap_map, List.map_filterMap]
      exact congrArg (List.filterMap · others) (funext fun _ => List.head?_map)
    have htails : (others.map (List.map g)).map List.tail =
        (others.map List.tail).map (List.map g) := by
      simp [List.map_tail, Function.comp_def]
    rw [List.map_cons, lockstepOnto, lockstepOnto, hempty, hheads, htails]
    split
    · exact List.map_reverse.symm
    · exact ih ((x :: others.filterMap List.head?) :: done) (others.map List.tail)

theorem lockstep_map (g : ι → κ) (columns : List (List ι)) :
    lockstep (columns.map (List.map g)) = (lockstep columns).map (List.map g) := by
  cases columns with
  | nil => rfl
  | cons xs others => exact lockstepOnto_map g [] others xs

end Control

namespace Relabelling

variable {ρ : Relabelling}

namespace Carries

/-! ### What is called with values -/

theorem allLoose (callee : String) (operands : List Value) :
    ρ.Carries (Logic.allLoose callee operands) (Logic.allLoose callee (operands.map ρ.value))
      fun b => b := by
  refine bind (check (ρ.count_map operands _ _)) fun _ => ?_
  refine bind (g := fun a => a) (read fun {supply s t} hmirrors _ => ?_) fun answer => ?_
  · have hsame : ∀ others : List Value, Logic.allLooseWith (ρ.value (operands.headD .nil)) t
        (others.map ρ.value) = Logic.allLooseWith (operands.headD .nil) s others := by
      intro others
      induction others with
      | nil => rfl
      | cons v vs ih =>
        simp only [List.map_cons, Logic.allLooseWith, hmirrors.looseEq, ih]
    rw [headD_map, ← List.map_drop]
    exact hsame _
  · cases answer with
    | none => exact halt .endless
    | some b => exact pure rfl

/-- Running an operation on evaluated operands. -/
theorem runOperation (o : Operation) (operands : List Value) :
    ρ.Carries (o.run operands) (o.run (operands.map ρ.value)) ρ.value := by
  have hbool : ∀ {x y : Eval Bool} (f : Bool → Bool), ρ.Carries x y (fun b => b) →
      ρ.Carries (x.bind fun b => Eval.pure (Value.bool (f b)))
        (y.bind fun b => Eval.pure (Value.bool (f b))) ρ.value :=
    fun f hxy => bind hxy fun b => pure rfl
  cases o with
  | add => exact ofExcept (ρ.sum_map operands)
  | subtract => exact ofExcept (ρ.difference_map operands)
  | multiply => exact ofExcept (ρ.product_map operands)
  | divide => exact ofExcept (ρ.quotient_map operands)
  | remainder => exact ofExcept (ρ.modulus_map operands)
  | not => exact ofExcept (ρ.negation_map operands)
  | and => exact pure (ρ.conjunction_map operands)
  | or => exact pure (ρ.disjunction_map operands)
  | eq => exact hbool id (check (ρ.allStrict_map operands _))
  | equal => exact hbool id (allLoose _ operands)
  | notEq => exact hbool (!·) (check (ρ.allStrict_map operands _))
  | notEqual => exact hbool (!·) (allLoose _ operands)
  | less | greater | atMost | atLeast => exact ofExcept (ρ.chain_map operands _ _)
  | isNil | isSymbol | isList | isArray | isString | isNumber | isInteger | isFloat | isBool
  | isScope => exact ofExcept (ρ.typeTest_map operands _ _)
  | list => exact newList operands
  | car => exact ofExcept (ρ.car_map operands)
  | cdr =>
    refine bind (ofExcept (ρ.cdr?_map operands)) fun rest? => ?_
    cases rest? with
    | none => exact pure rfl
    | some rest => exact newList rest
  | «at» => exact ofExcept (ρ.elementAt_map operands)
  | existsAt => exact ofExcept (ρ.existsAt_map operands)
  | count => exact ofExcept (ρ.collectionCount_map operands)
  | array => exact pure (ρ.array_map operands)
  | symbol => exact ofExcept (ρ.symbol_map operands)
  | string => exact pure (ρ.string_map operands)

theorem jsonEncode (args : List Value) :
    ρ.Carries (Host.jsonEncode args) (Host.jsonEncode (args.map ρ.value)) ρ.value := by
  refine bind (ofExcept (ρ.single_map args _)) fun v => ?_
  refine bind (g := fun a => a) (read fun hmirrors _ => hmirrors.encode v) fun outcome => ?_
  cases outcome with
  | ok d => exact pure rfl
  | error reason =>
    cases reason with
    | error e => exact fail e
    | endless => exact halt .endless

mutual

theorem decode (d : Json.Document) : ρ.Carries (Json.decode d) (Json.decode d) ρ.value := by
  cases d with
  | null => exact pure rfl
  | bool b => exact pure rfl
  | whole n =>
    rw [Json.decode]
    split
    · next i _ => exact pure rfl
    · exact pure rfl
  | float x => exact pure rfl
  | string s => exact pure rfl
  | array items =>
    rw [Json.decode]
    exact bind (decodeItems items) fun vs => newList vs
  | object members =>
    rw [Json.decode]
    have hmembers := decodeMembers members .empty
    rw [Table.map_empty] at hmembers
    exact bind hmembers fun t => pure (ρ.value_array t).symm

theorem decodeItems (ds : List Json.Document) :
    ρ.Carries (Json.decodeItems ds) (Json.decodeItems ds) (List.map ρ.value) := by
  cases ds with
  | nil => exact pure rfl
  | cons d ds =>
    rw [Json.decodeItems]
    exact bind (decode d) fun v => bind (decodeItems ds) fun vs => pure rfl

theorem decodeMembers (ms : List (String × Json.Document)) (t : Table Value) :
    ρ.Carries (Json.decodeMembers ms t) (Json.decodeMembers ms (t.map ρ.value))
      (Table.map ρ.value) := by
  cases ms with
  | nil => exact pure rfl
  | cons m ms =>
    rw [Json.decodeMembers, Json.decodeMembers]
    refine bind (decodeMember m) fun entry => ?_
    obtain ⟨key, v⟩ := entry
    show ρ.Carries _ (Json.decodeMembers ms ((t.map ρ.value).insert key (ρ.value v))) _
    rw [Table.insert_map]
    exact decodeMembers ms (t.insert key v)

theorem decodeMember (m : String × Json.Document) :
    ρ.Carries (Json.decodeMember m) (Json.decodeMember m) fun e => (e.1, ρ.value e.2) := by
  obtain ⟨key, d⟩ := m
  rw [Json.decodeMember]
  exact bind (decode d) fun v => pure rfl

end

theorem vectorOf (args : List Value) :
    ρ.Carries (Host.vectorOf args) (Host.vectorOf (args.map ρ.value)) ρ.value := by
  have hmake : ρ.Carries (Eval.make fun s => s.addVector args)
      (Eval.make fun s => s.addVector (args.map ρ.value)) fun i => i :=
    make (fun s => s.grows_addVector args) fun hmirrors _ =>
      ⟨by simp [Store.addVector, hmirrors.vectors], hmirrors.addVector args⟩
  unfold Host.vectorOf
  exact bind hmake fun i => pure rfl

theorem vectorSize (i : VectorId) : ρ.Carries (Host.vectorSize i) (Host.vectorSize i) ρ.value := by
  unfold Host.vectorSize
  refine bind (g := fun a => a) (read fun hmirrors _ => hmirrors.vectorSize i) fun n => ?_
  exact pure rfl

theorem vectorPush (args : List Value) :
    ρ.Carries (Host.vectorPush args) (Host.vectorPush (args.map ρ.value)) ρ.value := by
  unfold Host.vectorPush
  rw [headD_map, ← List.map_drop]
  refine bind (check (ρ.count_map args _ _)) fun _ => ?_
  refine bind (check (ρ.vectorArg_value _ _)) fun i => ?_
  refine bind (update (fun s => s.grows_extendVector i _) fun hmirrors _ =>
    hmirrors.extendVector i _) fun _ => ?_
  exact vectorSize i

theorem vectorToList (args : List Value) :
    ρ.Carries (Host.vectorToList args) (Host.vectorToList (args.map ρ.value)) ρ.value := by
  refine bind (ofExcept (ρ.single_map args _)) fun v => ?_
  refine bind (check (ρ.vectorArg_value _ _)) fun i => ?_
  exact bind (read fun hmirrors _ => hmirrors.vector i) fun items => newList items

/-- Running a host function on evaluated arguments. -/
theorem runHost (f : HostFunction) (args : List Value) :
    ρ.Carries (f.run args) (f.run (args.map ρ.value)) ρ.value := by
  cases f with
  | trim | toUppercase | toLowercase => exact ofExcept (ρ.onText_map args _ _)
  | substr => exact ofExcept (ρ.substr_map args)
  | strContains => exact ofExcept (ρ.strContains_map args)
  | arrayMerge => exact ofExcept (ρ.arrayMerge_map args)
  | arraySlice => exact ofExcept (ρ.arraySlice_map args)
  | arrayKeys => exact ofExcept (ρ.arrayKeys_map args)
  | arrayValues => exact ofExcept (ρ.arrayValues_map args)
  | abs => exact ofExcept (ρ.abs_map args)
  | floor | ceil | sqrt => exact ofExcept (ρ.onFloat_map args _ _)
  | pow => exact ofExcept (ρ.pow_map args)
  | min | max => exact ofExcept (ρ.extremum_map args _ _)
  | jsonEncode => exact jsonEncode args
  | jsonDecode =>
    refine bind (ofExcept (ρ.single_map args _)) fun v => ?_
    refine bind (check (ρ.string_value _ _)) fun s => ?_
    cases Json.Document.ofText? s with
    | some d => exact decode d
    | none => exact fail _
  | vectorOf => exact vectorOf args
  | vectorLen =>
    refine bind (ofExcept (ρ.single_map args _)) fun v => ?_
    exact bind (check (ρ.vectorArg_value _ _)) fun i => vectorSize i
  | vectorPush => exact vectorPush args
  | vectorToList => exact vectorToList args
  | symbolOf => exact ofExcept (ρ.symbolOf_map args)
  | listOf => exact newList args
  | listFrom =>
    refine bind (ofExcept (ρ.single_map args _)) fun v => ?_
    exact bind (ofExcept (ρ.sequence_value _ v)) fun items => newList items
  | double => exact ofExcept (ρ.double_map args)
  | argumentCount => exact pure (by rw [List.length_map]; rfl)
  | pairOf => exact bind (check (ρ.count_map args _ _)) fun _ => newList args
  | always text => exact pure rfl

theorem newScope (caller : FrameId) (args : List Value) :
    ρ.Carries (Host.newScope caller args) (Host.newScope (ρ.frame caller) (args.map ρ.value))
      ρ.value := by
  refine bind (check (ρ.count_map args _ _)) fun _ => ?_
  cases args with
  | nil => exact bind (newDetached caller) fun f => pure rfl
  | cons v rest =>
    cases v with
    | scope parent => exact bind (newChild parent) fun f => pure rfl
    | _ => exact fail _

/-- Making an instance of a host type. -/
theorem runConstructor (construct : HostConstructor) (caller : FrameId) (args : List Value) :
    ρ.Carries (construct.run caller args) (construct.run (ρ.frame caller) (args.map ρ.value))
      ρ.value := by
  cases construct with
  | plain f => exact runHost f args
  | newScope => exact newScope caller args
  | callerScope => exact pure rfl

/-! ### Imports -/

theorem bindStatics (scope : FrameId) (label : String) (type : HostType)
    (methods : List (String × HostFunction)) :
    ρ.Carries (Import.bindStatics scope label type methods)
      (Import.bindStatics (ρ.frame scope) label type methods) fun u => u := by
  induction methods with
  | nil => exact pure rfl
  | cons m rest ih =>
    obtain ⟨method, function⟩ := m
    unfold Import.bindStatics
    refine bind freshIdentity fun id => ?_
    exact bind (bindOne scope _ (.callable (.foreign id (type.qualified method) function)))
      fun _ => ih

/-- Binding an import and giving it as the result. -/
theorem bindImport (scope : FrameId) (label : String) (v : Value) :
    ρ.Carries ((Eval.update fun s => s.bind scope label v).bind fun _ => Eval.pure v)
      ((Eval.update fun s => s.bind (ρ.frame scope) label (ρ.value v)).bind fun _ =>
        Eval.pure (ρ.value v)) ρ.value :=
  bind (bindOne scope label v) fun _ => pure rfl

theorem performImport (scope : FrameId) (operand : Value) :
    ρ.Carries (Import.perform scope operand) (Import.perform (ρ.frame scope) (ρ.value operand))
      ρ.value := by
  refine bind (check (ρ.request_value operand)) fun request => ?_
  refine bind (g := fun a => a) (read fun hmirrors _ => hmirrors.registry scope) fun registry => ?_
  cases Import.resolve registry request.written with
  | error cause => exact fail _
  | ok target =>
    cases target with
    | function name function =>
      exact bind freshIdentity fun id => bindImport scope _ (.callable (.foreign id name function))
    | type type =>
      refine bind (bindStatics scope _ type _) fun _ => ?_
      exact bind freshIdentity fun id => bindImport scope _ (.callable (.constructor id type))

theorem performImports (scope : FrameId) (operands : List Value) :
    ρ.Carries (Import.performAll scope operands)
      (Import.performAll (ρ.frame scope) (operands.map ρ.value)) (List.map ρ.value) := by
  induction operands with
  | nil => exact pure rfl
  | cons operand rest ih =>
    exact bind (performImport scope operand) fun v => bind ih fun vs => pure rfl

theorem newFunction (frame : FrameId) (parameters forms : List Value) :
    ρ.Carries (Eval.newFunction frame parameters forms)
      (Eval.newFunction (ρ.frame frame) (parameters.map ρ.value) (forms.map ρ.value)) ρ.value := by
  refine bind (check (ρ.parameterNames_map parameters)) fun names => ?_
  refine bind freshIdentity fun id => pure ?_
  rw [value, callable_function]

theorem runLambda (scope : FrameId) (operands : List Value) :
    ρ.Carries (SpecialForm.runLambda scope operands)
      (SpecialForm.runLambda (ρ.frame scope) (operands.map ρ.value)) ρ.value := by
  unfold SpecialForm.runLambda
  rw [headD_map, ← List.map_drop]
  refine bind (check (ρ.count_map operands _ _)) fun _ => ?_
  cases operands.headD .nil with
  | list id parameters =>
    rw [value_list]
    exact newFunction scope parameters _
  | _ => exact fail _

theorem quoteAll (vs : List Value) :
    ρ.Carries (Eval.quoteAll vs) (Eval.quoteAll (vs.map ρ.value)) (List.map ρ.value) := by
  induction vs with
  | nil => exact pure rfl
  | cons v vs ih =>
    have hrest : ∀ form : Value, ρ.Carries
        ((Eval.quoteAll vs).bind fun forms => Eval.pure (form :: forms))
        ((Eval.quoteAll (vs.map ρ.value)).bind fun forms => Eval.pure (ρ.value form :: forms))
        (List.map ρ.value) :=
      fun form => bind ih fun forms => pure rfl
    -- A symbol or list is quoted, by a primitive of its own.
    have hquote : ρ.Carries
        (Eval.freshIdentity.bind fun copy =>
          (Eval.newList [.callable (.primitive (.special .quote) (some copy)), v]).bind fun form =>
            (Eval.quoteAll vs).bind fun forms => Eval.pure (form :: forms))
        (Eval.freshIdentity.bind fun copy =>
          (Eval.newList [.callable (.primitive (.special .quote) (some copy)), ρ.value v]).bind
            fun form => (Eval.quoteAll (vs.map ρ.value)).bind fun forms => Eval.pure (form :: forms))
        (List.map ρ.value) := by
      refine bind freshIdentity fun copy => ?_
      exact bind (newList [.callable (.primitive (.special .quote) (some copy)), v]) hrest
    cases v with
    | sym name => exact hquote
    | list id items =>
      rw [value_list] at hquote
      rw [List.map_cons, value_list]
      exact hquote
    | _ => exact hrest _

/-! ### Control operations -/

section

open Control

theorem expectCallable (callee : String) (scope : FrameId) (v : Value) :
    ρ.Carries (Control.expectCallable callee scope v)
      (Control.expectCallable callee (ρ.frame scope) (ρ.value v)) fun u => u := by
  unfold Control.expectCallable
  refine bind (g := fun b => b) (read fun hmirrors _ => hmirrors.isCallable scope v) fun b => ?_
  rw [mismatch_value]
  cases b with
  | true => exact pure rfl
  | false => exact fail _

theorem checking {x y : Eval Value} (scope : FrameId) (operands : List Value) (callee : String)
    (arity : Arity) (hxy : ρ.Carries x y ρ.value) :
    ρ.Carries (Control.checking scope operands callee arity x)
      (Control.checking (ρ.frame scope) (operands.map ρ.value) callee arity y) ρ.value := by
  unfold Control.checking
  rw [headD_map]
  refine bind (check (ρ.count_map operands callee arity)) fun _ => ?_
  exact bind (expectCallable callee scope _) fun _ => hxy

theorem callEachOnto {call call' : List Value → Eval Value} {rows : List (List Value)}
    (hcall : ∀ row ∈ rows, ρ.Carries (call row) (call' (row.map ρ.value)) ρ.value)
    (done : List Value) :
    ρ.Carries (Control.callEachOnto call done rows)
      (Control.callEachOnto call' (done.map ρ.value) (rows.map (List.map ρ.value)))
      (List.map ρ.value) := by
  induction rows generalizing done with
  | nil => exact pure List.map_reverse.symm
  | cons row rest ih =>
    refine bind (hcall row List.mem_cons_self) fun v => ?_
    exact ih (fun row hrow => hcall row (List.mem_cons_of_mem _ hrow)) (v :: done)

theorem keepTruthyOnto {call call' : Value → Eval Value} {items : List Value}
    (hcall : ∀ v ∈ items, ρ.Carries (call v) (call' (ρ.value v)) ρ.value) (kept : List Value) :
    ρ.Carries (Control.keepTruthyOnto call kept items)
      (Control.keepTruthyOnto call' (kept.map ρ.value) (items.map ρ.value)) (List.map ρ.value) := by
  induction items generalizing kept with
  | nil => exact pure List.map_reverse.symm
  | cons v rest ih =>
    refine bind (hcall v List.mem_cons_self) fun answer => ?_
    rw [isTruthy_value]
    have hrest := ih fun v hv => hcall v (List.mem_cons_of_mem _ hv)
    split
    · exact hrest (v :: kept)
    · exact hrest kept

theorem foldCalls {call call' : Value → Value → Eval Value} {items : List Value}
    (hcall : ∀ acc, ∀ v ∈ items, ρ.Carries (call acc v) (call' (ρ.value acc) (ρ.value v)) ρ.value)
    (acc : Value) :
    ρ.Carries (Control.foldCalls call acc items)
      (Control.foldCalls call' (ρ.value acc) (items.map ρ.value)) ρ.value := by
  induction items generalizing acc with
  | nil => exact pure rfl
  | cons v rest ih =>
    refine bind (hcall acc v List.mem_cons_self) fun acc => ?_
    exact ih (fun acc v hv => hcall acc v (List.mem_cons_of_mem _ hv)) acc

/-- Running a control operation, given the means to call with operands that reach less deep. -/
theorem runWith (control : Control) (scope : FrameId) (operands : List Value)
    {call call' : Value → List Value → Eval Value}
    (hcall : ∀ callee args, Control.reach args < Control.reach operands →
      ρ.Carries (call callee args) (call' (ρ.value callee) (args.map ρ.value)) ρ.value) :
    ρ.Carries (control.runWith scope operands fun callee args _ => call callee args)
      (control.runWith (ρ.frame scope) (operands.map ρ.value) fun callee args _ => call' callee args)
      ρ.value := by
  cases control with
  | apply =>
    rw [runWith_apply, runWith_apply, headD_map, getD_map]
    refine checking scope operands _ _ (afterCheck (ρ.sequence_value _ _) fun args hargs => ?_)
    exact hcall _ args (reach_lt_of_sequence hargs)
  | map =>
    rw [runWith_map, runWith_map, headD_map, ← List.map_drop]
    have hsequences := ρ.mapM_map (operands.drop 1) (ρ.sequence_value "map")
    refine checking scope operands _ _ (afterCheck hsequences fun columns hcolumns => ?_)
    rw [lockstep_map]
    refine bind (callEachOnto (fun row hrow => ?_) []) fun vs => newList vs
    exact hcall _ row (reach_lt_of_mem_lockstep hcolumns hrow)
  | filter =>
    rw [runWith_filter, runWith_filter, headD_map, getD_map]
    refine checking scope operands _ _ (afterCheck (ρ.sequence_value _ _) fun items hitems => ?_)
    refine bind (keepTruthyOnto (fun v _ => ?_) []) fun vs => newList vs
    exact hcall _ [v] (reach_singleton_lt hitems v)
  | fold =>
    rw [runWith_fold, runWith_fold, headD_map, getD_map, getD_map]
    refine checking scope operands _ _ (afterCheck (ρ.sequence_value _ _) fun items hitems => ?_)
    refine foldCalls (fun acc v hv => ?_) _
    exact hcall _ [acc, v] (reach_pair_lt hitems hv acc)
  | isCallable =>
    unfold Control.runWith
    rw [headD_map]
    refine bind (check (ρ.count_map operands _ _)) fun _ => ?_
    refine bind (g := fun b => b) (read fun hmirrors _ => hmirrors.isCallable scope _) fun b => ?_
    exact pure rfl

end

end Carries

/-- An evaluator does the same under other names. -/
def Commutes (ρ : Relabelling) (ev : Evaluator) : Prop :=
  ∀ form scope, ρ.Carries (ev form scope) (ev (ρ.value form) (ρ.frame scope)) ρ.value

namespace Commutes

open Carries

variable {ev : Evaluator} (hev : ρ.Commutes ev)

include hev

/-! ### Sequences of forms -/

theorem values (scope : FrameId) (forms : List Value) :
    ρ.Carries (ev.values scope forms) (ev.values (ρ.frame scope) (forms.map ρ.value))
      (List.map ρ.value) := by
  induction forms with
  | nil => exact pure rfl
  | cons form rest ih => exact bind (hev form scope) fun v => bind ih fun vs => pure rfl

theorem lastFrom (scope : FrameId) (last : Value) (forms : List Value) :
    ρ.Carries (ev.lastFrom scope last forms)
      (ev.lastFrom (ρ.frame scope) (ρ.value last) (forms.map ρ.value)) ρ.value := by
  induction forms generalizing last with
  | nil => exact pure rfl
  | cons form rest ih => exact bind (hev form scope) fun v => ih v

theorem body (scope : FrameId) (forms : List Value) :
    ρ.Carries (ev.body scope forms) (ev.body (ρ.frame scope) (forms.map ρ.value)) ρ.value :=
  lastFrom hev scope .nil forms

/-! ### Closures -/

theorem callFunction (frame : FrameId) (parameters : List String) (forms args : List Value) :
    ρ.Carries (ev.callFunction frame parameters forms args)
      (ev.callFunction (ρ.frame frame) parameters (forms.map ρ.value) (args.map ρ.value))
      ρ.value := by
  unfold Evaluator.callFunction
  rw [List.length_map]
  split
  · exact fail _
  · refine bind (newChild frame) fun inner => ?_
    refine bind (newList args) fun all => ?_
    have hpairs : parameters.zip (args.map ρ.value) ++ [(argumentsName, ρ.value all)] =
        (parameters.zip args ++ [(argumentsName, all)]).map
          fun pair => (pair.1, ρ.value pair.2) := by
      simp [List.zip_map_right]
    rw [hpairs]
    exact bind (bindAll inner _) fun _ => body hev inner forms

theorem applyOperative (caller frame : FrameId) (forms : List Value) (operands : Value) :
    ρ.Carries (ev.applyOperative caller frame forms operands)
      (ev.applyOperative (ρ.frame caller) (ρ.frame frame) (forms.map ρ.value) (ρ.value operands))
      ρ.value := by
  unfold Evaluator.applyOperative
  refine Carries.bind (newChild frame) fun inner => ?_
  exact Carries.bind (bindAll inner [(callerScopeName, .scope caller), (argumentsName, operands)])
    fun _ => body hev inner forms

/-! ### Special forms -/

theorem bindEach (inner : FrameId) (bindings : List Value) :
    ρ.Carries (ev.bindEach inner bindings) (ev.bindEach (ρ.frame inner) (bindings.map ρ.value))
      fun u => u := by
  induction bindings with
  | nil => exact pure rfl
  | cons binding rest ih =>
    cases binding with
    | list id items =>
      rcases items with _ | ⟨name, _ | ⟨form, _ | ⟨third, others⟩⟩⟩
      · exact fail _
      · exact fail _
      · refine bind (check (ρ.symbol_value _ name)) fun name => ?_
        refine bind (hev form inner) fun v => ?_
        exact bind (bindOne inner name v) fun _ => ih
      · exact fail _
    | _ => exact fail _

theorem entries (scope : FrameId) (table : Table Value) (forms : List Value) :
    ρ.Carries (ev.entries scope table forms)
      (ev.entries (ρ.frame scope) (table.map ρ.value) (forms.map ρ.value)) (Table.map ρ.value) := by
  induction forms generalizing table with
  | nil => exact pure rfl
  | cons form rest ih =>
    -- A form without a key is evaluated and its value pushed.
    have hpush : ∀ form, ρ.Carries
        ((ev form scope).bind fun v => ev.entries scope (table.push v) rest)
        ((ev (ρ.value form) (ρ.frame scope)).bind fun v =>
          ev.entries (ρ.frame scope) ((table.map ρ.value).push v) (rest.map ρ.value))
        (Table.map ρ.value) := by
      intro form
      refine bind (hev form scope) fun v => ?_
      rw [Table.push_map]
      exact ih (table.push v)
    cases form with
    | list id items =>
      rcases items with _ | ⟨key, _ | ⟨form, _ | ⟨third, others⟩⟩⟩
      · exact hpush (.list id [])
      · exact hpush key
      · refine bind (hev key scope) fun k => ?_
        refine bind (hev form scope) fun v => ?_
        refine bind (check (ρ.key_value _ k)) fun key => ?_
        rw [Table.insert_map]
        exact ih (table.insert key v)
      · exact hpush (.list id (key :: form :: third :: others))
    | _ => exact hpush _

theorem runDefine (scope : FrameId) (operands : List Value) :
    ρ.Carries (SpecialForm.runDefine ev scope operands)
      (SpecialForm.runDefine ev (ρ.frame scope) (operands.map ρ.value)) ρ.value := by
  unfold SpecialForm.runDefine
  rw [headD_map, getD_map]
  refine bind (check (ρ.count_map operands _ _)) fun _ => ?_
  refine bind (check (ρ.symbol_value _ _)) fun name => ?_
  refine bind (hev _ scope) fun v => ?_
  exact bind (define scope name v) fun _ => pure rfl

theorem runLet (scope : FrameId) (operands : List Value) :
    ρ.Carries (SpecialForm.runLet ev scope operands)
      (SpecialForm.runLet ev (ρ.frame scope) (operands.map ρ.value)) ρ.value := by
  unfold SpecialForm.runLet
  rw [headD_map, ← List.map_drop]
  refine bind (check (ρ.count_map operands _ _)) fun _ => ?_
  cases operands.headD .nil with
  | list id bindings =>
    rw [value_list]
    refine bind (newChild scope) fun inner => ?_
    exact bind (bindEach hev inner bindings) fun _ => body hev inner _
  | _ => exact fail _

theorem runBranch (scope : FrameId) (operands : List Value) :
    ρ.Carries (SpecialForm.runBranch ev scope operands)
      (SpecialForm.runBranch ev (ρ.frame scope) (operands.map ρ.value)) ρ.value := by
  unfold SpecialForm.runBranch
  rw [headD_map, getD_map, List.getElem?_map]
  refine bind (check (ρ.count_map operands _ _)) fun _ => ?_
  refine bind (hev _ scope) fun condition => ?_
  rw [isTruthy_value]
  split
  · exact hev _ scope
  · cases operands[2]? with
    | some form => exact hev form scope
    | none => exact pure rfl

theorem runEval (scope : FrameId) (operands : List Value) :
    ρ.Carries (SpecialForm.runEval ev scope operands)
      (SpecialForm.runEval ev (ρ.frame scope) (operands.map ρ.value)) ρ.value := by
  unfold SpecialForm.runEval
  rw [headD_map, List.getElem?_map]
  refine bind (check (ρ.count_map operands _ _)) fun _ => ?_
  refine bind (hev _ scope) fun form => ?_
  cases operands[1]? with
  | none => exact hev form scope
  | some scopeForm =>
    refine bind (hev scopeForm scope) fun target => ?_
    cases target with
    | scope f => exact hev form f
    | _ => exact fail _

/-- Running a special form on unevaluated operands. -/
theorem runSpecial (form : SpecialForm) (scope : FrameId) (operands : List Value) :
    ρ.Carries (form.run ev scope operands) (form.run ev (ρ.frame scope) (operands.map ρ.value))
      ρ.value := by
  cases form with
  | define => exact runDefine hev scope operands
  | letIn => exact runLet hev scope operands
  | lambda => exact runLambda scope operands
  | operative =>
    unfold SpecialForm.run
    refine Carries.bind freshIdentity fun id => pure ?_
    rw [value, callable_operative]
  | quote => exact ofExcept (ρ.runQuote_map operands)
  | branch => exact runBranch hev scope operands
  | dict =>
    have hentries := entries hev scope .empty operands
    rw [Table.map_empty] at hentries
    exact bind hentries fun t => pure (ρ.value_array t).symm
  | eval => exact runEval hev scope operands
  | sequence => exact body hev scope operands
  | imports => exact bind (performImports scope operands) fun vs => newList vs

/-! ### Calls -/

/-- Calling a callable with values, given the means to run a control operation on them. -/
theorem invokeWith (scope : FrameId) (c : Callable Value) (args : List Value)
    {control control' : Control → Eval Value}
    (hcontrol : ∀ k, ρ.Carries (control k) (control' k) ρ.value) :
    ρ.Carries (ev.invokeWith scope c args control)
      (ev.invokeWith (ρ.frame scope) (ρ.callable c) (args.map ρ.value) control') ρ.value := by
  cases c with
  | primitive p copy =>
    cases p with
    | operation o => exact runOperation o args
    | control k => exact hcontrol k
    | special f => exact Carries.bind (quoteAll args) fun operands => runSpecial hev f scope operands
  | function id frame parameters forms =>
    rw [callable_function]
    exact callFunction hev frame parameters forms args
  | operative id frame forms =>
    rw [callable_operative]
    refine Carries.bind (quoteAll args) fun operands => ?_
    exact Carries.bind (newList operands) fun list => applyOperative hev scope frame forms list
  | foreign id name f => exact runHost f args
  | constructor id type => exact runConstructor type.construct scope args

/-- Calling a value with values, by induction on how deep these reach. -/
theorem call (scope : FrameId) (callee : Value) (args : List Value) :
    ρ.Carries (ev.call scope callee args)
      (ev.call (ρ.frame scope) (ρ.value callee) (args.map ρ.value)) ρ.value := by
  induction hreach : Control.reach args using Nat.strongRecOn generalizing callee args with
  | ind n ih =>
    cases callee with
    | callable c =>
      rw [Evaluator.call, value, Evaluator.call]
      refine invokeWith hev scope c args fun k => ?_
      exact runWith k scope args fun callee args' hless => ih _ (hreach ▸ hless) callee args' rfl
    | str name =>
      rw [Evaluator.call, value, Evaluator.call]
      refine Carries.bind (g := fun f? => f?)
        (read fun hmirrors _ => by rw [hmirrors.registry]) fun f? => ?_
      cases f? with
      | some f => exact runHost f args
      | none => exact fail _
    | _ =>
      unfold Evaluator.call
      exact fail _

theorem runControl (scope : FrameId) (control : Control) (operands : List Value) :
    ρ.Carries (ev.runControl scope control operands)
      (ev.runControl (ρ.frame scope) control (operands.map ρ.value)) ρ.value :=
  runWith control scope operands fun callee args _ => call hev scope callee args

/-! ### Applications -/

theorem apply (scope : FrameId) (c : Callable Value) (id : Identity) (operands : List Value) :
    ρ.Carries (ev.apply scope c id operands)
      (ev.apply (ρ.frame scope) (ρ.callable c) (ρ.identity id) (operands.map ρ.value)) ρ.value := by
  have hvalues := values hev scope operands
  cases c with
  | primitive p copy =>
    cases p with
    | operation o => exact Carries.bind hvalues fun vs => runOperation o vs
    | control k => exact Carries.bind hvalues fun vs => runControl hev scope k vs
    | special f => exact runSpecial hev f scope operands
  | function id frame parameters forms =>
    rw [callable_function]
    exact Carries.bind hvalues fun vs => callFunction hev frame parameters forms vs
  | operative _ frame forms =>
    rw [callable_operative]
    have happly := applyOperative hev scope frame forms (.list id operands)
    rwa [value_list] at happly
  | foreign id name f => exact Carries.bind hvalues fun vs => runHost f vs
  | constructor id type => exact Carries.bind hvalues fun vs => runConstructor type.construct scope vs

theorem applyForm (scope : FrameId) (head : Value) (rest : List Value) :
    ρ.Carries (ev.applyForm scope head rest)
      (ev.applyForm (ρ.frame scope) (ρ.value head) (rest.map ρ.value)) ρ.value := by
  unfold Evaluator.applyForm
  refine Carries.bind (hev head scope) fun v => ?_
  rw [display_value]
  cases v with
  | callable c => exact Carries.bind freshIdentity fun id => apply hev scope c id rest
  | _ => exact fail _

end Commutes

/-! ### Evaluation -/

section

open Carries

theorem commutes_evaluateWithin (ρ : Relabelling) (fuel : Nat) :
    ρ.Commutes (evaluateWithin fuel) := by
  induction fuel with
  | zero => exact fun form scope => halt .endless
  | succ fuel ih =>
    intro form scope
    cases form with
    | sym name => exact read fun hmirrors hs => hmirrors.get hs scope name
    | list id items =>
      rw [value_list]
      cases items with
      | nil => exact pure (ρ.value_list id []).symm
      | cons head rest => exact within scope (ih.applyForm scope head rest)
    | _ => exact pure rfl

/-- A computation that depends on how much deeper applications may nest. -/
theorem Carries.withHeadroom {α β : Type} {x : Nat → Eval α} {y : Nat → Eval β} {g : α → β}
    (hxy : ∀ n, ρ.Carries (x n) (y n) g) :
    ρ.Carries (fun s => x s.headroom s) (fun s => y s.headroom s) g where
  grows s := (hxy s.headroom).grows s
  mirrors {supply s t} hmirrors hcovers := by
    have hheadroom : t.headroom = s.headroom := by
      rw [Store.headroom, hmirrors.runtimes, Store.headroom]
    rw [hheadroom]
    exact (hxy s.headroom).mirrors hmirrors hcovers

theorem commutes_evaluate (ρ : Relabelling) : ρ.Commutes evaluate := fun form scope =>
  withHeadroom fun n => ρ.commutes_evaluateWithin (n + 1) form scope

theorem carries_call (ρ : Relabelling) (scope : FrameId) (callee : Value) (args : List Value) :
    ρ.Carries (call scope callee args) (call (ρ.frame scope) (ρ.value callee) (args.map ρ.value))
      ρ.value :=
  withHeadroom fun n => (ρ.commutes_evaluateWithin (n + 1)).call scope callee args

theorem carries_evaluateAll (ρ : Relabelling) (forms : List Value) (scope : FrameId) :
    ρ.Carries (evaluateAll forms scope) (evaluateAll (forms.map ρ.value) (ρ.frame scope)) ρ.value :=
  ρ.commutes_evaluate.body scope forms

/-! ### Reading -/

mutual

/-- The values of forms differ in the identities of lists alone. -/
theorem carries_ofForm (ρ : Relabelling) (form : Form) :
    ρ.Carries (Eval.ofForm form) (Eval.ofForm form) ρ.value := by
  cases form with
  | list items =>
    rw [Eval.ofForm]
    exact bind (ρ.carries_ofForms items) fun vs => newList vs
  | int n => exact pure rfl
  | float x => exact pure rfl
  | str text => exact pure rfl
  | sym name => exact pure rfl

theorem carries_ofForms (ρ : Relabelling) (forms : List Form) :
    ρ.Carries (Eval.ofForms forms) (Eval.ofForms forms) (List.map ρ.value) := by
  cases forms with
  | nil => exact pure rfl
  | cons form rest =>
    rw [Eval.ofForms]
    exact bind (ρ.carries_ofForm form) fun v => bind (ρ.carries_ofForms rest) fun vs => pure rfl

end

theorem carries_readForms (ρ : Relabelling) (sourceName source : String) :
    ρ.Carries (Eval.readForms sourceName source) (Eval.readForms sourceName source)
      (List.map ρ.value) := by
  unfold Eval.readForms
  split
  · next forms _ => exact ρ.carries_ofForms forms
  · exact fail _

end

end Relabelling

end ConfinedLisp
