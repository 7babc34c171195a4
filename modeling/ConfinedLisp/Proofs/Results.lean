import ConfinedLisp.Evaluation.SpecialForm
import ConfinedLisp.Host.Function
import ConfinedLisp.Operation.Run
import ConfinedLisp.Proofs.Occurrence

/-!
# Results come from operands

An operation or host function without effect makes its result from its operands: whatever holds of
everything in the operands, and of plain values, holds of everything in the result.
-/

namespace ConfinedLisp

namespace Arithmetic

theorem foldFrom_yields {callee : String} {step : Number → Number → Except EvalError Number}
    (hstep : ∀ a b, Yields (fun _ => True) (step a b)) (acc : Number) (operands : List Value) :
    Yields (fun _ => True) (foldFrom callee step acc operands) := by
  induction operands generalizing acc with
  | nil => trivial
  | cons v rest ih =>
    rw [foldFrom]
    split
    · next e he => exact (Operands.number_yields callee v).ordinary he
    · next n _ =>
      split
      · next e he => exact (hstep acc n).ordinary he
      · next acc _ => exact ih acc

theorem dividing_yields (callee : String) (step : Number → Number → Number) (a b : Number) :
    Yields (fun _ => True) (dividing callee step a b) := by
  unfold dividing
  split <;> trivial

end Arithmetic

namespace Logic

theorem compare_yields (callee : String) (a b : Value) :
    Yields (fun _ => True) (compare callee a b) := by
  unfold compare
  split <;> trivial

theorem ordered_yields (callee : String) (accept : Ordering → Bool) (operands : List Value) :
    Yields (fun _ => True) (ordered callee accept operands) := by
  fun_induction ordered callee accept operands with
  | case1 a b rest e he => exact (compare_yields callee a b).ordinary he
  | case2 a b rest ordering _ _ ih => exact ih
  | case3 => trivial
  | case4 => trivial
  | case5 => trivial

theorem allStrict_yields (callee : String) (operands : List Value) :
    Yields (fun _ => True) (allStrict callee operands) := by
  refine (Operands.count_yields _ _ _).bind fun _ _ => ?_
  split <;> trivial

/-- The first operand that passes a test, or the last one. -/
theorem all_find?_getD {p : Value → Prop} {operands : List Value} {last : Value}
    (test : Value → Bool) (h : ∀ v ∈ operands, v.All p) (hlast : operands.getLast? = some last) :
    ((operands.find? test).getD last).All p := by
  cases hfound : operands.find? test with
  | none => exact h last (List.mem_of_getLast? hlast)
  | some v => exact h v (List.mem_of_find?_eq_some hfound)

end Logic

theorem Collection.size_yields (callee : String) (v : Value) :
    Yields (fun _ => True) (Collection.size callee v) := by
  cases v <;> trivial

namespace Host

theorem single_yields {p : Value → Prop} {name : String} {args : List Value} (hp : p .nil)
    (h : ∀ v ∈ args, v.All p) : Yields (Value.All p) (single name args) :=
  (Operands.count_yields _ _ _).bind fun _ _ => Operands.all_headD hp h

theorem spanOf_yields (name : String) (size : Nat) (args : List Value) :
    Yields (fun _ => True) (spanOf name size args) := by
  refine (Operands.integer_yields _ _).bind fun _ _ => ?_
  split
  · trivial
  · exact (Operands.integer_yields _ _).bind fun _ _ => trivial

theorem bestFrom_yields {p : Value → Prop} {name : String} {replaces : Float → Float → Bool}
    {best : Option (Float × Value)} {candidates : List Value}
    (hbest : ∀ b, best = some b → b.2.All p) (h : ∀ v ∈ candidates, v.All p) :
    Yields (fun best => ∀ b, best = some b → b.2.All p)
      (bestFrom name replaces best candidates) := by
  fun_induction bestFrom name replaces best candidates with
  | case1 => exact hbest
  | case2 best v vs e he => exact (Operands.number_yields name v).ordinary he
  | case3 v vs n _ ih =>
    refine ih (fun b hb => ?_) fun w hw => h w (by simp [hw])
    cases hb
    exact h v (by simp)
  | case4 v vs n _ current w _ ih =>
    refine ih (fun b hb => ?_) fun w hw => h w (by simp [hw])
    cases hb
    exact h v (by simp)
  | case5 v vs n _ current w _ ih => exact ih hbest fun w hw => h w (by simp [hw])

theorem extremum_yields {p : Value → Prop} {name : String} {replaces : Float → Float → Bool}
    {args : List Value} (h : ∀ v ∈ args, v.All p) :
    Yields (Value.All p) (extremum name replaces args) := by
  refine (Operands.count_yields _ _ _).bind fun _ _ => ?_
  dsimp only
  refine (bestFrom_yields (p := p) (fun b hb => by cases hb) fun v hv => ?_).bind
    fun best hbest => ?_
  · split at hv
    · exact (Value.all_list.1 (h _ (List.mem_singleton_self _))).2 v hv
    · exact (Value.all_array.1 (h _ (List.mem_singleton_self _))).2 v hv
    · exact h v hv
  · cases best with
    | none => trivial
    | some b => exact hbest b rfl

end Host

theorem parameterNames_yields (parameters : List Value) :
    Yields (fun _ => True) (parameterNames parameters) := by
  fun_induction parameterNames parameters with
  | case1 => trivial
  | case2 name rest ih => exact ih.map fun _ _ => trivial
  | case3 => trivial

theorem Import.request_yields (operand : Value) :
    Yields (fun _ => True) (Import.request operand) := by
  unfold Import.request
  split
  · trivial
  · refine (Operands.symbol_yields _ _).bind fun _ _ => ?_
    exact (Operands.symbol_yields _ _).bind fun _ _ => trivial
  · trivial

namespace Import

variable {registry : Registry} {written : String}

theorem resolve_error {cause : EvalError} (h : resolve registry written = .error cause) :
    cause = absent written := by
  unfold resolve at h
  unfold absent
  cases hwritten : betweenAngles? written with
  | some inner =>
    simp only [hwritten] at h ⊢
    split at h
    · cases h
    · cases h
      rfl
  | none =>
    simp only [hwritten] at h ⊢
    split at h
    · cases h
    · cases h
      rfl

theorem resolve_function {name : String} {f : HostFunction}
    (h : resolve registry written = .ok (.function name f)) : registry.function? name = some f := by
  unfold resolve at h
  split at h
  · dsimp only at h
    split at h <;> cases h
  · dsimp only at h
    split at h
    · next hf =>
      cases h
      exact hf
    · cases h

theorem resolve_type {type : HostType} (h : resolve registry written = .ok (.type type)) :
    ∃ name, registry.type? name = some type := by
  unfold resolve at h
  split at h
  · dsimp only at h
    split at h
    · next htype =>
      cases h
      exact ⟨_, htype⟩
    · cases h
  · dsimp only at h
    split at h <;> cases h

end Import

section Results

variable {p : Value → Prop} (hp : ∀ v : Value, v.IsPlain → p v)

include hp

/-- A plain leaf is all right by itself. -/
theorem Value.all_of_plain {v : Value} (hplain : v.IsPlain) (hleaf : v.IsLeaf) : v.All p :=
  hleaf.all_iff.2 (hp v hplain)

theorem Value.all_bool (b : Bool) : (Value.bool b).All p := Value.all_of_plain hp trivial trivial

theorem Value.all_int (n : Int64) : (Value.int n).All p := Value.all_of_plain hp trivial trivial

theorem Value.all_float (x : Float) : (Value.float x).All p :=
  Value.all_of_plain hp trivial trivial

theorem Value.all_str (s : String) : (Value.str s).All p := Value.all_of_plain hp trivial trivial

theorem Number.all_toValue (n : Number) : n.toValue.All p := by
  cases n with
  | int n => exact Value.all_int hp n
  | float x => exact Value.all_float hp x

theorem Table.Built.all {t : Table Value} (ht : t.Built) (h : ∀ v ∈ t.values, v.All p) :
    (Value.array t).All p :=
  Value.all_array.2 ⟨hp _ ht, h⟩

namespace Arithmetic

theorem fold_yields {callee : String} {step : Number → Number → Except EvalError Number}
    (hstep : ∀ a b, Yields (fun _ => True) (step a b)) (operands : List Value) :
    Yields (Value.All p) (fold callee step operands) := by
  cases operands with
  | nil => trivial
  | cons v rest =>
    rw [fold]
    split
    · next e he => exact (Operands.number_yields callee v).ordinary he
    · next n _ => exact (foldFrom_yields hstep n rest).map fun n _ => Number.all_toValue hp n

theorem sum_yields (operands : List Value) : Yields (Value.All p) (sum operands) := by
  unfold sum
  split
  · exact Value.all_int hp 0
  · exact fold_yields hp (fun a b => Yields.ok (a.add b)) _

theorem product_yields (operands : List Value) : Yields (Value.All p) (product operands) := by
  unfold product
  split
  · exact Value.all_int hp 1
  · exact fold_yields hp (fun a b => Yields.ok (a.multiply b)) _

theorem difference_yields (operands : List Value) : Yields (Value.All p) (difference operands) := by
  unfold difference
  split
  · exact (Operands.number_yields _ _).map fun n _ => Number.all_toValue hp _
  · exact fold_yields hp (fun a b => Yields.ok (a.subtract b)) _

theorem quotient_yields (operands : List Value) : Yields (Value.All p) (quotient operands) :=
  (Operands.count_yields _ _ _).bind fun _ _ => fold_yields hp (dividing_yields _ _) _

theorem modulus_yields (operands : List Value) : Yields (Value.All p) (modulus operands) :=
  (Operands.count_yields _ _ _).bind fun _ _ => fold_yields hp (dividing_yields _ _) _

end Arithmetic

namespace Logic

theorem negation_yields (operands : List Value) : Yields (Value.All p) (negation operands) :=
  (Operands.count_yields _ _ _).bind fun _ _ => Value.all_bool hp _

theorem all_conjunction {operands : List Value} (h : ∀ v ∈ operands, v.All p) :
    (conjunction operands).All p := by
  unfold conjunction
  split
  · exact Value.all_bool hp true
  · next last hlast => exact all_find?_getD _ h hlast

theorem all_disjunction {operands : List Value} (h : ∀ v ∈ operands, v.All p) :
    (disjunction operands).All p := by
  unfold disjunction
  split
  · exact Value.all_bool hp false
  · next last hlast => exact all_find?_getD _ h hlast

theorem chain_yields (callee : String) (accept : Ordering → Bool) (operands : List Value) :
    Yields (Value.All p) (chain callee accept operands) :=
  (Operands.count_yields _ _ _).bind fun _ _ =>
    (ordered_yields callee accept operands).map fun b _ => Value.all_bool hp b

theorem typeTest_yields (callee : String) (accept : Kind → Bool) (operands : List Value) :
    Yields (Value.All p) (typeTest callee accept operands) :=
  (Operands.count_yields _ _ _).bind fun _ _ => Value.all_bool hp _

end Logic

namespace Collection

theorem car_yields {operands : List Value} (h : ∀ v ∈ operands, v.All p) :
    Yields (Value.All p) (car operands) := by
  refine (Operands.count_yields _ _ _).bind fun _ _ => ?_
  have hhead := Operands.all_headD (hp _ trivial) h
  refine (Operands.list_yields hhead).bind fun items hitems => ?_
  cases items with
  | nil => trivial
  | cons v rest => exact hitems v (by simp)

theorem cdr?_yields {operands : List Value} (h : ∀ v ∈ operands, v.All p) :
    Yields (fun rest? => ∀ rest, rest? = some rest → ∀ v ∈ rest, v.All p) (cdr? operands) := by
  refine (Operands.count_yields _ _ _).bind fun _ _ => ?_
  have hhead := Operands.all_headD (hp _ trivial) h
  refine (Operands.list_yields hhead).bind fun items hitems => ?_
  cases items with
  | nil => exact fun rest hrest => by cases hrest
  | cons v rest =>
    rintro rest' ⟨rfl⟩ w hw
    exact hitems w (by simp [hw])

theorem element?_yields {callee positional : String} {collection index : Value}
    (h : collection.All p) :
    Yields (fun found => ∀ v, found = some v → v.All p)
      (element? callee positional collection index) := by
  cases collection with
  | list id items =>
    refine (Operands.integer_yields _ _).map fun n _ v hv => ?_
    unfold atPosition? at hv
    split at hv
    · cases hv
    · exact (Value.all_list.1 h).2 v (List.mem_of_getElem? hv)
  | array table =>
    refine (Operands.key_yields _ _).map fun key _ v hv => ?_
    exact (Value.all_array.1 h).2 v (Table.mem_values_of_get? hv)
  | str s =>
    refine (Operands.integer_yields _ _).map fun n _ v hv => ?_
    obtain ⟨c, -, rfl⟩ := Option.map_eq_some_iff.1 hv
    exact Value.all_str hp _
  | _ => trivial

theorem elementAt_yields {operands : List Value} (h : ∀ v ∈ operands, v.All p) :
    Yields (Value.All p) (elementAt operands) := by
  refine (Operands.count_yields _ _ _).bind fun _ _ => ?_
  have hhead := Operands.all_headD (hp _ trivial) h
  refine (element?_yields hp hhead).bind fun found hfound => ?_
  cases found with
  | some v => exact hfound v rfl
  | none => exact (size_yields _ _).bind fun _ _ => trivial

omit hp in
theorem hasElement_yields (callee positional : String) (collection index : Value) :
    Yields (fun _ => True) (hasElement callee positional collection index) := by
  cases collection with
  | list id items => exact (Operands.integer_yields _ _).map fun _ _ => trivial
  | array table => exact (Operands.key_yields _ _).map fun _ _ => trivial
  | str s => exact (Operands.integer_yields _ _).map fun _ _ => trivial
  | _ => trivial

theorem existsAt_yields (operands : List Value) : Yields (Value.All p) (existsAt operands) :=
  (Operands.count_yields _ _ _).bind fun _ _ =>
    (hasElement_yields _ _ _ _).map fun _ _ => Value.all_bool hp _

theorem count_yields (operands : List Value) : Yields (Value.All p) (count operands) :=
  (Operands.count_yields _ _ _).bind fun _ _ =>
    (size_yields _ _).bind fun _ _ => Value.all_int hp _

theorem all_array {operands : List Value} (h : ∀ v ∈ operands, v.All p) :
    (array operands).All p :=
  (Table.Built.ofValues operands).all hp fun v hv => h v (Table.mem_of_mem_values_ofValues hv)

theorem symbol_yields (operands : List Value) : Yields (Value.All p) (symbol operands) :=
  (Operands.count_yields _ _ _).bind fun _ _ =>
    (Operands.string_yields _ _).map fun _ _ => Value.all_of_plain hp trivial trivial

end Collection

namespace Host

theorem onText_yields {name : String} {f : String → String} {args : List Value}
    (h : ∀ v ∈ args, v.All p) : Yields (Value.All p) (onText name f args) := by
  refine (single_yields (hp _ trivial) h).bind fun v _ => ?_
  exact (Operands.string_yields _ _).bind fun _ _ => Value.all_str hp _

theorem substr_yields (args : List Value) : Yields (Value.All p) (substr args) := by
  refine (Operands.count_yields _ _ _).bind fun _ _ => ?_
  refine (Operands.string_yields _ _).bind fun _ _ => ?_
  exact (spanOf_yields _ _ _).bind fun _ _ => Value.all_str hp _

theorem strContains_yields (args : List Value) : Yields (Value.All p) (strContains args) := by
  refine (Operands.count_yields _ _ _).bind fun _ _ => ?_
  refine (Operands.string_yields _ _).bind fun _ _ => ?_
  exact (Operands.string_yields _ _).bind fun _ _ => Value.all_bool hp _

theorem arrayMerge_yields {args : List Value} (h : ∀ v ∈ args, v.All p) :
    Yields (Value.All p) (arrayMerge args) := by
  refine (Yields.mapM fun v hv => Operands.table_yields (h v hv)).bind fun tables htables => ?_
  refine (Table.Built.merge tables).all hp fun v hv => ?_
  obtain ⟨t, ht, hv⟩ := Table.mem_of_mem_values_merge hv
  exact htables t ht v hv

theorem arraySlice_yields {args : List Value} (h : ∀ v ∈ args, v.All p) :
    Yields (Value.All p) (arraySlice args) := by
  refine (Operands.count_yields _ _ _).bind fun _ _ => ?_
  refine (Operands.table_yields (Operands.all_headD (hp _ trivial) h)).bind fun t ht => ?_
  refine (spanOf_yields _ _ _).bind fun _ _ => ?_
  exact (Table.Built.slice t _ _).all hp fun v hv => ht v (Table.mem_of_mem_values_slice hv)

theorem arrayKeys_yields {args : List Value} (h : ∀ v ∈ args, v.All p) :
    Yields (Value.All p) (arrayKeys args) := by
  refine (single_yields (hp _ trivial) h).bind fun v hv => ?_
  refine (Operands.table_yields hv).bind fun t _ => (Table.Built.ofValues _).all hp fun v hv => ?_
  obtain ⟨key, -, rfl⟩ := List.mem_map.1 (Table.mem_of_mem_values_ofValues hv)
  cases key with
  | index n => exact Value.all_int hp n
  | name s => exact Value.all_str hp s

theorem arrayValues_yields {args : List Value} (h : ∀ v ∈ args, v.All p) :
    Yields (Value.All p) (arrayValues args) := by
  refine (single_yields (hp _ trivial) h).bind fun v hv => ?_
  refine (Operands.table_yields hv).bind fun t ht => ?_
  exact (Table.Built.ofValues _).all hp fun v hv => ht v (Table.mem_of_mem_values_ofValues hv)

theorem abs_yields {args : List Value} (h : ∀ v ∈ args, v.All p) :
    Yields (Value.All p) (abs args) := by
  refine (single_yields (hp _ trivial) h).bind fun v _ => ?_
  refine (Operands.number_yields _ _).bind fun n _ => ?_
  cases n with
  | int n => exact Number.all_toValue hp _
  | float x => exact Value.all_float hp _

theorem onFloat_yields {name : String} {f : Float → Float} {args : List Value}
    (h : ∀ v ∈ args, v.All p) : Yields (Value.All p) (onFloat name f args) := by
  refine (single_yields (hp _ trivial) h).bind fun v _ => ?_
  exact (Operands.number_yields _ _).bind fun n _ => Value.all_float hp _

theorem pow_yields (args : List Value) : Yields (Value.All p) (pow args) := by
  refine (Operands.count_yields _ _ _).bind fun _ _ => ?_
  dsimp only
  split
  · exact Value.all_int hp _
  · refine (Operands.number_yields _ _).bind fun _ _ => ?_
    exact (Operands.number_yields _ _).bind fun _ _ => Value.all_float hp _

theorem symbolOf_yields {args : List Value} (h : ∀ v ∈ args, v.All p) :
    Yields (Value.All p) (symbolOf args) := by
  refine (single_yields (hp _ trivial) h).bind fun v _ => ?_
  exact (Operands.string_yields _ _).map fun _ _ => Value.all_of_plain hp trivial trivial

theorem double_yields (args : List Value) : Yields (Value.All p) (double args) := by
  unfold double
  split
  · exact Value.all_int hp _
  · trivial

end Host

theorem SpecialForm.runQuote_yields {operands : List Value} (h : ∀ v ∈ operands, v.All p) :
    Yields (Value.All p) (SpecialForm.runQuote operands) :=
  (Operands.count_yields _ _ _).bind fun _ _ => Operands.all_headD (hp _ trivial) h

end Results

end ConfinedLisp
