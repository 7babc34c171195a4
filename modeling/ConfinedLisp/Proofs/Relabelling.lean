import ConfinedLisp.Evaluation.Call
import ConfinedLisp.Proofs.Descent
import ConfinedLisp.Proofs.Results

/-!
# Other names

Frames and identities are names: a program can tell whether two of them are the same, and nothing
else. A `Relabelling` gives every name another one, distinct names to distinct ones. Everything that
built-ins compute from values without looking at the store commutes with it.

## Main definitions

- `Table.map`: a table with another value in each entry.
- `Relabelling`: other names for frames and identities.
- `Relabelling.value`: a value under other names.
-/

namespace ConfinedLisp

namespace Table

variable {α β : Type}

/-- The table with another value in each entry. -/
def map (f : α → β) (t : Table α) : Table β :=
  ⟨t.slots.map fun slot => (slot.1, f slot.2), t.positions, t.next⟩

variable (f : α → β) (t : Table α)

@[simp] theorem map_empty : (empty : Table α).map f = empty := by
  simp [map, empty]

@[simp] theorem entries_map : (t.map f).entries = t.entries.map fun e => (e.1, f e.2) :=
  Array.toList_map

@[simp] theorem size_map : (t.map f).size = t.size := Array.size_map

@[simp] theorem keys_map : (t.map f).keys = t.keys := by
  simp [keys]

@[simp] theorem values_map : (t.map f).values = t.values.map f := by
  simp [values]

@[simp] theorem position?_map (key : Key) : (t.map f).position? key = t.position? key := rfl

@[simp] theorem contains_map (key : Key) : (t.map f).contains key = t.contains key := rfl

@[simp] theorem get?_map (key : Key) : (t.map f).get? key = (t.get? key).map f := by
  unfold get?
  rw [position?_map]
  cases t.position? key with
  | none => rfl
  | some i =>
    simp only [map, Option.bind_some, Array.getElem?_map, Option.map_map]
    rfl

theorem insert_map (key : Key) (v : α) : (t.map f).insert key (f v) = (t.insert key v).map f := by
  unfold insert
  rw [position?_map]
  cases t.position? key with
  | none => simp [map, size]
  | some i => simp [map, Array.map_setIfInBounds]

theorem push_map (v : α) : (t.map f).push (f v) = (t.push v).map f := insert_map f t _ v

theorem foldl_push_map (vs : List α) :
    (vs.map f).foldl push (t.map f) = (vs.foldl push t).map f := by
  induction vs generalizing t with
  | nil => rfl
  | cons v vs ih => rw [List.map_cons, List.foldl_cons, List.foldl_cons, push_map, ih]

theorem ofValues_map (vs : List α) : ofValues (vs.map f) = (ofValues vs).map f := by
  unfold ofValues
  rw [← foldl_push_map, map_empty]

theorem absorb_map (entries : List (Key × α)) :
    (t.map f).absorb (entries.map fun e => (e.1, f e.2)) = (t.absorb entries).map f := by
  unfold absorb
  induction entries generalizing t with
  | nil => rfl
  | cons e entries ih =>
    obtain ⟨key, v⟩ := e
    rw [List.map_cons, List.foldl_cons, List.foldl_cons]
    cases key with
    | index n => rw [absorbEntry, absorbEntry, push_map, ih]
    | name s => rw [absorbEntry, absorbEntry, insert_map, ih]

theorem merge_map (tables : List (Table α)) :
    merge (tables.map (Table.map f)) = (merge tables).map f := by
  have hfrom : ∀ t : Table α,
      (tables.map (Table.map f)).foldl (fun acc t => acc.absorb t.entries) (t.map f) =
        (tables.foldl (fun acc t => acc.absorb t.entries) t).map f := by
    induction tables with
    | nil => exact fun _ => rfl
    | cons u tables ih =>
      intro t
      rw [List.map_cons, List.foldl_cons, List.foldl_cons, entries_map, absorb_map, ih]
  unfold merge
  rw [← hfrom, map_empty]

theorem slice_map (begin stop : Nat) : (t.map f).slice begin stop = (t.slice begin stop).map f := by
  unfold slice
  rw [entries_map, ← List.map_drop, ← List.map_take, ← absorb_map, map_empty]

end Table

/-- Other names for frames and identities. A frame is made after its parent, and a name that is not
smaller than the old one leaves enough of a way to the root. -/
structure Relabelling where
  frame : FrameId → FrameId
  identity : Identity → Identity
  frame_injective : ∀ {f g : FrameId}, frame f = frame g → f = g
  identity_injective : ∀ {i j : Identity}, identity i = identity j → i = j
  le_frame : ∀ f : FrameId, f ≤ frame f

namespace Relabelling

mutual

/-- A value under other names. -/
def value (ρ : Relabelling) : Value → Value
  | .nil => .nil
  | .bool b => .bool b
  | .int n => .int n
  | .float x => .float x
  | .str s => .str s
  | .sym name => .sym name
  | .list id items => .list (ρ.identity id) (ρ.items items)
  | .array table => .array (ρ.table table)
  | .scope f => .scope (ρ.frame f)
  | .callable c => .callable (ρ.callable c)
  | .object v => .object v
termination_by structural v => v

/-- A callable under other names. -/
def callable (ρ : Relabelling) : Callable Value → Callable Value
  | .primitive p copy => .primitive p (copy.map ρ.identity)
  | .function id frame parameters body =>
    .function (ρ.identity id) (ρ.frame frame) parameters (ρ.items body)
  | .operative id frame body => .operative (ρ.identity id) (ρ.frame frame) (ρ.items body)
  | .foreign id name f => .foreign (ρ.identity id) name f
  | .constructor id type => .constructor (ρ.identity id) type
termination_by structural c => c

/-- Values under other names. -/
def items (ρ : Relabelling) : List Value → List Value
  | [] => []
  | v :: vs => ρ.value v :: ρ.items vs
termination_by structural vs => vs

/-- A table under other names. -/
def table (ρ : Relabelling) : Table Value → Table Value
  | ⟨⟨entries⟩, positions, next⟩ => ⟨⟨ρ.entries entries⟩, positions, next⟩
termination_by structural t => t

/-- The entries of a table under other names. -/
def entries (ρ : Relabelling) : List (Key × Value) → List (Key × Value)
  | [] => []
  | e :: es => ρ.entry e :: ρ.entries es
termination_by structural es => es

/-- An entry of a table under other names. -/
def entry (ρ : Relabelling) : Key × Value → Key × Value
  | (key, v) => (key, ρ.value v)
termination_by structural e => e

end

variable (ρ : Relabelling)

theorem items_eq (vs : List Value) : ρ.items vs = vs.map ρ.value := by
  induction vs with
  | nil => rfl
  | cons v vs ih => rw [items, ih, List.map_cons]

theorem table_eq (t : Table Value) : ρ.table t = t.map ρ.value := by
  obtain ⟨⟨es⟩, positions, next⟩ := t
  have hentries : ρ.entries es = es.map fun e => (e.1, ρ.value e.2) := by
    induction es with
    | nil => rfl
    | cons e es ih => rw [entries, ih, entry, List.map_cons]
  rw [table, hentries]
  simp [Table.map]

theorem value_list (id : Identity) (items : List Value) :
    ρ.value (.list id items) = .list (ρ.identity id) (items.map ρ.value) := by
  rw [value, items_eq]

theorem value_array (t : Table Value) : ρ.value (.array t) = .array (t.map ρ.value) := by
  rw [value, table_eq]

theorem callable_function (id : Identity) (frame : FrameId) (parameters : List String)
    (body : List Value) :
    ρ.callable (.function id frame parameters body) =
      .function (ρ.identity id) (ρ.frame frame) parameters (body.map ρ.value) := by
  rw [callable, items_eq]

theorem callable_operative (id : Identity) (frame : FrameId) (body : List Value) :
    ρ.callable (.operative id frame body) =
      .operative (ρ.identity id) (ρ.frame frame) (body.map ρ.value) := by
  rw [callable, items_eq]

/-! ### What can be seen of a value -/

@[simp] theorem identity_eq_iff {i j : Identity} : ρ.identity i = ρ.identity j ↔ i = j :=
  ⟨ρ.identity_injective, congrArg ρ.identity⟩

@[simp] theorem frame_eq_iff {f g : FrameId} : ρ.frame f = ρ.frame g ↔ f = g :=
  ⟨ρ.frame_injective, congrArg ρ.frame⟩

@[simp] theorem identity_beq (i j : Identity) : (ρ.identity i == ρ.identity j) = (i == j) := by
  rw [Bool.eq_iff_iff, beq_iff_eq, beq_iff_eq, identity_eq_iff]

@[simp] theorem frame_beq (f g : FrameId) : (ρ.frame f == ρ.frame g) = (f == g) := by
  rw [Bool.eq_iff_iff, beq_iff_eq, beq_iff_eq, frame_eq_iff]

@[simp] theorem kind_value (v : Value) : (ρ.value v).kind = v.kind := by
  cases v <;> rfl

@[simp] theorem isTruthy_value (v : Value) : (ρ.value v).isTruthy = v.isTruthy := by
  cases v <;> rfl

theorem same_callable (c d : Callable Value) : (ρ.callable c).same (ρ.callable d) = c.same d := by
  cases c <;> cases d <;> simp [callable, Callable.same]
  next p copy p' copy' => cases copy <;> cases copy' <;> simp

theorem displayItems_eq (vs : List Value) : Value.displayItems vs = vs.map Value.display := by
  induction vs with
  | nil => rfl
  | cons v vs ih => rw [Value.displayItems, ih, List.map_cons]

theorem displayTable_eq (t : Table Value) :
    Value.displayTable t = t.entries.map fun e => e.1.display ++ ": " ++ e.2.display := by
  obtain ⟨⟨es⟩, positions, next⟩ := t
  rw [Value.displayTable]
  show _ = es.map _
  induction es with
  | nil => rfl
  | cons e es ih => rw [Value.displayEntries, ih, Value.displayEntry, List.map_cons]

@[simp] theorem display_value (v : Value) : (ρ.value v).display = v.display := by
  induction v using Value.descend with
  | h v hitems hentries =>
    cases v with
    | list id items =>
      have hsame : (items.map ρ.value).map Value.display = items.map Value.display := by
        rw [List.map_map]
        exact List.map_congr_left fun x hx => hitems id items rfl x hx
      rw [value_list, Value.display, Value.display, displayItems_eq, displayItems_eq, hsame]
    | array t =>
      have hsame : (t.map ρ.value).entries.map (fun e => e.1.display ++ ": " ++ e.2.display) =
          t.entries.map fun e => e.1.display ++ ": " ++ e.2.display := by
        rw [Table.entries_map, List.map_map]
        refine List.map_congr_left fun e he => ?_
        simp only [Function.comp, hentries t rfl e.2 (List.mem_map.2 ⟨e, he, rfl⟩)]
      rw [value_array, Value.display, Value.display, displayTable_eq, displayTable_eq, hsame]
    | callable c => cases c <;> rfl
    | _ => rfl

theorem strictEntries_map {es : List (Key × Value)}
    (h : ∀ e ∈ es, ∀ w, (ρ.value e.2).strictEq (ρ.value w) = e.2.strictEq w)
    (fs : List (Key × Value)) :
    Value.strictEntries (es.map fun e => (e.1, ρ.value e.2)) (fs.map fun e => (e.1, ρ.value e.2)) =
      Value.strictEntries es fs := by
  induction es generalizing fs with
  | nil => cases fs <;> rfl
  | cons e es ih =>
    cases fs with
    | nil => rfl
    | cons f fs =>
      obtain ⟨key, v⟩ := e
      rw [List.map_cons, List.map_cons, Value.strictEntries, Value.strictEntries,
        ih (fun e he => h e (by simp [he])), Value.strictEntry, Value.strictEntry,
        h (key, v) (by simp)]

theorem strictTables_eq (t u : Table Value) :
    Value.strictTables t u = Value.strictEntries t.entries u.entries := by
  obtain ⟨⟨es⟩, positions, next⟩ := t
  rfl

theorem strictEq_value (v w : Value) : (ρ.value v).strictEq (ρ.value w) = v.strictEq w := by
  induction v using Value.descend generalizing w with
  | h v hitems hentries =>
    cases v with
    | array t =>
      cases w with
      | array u =>
        rw [value_array, value_array, Value.strictEq, Value.strictEq, strictTables_eq,
          strictTables_eq, Table.entries_map, Table.entries_map]
        exact ρ.strictEntries_map (fun e he => hentries t rfl e.2 (List.mem_map.2 ⟨e, he, rfl⟩)) _
      | _ => rfl
    | list id items => cases w <;> simp [value, Value.strictEq]
    | scope f => cases w <;> simp [value, Value.strictEq]
    | callable c => cases w <;> simp [value, Value.strictEq, same_callable]
    | _ => cases w <;> rfl

/-! ### Operands -/

variable (operands : List Value)

@[simp] theorem headD_map : (operands.map ρ.value).headD .nil = ρ.value (operands.headD .nil) := by
  cases operands <;> rfl

@[simp] theorem getD_map (i : Nat) :
    (operands.map ρ.value).getD i .nil = ρ.value (operands.getD i .nil) := by
  simp only [List.getD_eq_getElem?_getD, List.getElem?_map]
  cases operands[i]? <;> rfl

@[simp] theorem count_map (callee : String) (expected : Arity) :
    Operands.count callee expected (operands.map ρ.value) =
      Operands.count callee expected operands := by
  simp [Operands.count]

@[simp] theorem mismatch_value (callee : String) (expected : Expectation) (v : Value) :
    Operands.mismatch callee expected (ρ.value v) = Operands.mismatch callee expected v := by
  simp [Operands.mismatch]

@[simp] theorem symbol_value (callee : String) (v : Value) :
    Operands.symbol callee (ρ.value v) = Operands.symbol callee v := by
  cases v <;> rfl

@[simp] theorem string_value (callee : String) (v : Value) :
    Operands.string callee (ρ.value v) = Operands.string callee v := by
  cases v <;> rfl

@[simp] theorem integer_value (callee : String) (v : Value) :
    Operands.integer callee (ρ.value v) = Operands.integer callee v := by
  cases v <;> rfl

@[simp] theorem number_value (callee : String) (v : Value) :
    Operands.number callee (ρ.value v) = Operands.number callee v := by
  cases v <;> rfl

@[simp] theorem key_value (callee : String) (v : Value) :
    Operands.key callee (ρ.value v) = Operands.key callee v := by
  cases v <;> rfl

theorem list_value (callee : String) (v : Value) :
    Operands.list callee (ρ.value v) = (Operands.list callee v).map (List.map ρ.value) := by
  cases v <;> first | rfl | (rw [value_list]; rfl)

theorem sequence_value (callee : String) (v : Value) :
    Operands.sequence callee (ρ.value v) = (Operands.sequence callee v).map (List.map ρ.value) := by
  cases v with
  | list id items => rw [value_list]; rfl
  | array t =>
    rw [value_array, Operands.sequence, Table.values_map]
    rfl
  | _ => rfl

theorem table_value (callee : String) (v : Value) :
    Operands.table callee (ρ.value v) = (Operands.table callee v).map (Table.map ρ.value) := by
  cases v with
  | list id items =>
    rw [value_list, Operands.table, Table.ofValues_map]
    rfl
  | array t => rw [value_array]; rfl
  | _ => rfl

/-! ### Operations without effect -/

section Checks

variable {α β γ δ : Type} {x : Except EvalError α} {f : α → Except EvalError γ}

/-- One check after the other, the second one of what the first one gives. -/
theorem bind_of_map {y : Except EvalError β} {g : α → β} {f' : β → Except EvalError δ} {h : γ → δ}
    (hx : y = x.map g) (hf : ∀ a, f' (g a) = (f a).map h) : y.bind f' = (x.bind f).map h := by
  subst hx
  cases x with
  | error e => rfl
  | ok a => exact hf a

/-- One check after the other, where the first one is of something that has no name. -/
theorem bind_of_eq {y : Except EvalError α} {f' : α → Except EvalError δ} {h : γ → δ} (hx : y = x)
    (hf : ∀ a, f' a = (f a).map h) : y.bind f' = (x.bind f).map h := by
  subst hx
  cases y with
  | error e => rfl
  | ok a => exact hf a

end Checks

@[simp] theorem toValue_value (n : Number) : ρ.value n.toValue = n.toValue := by
  cases n <;> rfl

theorem foldFrom_map (callee : String) (step : Number → Number → Except EvalError Number)
    (acc : Number) :
    Arithmetic.foldFrom callee step acc (operands.map ρ.value) =
      Arithmetic.foldFrom callee step acc operands := by
  induction operands generalizing acc with
  | nil => rfl
  | cons v vs ih => simp only [List.map_cons, Arithmetic.foldFrom, number_value, ih]

theorem fold_map (callee : String) (step : Number → Number → Except EvalError Number) :
    Arithmetic.fold callee step (operands.map ρ.value) =
      (Arithmetic.fold callee step operands).map ρ.value := by
  cases operands with
  | nil => rfl
  | cons v vs =>
    simp only [List.map_cons, Arithmetic.fold, number_value, foldFrom_map]
    cases Operands.number callee v with
    | error e => rfl
    | ok n => cases h : Arithmetic.foldFrom callee step n vs <;> simp [Except.map, h]

theorem sum_map : Arithmetic.sum (operands.map ρ.value) = (Arithmetic.sum operands).map ρ.value := by
  cases operands with
  | nil => rfl
  | cons v vs => exact ρ.fold_map (v :: vs) "+" _

theorem product_map :
    Arithmetic.product (operands.map ρ.value) = (Arithmetic.product operands).map ρ.value := by
  cases operands with
  | nil => rfl
  | cons v vs => exact ρ.fold_map (v :: vs) "*" _

theorem difference_map :
    Arithmetic.difference (operands.map ρ.value) = (Arithmetic.difference operands).map ρ.value := by
  rcases operands with _ | ⟨v, _ | ⟨w, vs⟩⟩
  · rfl
  · simp only [List.map_cons, List.map_nil, Arithmetic.difference, number_value]
    cases Operands.number "-" v <;> simp [Except.map]
  · exact ρ.fold_map (v :: w :: vs) "-" _

theorem quotient_map :
    Arithmetic.quotient (operands.map ρ.value) = (Arithmetic.quotient operands).map ρ.value :=
  bind_of_eq (ρ.count_map operands _ _) fun _ => ρ.fold_map operands _ _

theorem modulus_map :
    Arithmetic.modulus (operands.map ρ.value) = (Arithmetic.modulus operands).map ρ.value :=
  bind_of_eq (ρ.count_map operands _ _) fun _ => ρ.fold_map operands _ _

theorem negation_map :
    Logic.negation (operands.map ρ.value) = (Logic.negation operands).map ρ.value :=
  bind_of_eq (ρ.count_map operands _ _) fun _ => by
    rw [headD_map, isTruthy_value]
    rfl

theorem find?_map (p : Value → Bool) (hp : ∀ v, p (ρ.value v) = p v) (last : Value) :
    ((operands.map ρ.value).find? p).getD (ρ.value last) = ρ.value ((operands.find? p).getD last) := by
  have hcomp : p ∘ ρ.value = p := funext hp
  rw [List.find?_map, hcomp]
  cases operands.find? p <;> rfl

theorem conjunction_map :
    Logic.conjunction (operands.map ρ.value) = ρ.value (Logic.conjunction operands) := by
  unfold Logic.conjunction
  rw [List.getLast?_map]
  cases operands.getLast? with
  | none => rfl
  | some last => exact ρ.find?_map operands _ (fun v => by simp) last

theorem disjunction_map :
    Logic.disjunction (operands.map ρ.value) = ρ.value (Logic.disjunction operands) := by
  unfold Logic.disjunction
  rw [List.getLast?_map]
  cases operands.getLast? with
  | none => rfl
  | some last => exact ρ.find?_map operands _ (fun v => by simp) last

theorem compare_value (callee : String) (v w : Value) :
    Logic.compare callee (ρ.value v) (ρ.value w) = Logic.compare callee v w := by
  cases v <;> cases w <;> rfl

theorem ordered_map (callee : String) (accept : Ordering → Bool) :
    Logic.ordered callee accept (operands.map ρ.value) = Logic.ordered callee accept operands := by
  fun_induction Logic.ordered callee accept operands with
  | case1 a b rest e he => simp [Logic.ordered, compare_value, he]
  | case2 a b rest ordering ha haccept ih =>
    simpa [Logic.ordered, compare_value, ha, haccept] using ih
  | case3 a b rest ordering ha haccept => simp [Logic.ordered, compare_value, ha, haccept]
  | case4 a b rest ha => simp [Logic.ordered, compare_value, ha]
  | case5 vs hvs =>
    rcases vs with _ | ⟨a, _ | ⟨b, rest⟩⟩
    · rfl
    · rfl
    · exact absurd rfl (hvs a b rest)

theorem chain_map (callee : String) (accept : Ordering → Bool) :
    Logic.chain callee accept (operands.map ρ.value) =
      (Logic.chain callee accept operands).map ρ.value :=
  bind_of_eq (ρ.count_map operands _ _) fun _ => by
    rw [ordered_map]
    cases Logic.ordered callee accept operands <;> rfl

theorem typeTest_map (callee : String) (accept : Kind → Bool) :
    Logic.typeTest callee accept (operands.map ρ.value) =
      (Logic.typeTest callee accept operands).map ρ.value :=
  bind_of_eq (ρ.count_map operands _ _) fun _ => by
    rw [headD_map, kind_value]
    rfl

theorem allStrict_map (callee : String) :
    Logic.allStrict callee (operands.map ρ.value) = Logic.allStrict callee operands := by
  unfold Logic.allStrict
  rw [count_map]
  cases operands with
  | nil => rfl
  | cons first others => simp [List.all_map, Function.comp_def, strictEq_value]

theorem car_map : Collection.car (operands.map ρ.value) = (Collection.car operands).map ρ.value := by
  refine bind_of_eq (ρ.count_map operands _ _) fun _ => ?_
  rw [headD_map]
  refine bind_of_map (ρ.list_value _ _) fun items => ?_
  cases items <;> rfl

theorem cdr?_map :
    Collection.cdr? (operands.map ρ.value) =
      (Collection.cdr? operands).map (Option.map (List.map ρ.value)) := by
  refine bind_of_eq (ρ.count_map operands _ _) fun _ => ?_
  rw [headD_map]
  refine bind_of_map (ρ.list_value _ _) fun items => ?_
  cases items <;> rfl

theorem atPosition?_map {α β : Type} (f : α → β) (items : List α) (n : Int64) :
    Collection.atPosition? (items.map f) n = (Collection.atPosition? items n).map f := by
  unfold Collection.atPosition?
  split
  · rfl
  · exact List.getElem?_map

theorem element?_value (callee positional : String) (collection index : Value) :
    Collection.element? callee positional (ρ.value collection) (ρ.value index) =
      (Collection.element? callee positional collection index).map (Option.map ρ.value) := by
  cases collection with
  | list id items =>
    simp only [value_list, Collection.element?, integer_value, atPosition?_map]
    cases Operands.integer positional index <;> rfl
  | array t =>
    simp only [value_array, Collection.element?, key_value, Table.get?_map]
    cases Operands.key callee index <;> rfl
  | str s =>
    simp only [value, Collection.element?, integer_value]
    cases Operands.integer positional index with
    | error e => rfl
    | ok n => cases h : Collection.atPosition? s.toList n <;> simp [Except.map, h, value]
  | _ => rfl

theorem size_value (callee : String) (v : Value) :
    Collection.size callee (ρ.value v) = Collection.size callee v := by
  cases v with
  | list id items => simp [value_list, Collection.size]
  | array t => simp [value_array, Collection.size]
  | _ => rfl

theorem elementAt_map :
    Collection.elementAt (operands.map ρ.value) = (Collection.elementAt operands).map ρ.value := by
  refine bind_of_eq (ρ.count_map operands _ _) fun _ => ?_
  rw [headD_map, getD_map]
  refine bind_of_map (ρ.element?_value _ _ _ _) fun found => ?_
  cases found with
  | some v => rfl
  | none => exact bind_of_eq (ρ.size_value _ _) fun n => by rw [display_value]; rfl

theorem hasElement_value (callee positional : String) (collection index : Value) :
    Collection.hasElement callee positional (ρ.value collection) (ρ.value index) =
      Collection.hasElement callee positional collection index := by
  cases collection with
  | list id items => simp only [value_list, Collection.hasElement, integer_value, List.length_map]
  | array t =>
    simp only [value_array, Collection.hasElement, key_value, Table.contains_map]
  | str s => simp only [value, Collection.hasElement, integer_value]
  | _ => rfl

theorem existsAt_map :
    Collection.existsAt (operands.map ρ.value) = (Collection.existsAt operands).map ρ.value := by
  refine bind_of_eq (ρ.count_map operands _ _) fun _ => ?_
  rw [headD_map, getD_map, hasElement_value]
  cases Collection.hasElement "exists-at?" "at" (operands.headD .nil) (operands.getD 1 .nil) <;> rfl

theorem collectionCount_map :
    Collection.count (operands.map ρ.value) = (Collection.count operands).map ρ.value := by
  refine bind_of_eq (ρ.count_map operands _ _) fun _ => ?_
  rw [headD_map]
  exact bind_of_eq (ρ.size_value _ _) fun n => rfl

theorem array_map : Collection.array (operands.map ρ.value) = ρ.value (Collection.array operands) := by
  rw [Collection.array, Collection.array, Table.ofValues_map, value_array]

theorem symbol_map :
    Collection.symbol (operands.map ρ.value) = (Collection.symbol operands).map ρ.value := by
  refine bind_of_eq (ρ.count_map operands _ _) fun _ => ?_
  rw [headD_map, string_value]
  cases Operands.string "symbol" (operands.headD .nil) <;> rfl

theorem string_map :
    Collection.string (operands.map ρ.value) = ρ.value (Collection.string operands) := by
  have hsame : (operands.map ρ.value).map Value.display = operands.map Value.display := by
    simp [Function.comp_def]
  rw [Collection.string, Collection.string, hsame, value]

/-! ### Host functions without effect -/

theorem single_map (name : String) :
    Host.single name (operands.map ρ.value) = (Host.single name operands).map ρ.value :=
  bind_of_eq (ρ.count_map operands _ _) fun _ => by
    rw [headD_map]
    rfl

theorem onText_map (name : String) (f : String → String) :
    Host.onText name f (operands.map ρ.value) = (Host.onText name f operands).map ρ.value :=
  bind_of_map (ρ.single_map operands _) fun _ => bind_of_eq (ρ.string_value _ _) fun _ => rfl

theorem spanOf_map (name : String) (size : Nat) :
    Host.spanOf name size (operands.map ρ.value) = Host.spanOf name size operands := by
  unfold Host.spanOf
  rw [getD_map, getD_map, integer_value]
  cases operands.getD 2 .nil <;> rfl

theorem substr_map : Host.substr (operands.map ρ.value) = (Host.substr operands).map ρ.value := by
  refine bind_of_eq (ρ.count_map operands _ _) fun _ => ?_
  rw [headD_map]
  refine bind_of_eq (ρ.string_value _ _) fun s => ?_
  exact bind_of_eq (ρ.spanOf_map operands _ _) fun _ => rfl

theorem strContains_map :
    Host.strContains (operands.map ρ.value) = (Host.strContains operands).map ρ.value := by
  refine bind_of_eq (ρ.count_map operands _ _) fun _ => ?_
  rw [headD_map, getD_map]
  refine bind_of_eq (ρ.string_value _ _) fun _ => ?_
  exact bind_of_eq (ρ.string_value _ _) fun _ => rfl

theorem mapM_map {β : Type} {f : Value → Except EvalError β} {g : β → β}
    (hf : ∀ v, f (ρ.value v) = (f v).map g) :
    (operands.map ρ.value).mapM f = (operands.mapM f).map (List.map g) := by
  induction operands with
  | nil => rfl
  | cons v vs ih =>
    rw [List.map_cons, List.mapM_cons, List.mapM_cons]
    exact bind_of_map (hf v) fun _ => bind_of_map ih fun _ => rfl

theorem arrayMerge_map :
    Host.arrayMerge (operands.map ρ.value) = (Host.arrayMerge operands).map ρ.value :=
  bind_of_map (ρ.mapM_map operands (ρ.table_value _)) fun tables => by
    rw [Table.merge_map, ← value_array]
    rfl

theorem arraySlice_map :
    Host.arraySlice (operands.map ρ.value) = (Host.arraySlice operands).map ρ.value := by
  refine bind_of_eq (ρ.count_map operands _ _) fun _ => ?_
  rw [headD_map]
  refine bind_of_map (ρ.table_value _ _) fun t => ?_
  rw [Table.size_map]
  refine bind_of_eq (ρ.spanOf_map operands _ _) fun span => ?_
  rw [Table.slice_map, ← value_array]
  rfl

theorem arrayKeys_map :
    Host.arrayKeys (operands.map ρ.value) = (Host.arrayKeys operands).map ρ.value := by
  refine bind_of_map (ρ.single_map operands _) fun v => ?_
  refine bind_of_map (ρ.table_value _ _) fun t => ?_
  have hkeys : (t.keys.map Key.toValue).map ρ.value = t.keys.map Key.toValue := by
    rw [List.map_map]
    exact List.map_congr_left fun key _ => by cases key <;> rfl
  show _ = Except.ok (ρ.value (.array (Table.ofValues (t.keys.map Key.toValue))))
  rw [value_array, ← Table.ofValues_map, hkeys, Table.keys_map]

theorem arrayValues_map :
    Host.arrayValues (operands.map ρ.value) = (Host.arrayValues operands).map ρ.value := by
  refine bind_of_map (ρ.single_map operands _) fun v => ?_
  refine bind_of_map (ρ.table_value _ _) fun t => ?_
  rw [Table.values_map, Table.ofValues_map, ← value_array]
  rfl

theorem abs_map : Host.abs (operands.map ρ.value) = (Host.abs operands).map ρ.value := by
  refine bind_of_map (ρ.single_map operands _) fun v => ?_
  refine bind_of_eq (ρ.number_value _ _) fun n => ?_
  cases n with
  | int n => exact congrArg Except.ok (ρ.toValue_value _).symm
  | float x => rfl

theorem onFloat_map (name : String) (f : Float → Float) :
    Host.onFloat name f (operands.map ρ.value) = (Host.onFloat name f operands).map ρ.value :=
  bind_of_map (ρ.single_map operands _) fun _ => bind_of_eq (ρ.number_value _ _) fun _ => rfl

theorem pow_map : Host.pow (operands.map ρ.value) = (Host.pow operands).map ρ.value := by
  refine bind_of_eq (ρ.count_map operands _ _) fun _ => ?_
  rw [headD_map, getD_map]
  have hfloat : ∀ base exponent : Value,
      ((Operands.number "pow" (ρ.value base)).bind fun b =>
        (Operands.number "pow" (ρ.value exponent)).bind fun e =>
          .ok (.float (b.toFloat.pow e.toFloat))) =
      ((Operands.number "pow" base).bind fun b => (Operands.number "pow" exponent).bind fun e =>
          Except.ok (.float (b.toFloat.pow e.toFloat))).map ρ.value := fun base exponent =>
    bind_of_eq (ρ.number_value _ _) fun _ => bind_of_eq (ρ.number_value _ _) fun _ => rfl
  -- Only two integers have a power that is sought among the integers.
  generalize operands.headD .nil = base
  generalize operands.getD 1 .nil = exponent
  cases base with
  | int b =>
    cases exponent with
    | int e =>
      simp only [value]
      cases Host.exactPower? b e with
      | some n => rfl
      | none => exact hfloat (.int b) (.int e)
    | _ => exact hfloat (.int b) _
  | _ => exact hfloat _ exponent

theorem bestFrom_map (name : String) (replaces : Float → Float → Bool)
    (best : Option (Float × Value)) :
    Host.bestFrom name replaces (best.map fun b => (b.1, ρ.value b.2)) (operands.map ρ.value) =
      (Host.bestFrom name replaces best operands).map (Option.map fun b => (b.1, ρ.value b.2)) := by
  induction operands generalizing best with
  | nil => rfl
  | cons v vs ih =>
    rw [List.map_cons, Host.bestFrom, Host.bestFrom, number_value]
    cases Operands.number name v with
    | error e => rfl
    | ok n =>
      cases best with
      | none => exact ih (some (n.toFloat, v))
      | some current =>
        obtain ⟨current, w⟩ := current
        simp only [Option.map_some]
        split
        · exact ih (some (n.toFloat, v))
        · exact ih (some (current, w))

theorem extremum_map (name : String) (replaces : Float → Float → Bool) :
    Host.extremum name replaces (operands.map ρ.value) =
      (Host.extremum name replaces operands).map ρ.value := by
  refine bind_of_eq (ρ.count_map operands _ _) fun _ => ?_
  refine bind_of_map (g := Option.map fun b => (b.1, ρ.value b.2)) ?_ fun found => by
    cases found <;> rfl
  refine Eq.trans (congrArg (Host.bestFrom name replaces none) ?_)
    (ρ.bestFrom_map _ name replaces none)
  -- A single list or table stands for its elements.
  rcases operands with _ | ⟨v, _ | ⟨w, vs⟩⟩
  · rfl
  · cases v with
    | list id items => rw [List.map_cons, value_list]; rfl
    | array t =>
      rw [List.map_cons, value_array]
      exact Table.values_map ρ.value t
    | _ => rfl
  · cases v <;> rfl

theorem vectorArg_value (name : String) (v : Value) :
    Host.vectorArg name (ρ.value v) = Host.vectorArg name v := by
  cases v <;> rfl

theorem symbolOf_map : Host.symbolOf (operands.map ρ.value) = (Host.symbolOf operands).map ρ.value :=
  bind_of_map (ρ.single_map operands _) fun v => by
    rw [string_value]
    cases Operands.string "Symbol" v <;> rfl

theorem double_map : Host.double (operands.map ρ.value) = (Host.double operands).map ρ.value := by
  rcases operands with _ | ⟨v, _ | ⟨w, vs⟩⟩
  · rfl
  · cases v <;> rfl
  · cases v <;> rfl

/-! ### Forms -/

theorem request_value (v : Value) : Import.request (ρ.value v) = Import.request v := by
  cases v with
  | list id items =>
    rw [value_list]
    rcases items with _ | ⟨a, _ | ⟨b, _ | ⟨c, rest⟩⟩⟩
    · rfl
    · rfl
    · simp [Import.request]
    · rfl
  | _ => rfl

theorem parameterNames_map : parameterNames (operands.map ρ.value) = parameterNames operands := by
  induction operands with
  | nil => rfl
  | cons v vs ih =>
    cases v with
    | sym name => simp only [List.map_cons, value, parameterNames, ih]
    | _ => rfl

theorem runQuote_map :
    SpecialForm.runQuote (operands.map ρ.value) = (SpecialForm.runQuote operands).map ρ.value :=
  bind_of_eq (ρ.count_map operands _ _) fun _ => by
    rw [headD_map]
    rfl

/-! ### Comparison and encoding -/

theorem allWith_map {vectors : VectorId → VectorId → Option Bool}
    {pairs : List (Value × Option Value)}
    (h : ∀ x y, (x, some y) ∈ pairs →
      Value.looseEqWith vectors (ρ.value x) (ρ.value y) = Value.looseEqWith vectors x y) :
    Loose.allWith vectors (pairs.map fun pair => (ρ.value pair.1, pair.2.map ρ.value)) =
      Loose.allWith vectors pairs := by
  induction pairs with
  | nil => rfl
  | cons pair rest ih =>
    obtain ⟨x, y?⟩ := pair
    cases y? with
    | none => rfl
    | some y =>
      rw [List.map_cons, Option.map_some, Loose.allWith_cons, Loose.allWith_cons, h x y (by simp),
        ih fun x y hxy => h x y (by simp [hxy])]

section Comparison

variable {vectors : VectorId → VectorId → Option Bool}

theorem looseItemsWith_map {xs : List Value}
    (h : ∀ x ∈ xs, ∀ y,
      Value.looseEqWith vectors (ρ.value x) (ρ.value y) = Value.looseEqWith vectors x y)
    (ys : List Value) :
    Value.looseItemsWith vectors (xs.map ρ.value) (ys.map ρ.value) =
      Value.looseItemsWith vectors xs ys := by
  have hpairs : (xs.map ρ.value).zip ((ys.map ρ.value).map some) =
      (xs.zip (ys.map some)).map fun pair => (ρ.value pair.1, pair.2.map ρ.value) := by
    have hsome : (ys.map ρ.value).map some = (ys.map some).map (Option.map ρ.value) := by
      simp
    rw [hsome, List.zip_map]
    rfl
  rw [Loose.looseItemsWith_eq, Loose.looseItemsWith_eq, hpairs]
  exact ρ.allWith_map fun x y hxy => h x (List.of_mem_zip hxy).1 y

theorem looseTablesWith_map {t : Table Value}
    (h : ∀ x ∈ t.values, ∀ y,
      Value.looseEqWith vectors (ρ.value x) (ρ.value y) = Value.looseEqWith vectors x y)
    (u : Table Value) :
    Value.looseTablesWith vectors (t.map ρ.value) (u.map ρ.value) =
      Value.looseTablesWith vectors t u := by
  have hpairs : (t.map ρ.value).entries.map (fun e => (e.2, (u.map ρ.value).get? e.1)) =
      (t.entries.map fun e => (e.2, u.get? e.1)).map
        fun pair => (ρ.value pair.1, pair.2.map ρ.value) := by
    simp [Function.comp_def]
  rw [Loose.looseTablesWith_eq, Loose.looseTablesWith_eq, hpairs]
  refine ρ.allWith_map fun x y hxy => h x ?_ y
  obtain ⟨e, he, hpair⟩ := List.mem_map.1 hxy
  obtain ⟨rfl, -⟩ := Prod.mk.inj hpair
  exact List.mem_map.2 ⟨e, he, rfl⟩

end Comparison

theorem looseEqWith_value (vectors : VectorId → VectorId → Option Bool) (v w : Value) :
    Value.looseEqWith vectors (ρ.value v) (ρ.value w) = Value.looseEqWith vectors v w := by
  induction v using Value.descend generalizing w with
  | h v hitems hentries =>
    cases v with
    | list id xs =>
      cases w with
      | list id' ys =>
        rw [value_list, value_list, Value.looseEqWith, Value.looseEqWith, List.length_map,
          List.length_map]
        split
        · exact ρ.looseItemsWith_map (hitems id xs rfl) ys
        · rfl
      | _ => rfl
    | array t =>
      cases w with
      | array u =>
        rw [value_array, value_array, Value.looseEqWith, Value.looseEqWith, Table.size_map,
          Table.size_map]
        split
        · exact ρ.looseTablesWith_map (hentries t rfl) u
        · rfl
      | _ => rfl
    | scope f =>
      cases w with
      | scope g => simp [value, Value.looseEqWith]
      | _ => rfl
    | callable c =>
      cases w with
      | callable d => simp [value, Value.looseEqWith, same_callable]
      | _ => rfl
    | _ => cases w <;> rfl

theorem encodeItems_map {vectors : VectorId → Except Halt Json.Document} {vs : List Value}
    (h : ∀ v ∈ vs, Json.encodeWith vectors (ρ.value v) = Json.encodeWith vectors v) :
    Json.encodeItems vectors (vs.map ρ.value) = Json.encodeItems vectors vs := by
  induction vs with
  | nil => rfl
  | cons v vs ih =>
    rw [List.map_cons, Json.encodeItems, Json.encodeItems, h v (by simp),
      ih fun v hv => h v (by simp [hv])]

theorem encodeWith_value (vectors : VectorId → Except Halt Json.Document) (v : Value) :
    Json.encodeWith vectors (ρ.value v) = Json.encodeWith vectors v := by
  induction v using Value.descend with
  | h v hitems hentries =>
    cases v with
    | list id items =>
      rw [value_list, Json.encodeWith, Json.encodeWith, ρ.encodeItems_map (hitems id items rfl)]
    | array t =>
      rw [value_array, Json.encodeWith, Json.encodeWith, Json.encodeTable_eq, Json.encodeTable_eq,
        Table.values_map, Table.keys_map, ρ.encodeItems_map (hentries t rfl)]
    | _ => rfl

end Relabelling

end ConfinedLisp
