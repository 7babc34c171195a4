import ConfinedLisp.Evaluation.Import
import ConfinedLisp.Number

/-!
# What occurs in a value

A value holds other values: the items of a list, the values of a table, the forms in the body of a
closure. `Value.Occurs` says that one value is found somewhere in another one, and `Value.All p`
that everything found in a value satisfies `p`. Tables come about by inserting and pushing alone, for
which there is `Table.Built`.

An operation without effect makes its result from its operands. So whatever holds of everything in
the operands, and of values that refer to nothing, holds of everything in the result. This is stated
with `Yields`, which also says that an operation fails only with an error that a callable may raise
by itself.
-/

namespace ConfinedLisp

/-- A value occurs in another one: it is that value, or occurs in an item, an entry or a body. -/
inductive Value.Occurs (part : Value) : Value → Prop where
  | self : Occurs part part
  | item {id : Identity} {items : List Value} {v : Value} :
      v ∈ items → Occurs part v → Occurs part (.list id items)
  | entry {table : Table Value} {v : Value} :
      v ∈ table.values → Occurs part v → Occurs part (.array table)
  | functionBody {id : Identity} {frame : FrameId} {parameters : List String} {body : List Value}
      {v : Value} :
      v ∈ body → Occurs part v → Occurs part (.callable (.function id frame parameters body))
  | operativeBody {id : Identity} {frame : FrameId} {body : List Value} {v : Value} :
      v ∈ body → Occurs part v → Occurs part (.callable (.operative id frame body))

theorem Value.Occurs.trans {u v w : Value} (huv : u.Occurs v) (hvw : v.Occurs w) : u.Occurs w := by
  induction hvw with
  | self => exact huv
  | item hv _ ih => exact .item hv ih
  | entry hv _ ih => exact .entry hv ih
  | functionBody hv _ ih => exact .functionBody hv ih
  | operativeBody hv _ ih => exact .operativeBody hv ih

/-- Everything that occurs in a value satisfies `p`. -/
def Value.All (p : Value → Prop) (v : Value) : Prop := ∀ part : Value, part.Occurs v → p part

/-- The tables that come about from the empty one by inserting. Pushing is inserting too. -/
inductive Table.Built {α : Type} : Table α → Prop where
  | empty : Built empty
  | insert {t : Table α} (key : Key) (v : α) : Built t → Built (t.insert key v)

/-- A value that is no list and refers to nothing outside of itself. What a table holds is another
matter: a table that was built is plain if its entries are left aside. -/
def Value.IsPlain : Value → Prop
  | .list .. | .scope _ | .object _ => False
  | .callable (.primitive ..) => True
  | .callable _ => False
  | .array table => table.Built
  | _ => True

namespace Value

variable {p q : Value → Prop}

theorem All.self {v : Value} (h : v.All p) : p v := h v .self

theorem All.mono {v : Value} (h : v.All p) (hpq : ∀ part, p part → q part) : v.All q :=
  fun part hpart => hpq part (h part hpart)

theorem all_list {id : Identity} {items : List Value} :
    (Value.list id items).All p ↔ p (.list id items) ∧ ∀ v ∈ items, v.All p := by
  constructor
  · intro h
    exact ⟨h.self, fun v hv part hpart => h part (.item hv hpart)⟩
  · rintro ⟨hself, hitems⟩ part hpart
    cases hpart with
    | self => exact hself
    | item hv hpart => exact hitems _ hv part hpart

theorem all_array {table : Table Value} :
    (Value.array table).All p ↔ p (.array table) ∧ ∀ v ∈ table.values, v.All p := by
  constructor
  · intro h
    exact ⟨h.self, fun v hv part hpart => h part (.entry hv hpart)⟩
  · rintro ⟨hself, hvalues⟩ part hpart
    cases hpart with
    | self => exact hself
    | entry hv hpart => exact hvalues _ hv part hpart

theorem all_function {id : Identity} {frame : FrameId} {parameters : List String}
    {body : List Value} :
    (Value.callable (.function id frame parameters body)).All p ↔
      p (.callable (.function id frame parameters body)) ∧ ∀ v ∈ body, v.All p := by
  constructor
  · intro h
    exact ⟨h.self, fun v hv part hpart => h part (.functionBody hv hpart)⟩
  · rintro ⟨hself, hbody⟩ part hpart
    cases hpart with
    | self => exact hself
    | functionBody hv hpart => exact hbody _ hv part hpart

theorem all_operative {id : Identity} {frame : FrameId} {body : List Value} :
    (Value.callable (.operative id frame body)).All p ↔
      p (.callable (.operative id frame body)) ∧ ∀ v ∈ body, v.All p := by
  constructor
  · intro h
    exact ⟨h.self, fun v hv part hpart => h part (.operativeBody hv hpart)⟩
  · rintro ⟨hself, hbody⟩ part hpart
    cases hpart with
    | self => exact hself
    | operativeBody hv hpart => exact hbody _ hv part hpart

/-- A value that holds no other value. -/
def IsLeaf : Value → Prop
  | .list .. | .array _ => False
  | .callable (.function ..) | .callable (.operative ..) => False
  | _ => True

/-- Only a leaf itself occurs in it. -/
theorem IsLeaf.all_iff {v : Value} (hv : v.IsLeaf) : v.All p ↔ p v := by
  refine ⟨All.self, fun h part hpart => ?_⟩
  cases hpart with
  | self => exact h
  | item => exact hv.elim
  | entry => exact hv.elim
  | functionBody => exact hv.elim
  | operativeBody => exact hv.elim

end Value

/-- The error that an import of a written name fails with if the registry does not have it. -/
def Import.absent (written : String) : EvalError :=
  match Import.betweenAngles? written with
  | some inner => .unknownIdentifier .type (Import.hostName inner)
  | none => .unknownIdentifier .function (Import.hostName written.toList)

/-- An error that a callable raises by itself. Errors of the reader and of the budget are not among
them, and neither is an unknown name outside of an import. -/
def EvalError.IsOrdinary : EvalError → Prop
  | .recursionLimit _ | .budgetExceeded _ | .unreadable .. | .unknownIdentifier .. => False
  | .unresolvedImport written cause => cause = Import.absent written
  | _ => True

/-- An outcome whose value, if it has one, satisfies `Q`, and whose error is ordinary otherwise. -/
def Yields {α : Type} (Q : α → Prop) : Except EvalError α → Prop
  | .ok a => Q a
  | .error e => e.IsOrdinary

namespace Yields

variable {α β : Type} {Q : α → Prop} {P : β → Prop}

theorem ok (a : α) : Yields (fun _ => True) (.ok a) := trivial

theorem bind {x : Except EvalError α} {f : α → Except EvalError β} (hx : Yields Q x)
    (hf : ∀ a, Q a → Yields P (f a)) : Yields P (x >>= f) := by
  cases x with
  | error e => exact hx
  | ok a => exact hf a hx

theorem map {x : Except EvalError α} {f : α → β} (hx : Yields Q x) (hf : ∀ a, Q a → P (f a)) :
    Yields P (x.map f) := by
  cases x with
  | error e => exact hx
  | ok a => exact hf a hx

theorem value {x : Except EvalError α} {a : α} (hx : Yields Q x) (h : x = .ok a) : Q a := by
  rw [h] at hx
  exact hx

theorem ordinary {x : Except EvalError α} {e : EvalError} (hx : Yields Q x) (h : x = .error e) :
    e.IsOrdinary := by
  rw [h] at hx
  exact hx

/-- Items that are checked one by one are all as the check says. -/
theorem mapM {x : α → Except EvalError β} {items : List α} (hx : ∀ a ∈ items, Yields P (x a)) :
    Yields (fun bs => ∀ b ∈ bs, P b) (items.mapM x) := by
  induction items with
  | nil => simp [Yields, pure, Except.pure]
  | cons a rest ih =>
    rw [List.mapM_cons]
    refine bind (hx a (by simp)) fun b hb => ?_
    refine bind (ih fun a ha => hx a (by simp [ha])) fun bs hbs => ?_
    intro c hc
    rcases List.mem_cons.1 hc with rfl | hc
    · exact hb
    · exact hbs c hc

end Yields

/-! ### Tables -/

namespace Table

variable {α : Type}

namespace Built

theorem push {t : Table α} (v : α) (h : t.Built) : (t.push v).Built := h.insert _ v

theorem foldl_push {t : Table α} (h : t.Built) (vs : List α) : (vs.foldl Table.push t).Built := by
  induction vs generalizing t with
  | nil => exact h
  | cons v vs ih => exact ih (h.push v)

theorem ofValues (vs : List α) : (Table.ofValues vs).Built := foldl_push .empty vs

theorem absorb {t : Table α} (h : t.Built) (entries : List (Key × α)) : (t.absorb entries).Built := by
  unfold Table.absorb
  induction entries generalizing t with
  | nil => exact h
  | cons e entries ih =>
    obtain ⟨key, v⟩ := e
    cases key with
    | index n => exact ih (h.push v)
    | name s => exact ih (h.insert (.name s) v)

theorem merge (tables : List (Table α)) : (Table.merge tables).Built := by
  have hfrom : ∀ acc : Table α, acc.Built →
      (tables.foldl (fun acc t => acc.absorb t.entries) acc).Built := by
    induction tables with
    | nil => exact fun acc hacc => hacc
    | cons t tables ih => exact fun acc hacc => ih _ (hacc.absorb t.entries)
  exact hfrom .empty .empty

theorem slice (t : Table α) (begin stop : Nat) : (t.slice begin stop).Built := absorb .empty _

end Built

/-- A table holds nothing but the value inserted and what it held before. -/
theorem mem_values_insert {t : Table α} {key : Key} {x v : α} (h : v ∈ (t.insert key x).values) :
    v = x ∨ v ∈ t.values := by
  unfold insert at h
  split at h
  · simp only [values, entries, Array.toList_setIfInBounds, List.mem_map] at h ⊢
    obtain ⟨slot, hslot, rfl⟩ := h
    rcases List.mem_or_eq_of_mem_set hslot with hslot | rfl
    · exact Or.inr ⟨slot, hslot, rfl⟩
    · exact Or.inl rfl
  · simp only [values, entries, Array.toList_push, List.map_append, List.map_cons, List.map_nil,
      List.mem_append, List.mem_singleton] at h
    exact h.symm

theorem mem_values_push {t : Table α} {x v : α} (h : v ∈ (t.push x).values) :
    v = x ∨ v ∈ t.values :=
  mem_values_insert h

theorem mem_values_foldl_push {vs : List α} {t : Table α} {v : α}
    (h : v ∈ (vs.foldl push t).values) : v ∈ vs ∨ v ∈ t.values := by
  induction vs generalizing t with
  | nil => exact Or.inr h
  | cons x rest ih =>
    rcases ih h with h | h
    · exact Or.inl (by simp [h])
    · rcases mem_values_push h with rfl | h
      · exact Or.inl (by simp)
      · exact Or.inr h

/-- A table of values holds those values alone. -/
theorem mem_of_mem_values_ofValues {vs : List α} {v : α} (h : v ∈ (ofValues vs).values) :
    v ∈ vs := by
  rcases mem_values_foldl_push h with h | h
  · exact h
  · simp [empty, values, entries] at h

theorem mem_values_absorb {entries : List (Key × α)} {t : Table α} {v : α}
    (h : v ∈ (t.absorb entries).values) : v ∈ entries.map Prod.snd ∨ v ∈ t.values := by
  induction entries generalizing t with
  | nil => exact Or.inr h
  | cons e rest ih =>
    have hstep : ∀ w ∈ (t.absorbEntry e).values, w = e.2 ∨ w ∈ t.values := by
      intro w hw
      obtain ⟨key, x⟩ := e
      cases key with
      | index n => exact mem_values_push hw
      | name s => exact mem_values_insert hw
    rcases ih h with h | h
    · exact Or.inl (by simp [h])
    · rcases hstep v h with rfl | h
      · exact Or.inl (by simp)
      · exact Or.inr h

/-- Merging tables adds nothing to what they hold. -/
theorem mem_of_mem_values_merge {tables : List (Table α)} {v : α}
    (h : v ∈ (merge tables).values) : ∃ t ∈ tables, v ∈ t.values := by
  have hrun : ∀ acc : Table α,
      v ∈ (tables.foldl (fun acc t => acc.absorb t.entries) acc).values →
        (∃ t ∈ tables, v ∈ t.values) ∨ v ∈ acc.values := by
    clear h
    induction tables with
    | nil => exact fun acc h => Or.inr h
    | cons t rest ih =>
      intro acc h
      rcases ih _ h with ⟨u, hu, hv⟩ | h
      · exact Or.inl ⟨u, by simp [hu], hv⟩
      · rcases mem_values_absorb h with h | h
        · exact Or.inl ⟨t, by simp, h⟩
        · exact Or.inr h
  rcases hrun empty h with h | h
  · exact h
  · simp [empty, values, entries] at h

/-- A slice of a table adds nothing to what it holds. -/
theorem mem_of_mem_values_slice {t : Table α} {begin stop : Nat} {v : α}
    (h : v ∈ (t.slice begin stop).values) : v ∈ t.values := by
  rcases mem_values_absorb h with h | h
  · obtain ⟨e, he, rfl⟩ := List.mem_map.1 h
    exact List.mem_map.2 ⟨e, List.mem_of_mem_drop (List.mem_of_mem_take he), rfl⟩
  · simp [empty, values, entries] at h

/-- The value of a key is one that the table holds. -/
theorem mem_values_of_get? {t : Table α} {key : Key} {v : α} (h : t.get? key = some v) :
    v ∈ t.values := by
  obtain ⟨i, hi, -⟩ := Option.bind_eq_some_iff.1 h
  rw [get?_of_position? hi] at h
  exact List.mem_of_getElem? h

end Table

/-! ### Checking operands -/

namespace Operands

variable {p : Value → Prop}

theorem count_yields (callee : String) (expected : Arity) (operands : List Value) :
    Yields (fun _ => True) (count callee expected operands) := by
  unfold count
  split <;> trivial

theorem symbol_yields (callee : String) (v : Value) :
    Yields (fun _ => True) (symbol callee v) := by
  cases v <;> trivial

theorem string_yields (callee : String) (v : Value) :
    Yields (fun _ => True) (string callee v) := by
  cases v <;> trivial

theorem integer_yields (callee : String) (v : Value) :
    Yields (fun _ => True) (integer callee v) := by
  cases v with
  | float x =>
    rw [integer]
    split <;> trivial
  | _ => trivial

theorem number_yields (callee : String) (v : Value) :
    Yields (fun _ => True) (number callee v) := by
  unfold number
  split <;> trivial

theorem key_yields (callee : String) (v : Value) : Yields (fun _ => True) (key callee v) := by
  unfold key
  split <;> trivial

theorem list_yields {callee : String} {v : Value} (hv : v.All p) :
    Yields (fun items => ∀ x ∈ items, x.All p) (list callee v) := by
  cases v with
  | list id items => exact (Value.all_list.1 hv).2
  | _ => trivial

theorem sequence_yields (callee : String) {v : Value} (hv : v.All p) :
    Yields (fun items => ∀ x ∈ items, x.All p) (sequence callee v) := by
  cases v with
  | list id items => exact (Value.all_list.1 hv).2
  | array table => exact (Value.all_array.1 hv).2
  | _ => trivial

theorem table_yields {callee : String} {v : Value} (hv : v.All p) :
    Yields (fun t : Table Value => ∀ x ∈ t.values, x.All p) (table callee v) := by
  cases v with
  | array table => exact (Value.all_array.1 hv).2
  | list id items =>
    exact fun x hx => (Value.all_list.1 hv).2 x (Table.mem_of_mem_values_ofValues hx)
  | _ => trivial

/-- An operand, or nil where there is none. -/
theorem all_getD {operands : List Value} (hp : p .nil) (h : ∀ v ∈ operands, v.All p) (i : Nat) :
    (operands.getD i .nil).All p := by
  rw [List.getD]
  cases hi : operands[i]? with
  | none => exact (Value.IsLeaf.all_iff (v := .nil) trivial).2 hp
  | some v => exact h v (List.mem_of_getElem? hi)

theorem all_headD {operands : List Value} (hp : p .nil) (h : ∀ v ∈ operands, v.All p) :
    (operands.headD .nil).All p := by
  cases operands with
  | nil => exact (Value.IsLeaf.all_iff (v := .nil) trivial).2 hp
  | cons v rest => exact h v (by simp)

end Operands

end ConfinedLisp
