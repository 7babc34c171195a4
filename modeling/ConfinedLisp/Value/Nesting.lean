import ConfinedLisp.Operands

/-!
# Nesting

How deep lists and tables are nested in values. Going from a sequence to its items leads to values that
are nested less deep, so it comes to an end.
-/

namespace ConfinedLisp

mutual

/-- How deep lists and tables are nested in a value. -/
def Value.nesting : Value → Nat
  | .list _ items => Value.nestingOf items + 1
  | .array table => Value.nestingOfTable table + 1
  | _ => 0

/-- How deep lists and tables are nested in some values. -/
def Value.nestingOf : List Value → Nat
  | [] => 0
  | v :: vs => max v.nesting (Value.nestingOf vs)

/-- How deep lists and tables are nested in the values of a table. -/
def Value.nestingOfTable : Table Value → Nat
  | ⟨⟨entries⟩, _, _⟩ => Value.nestingOfEntries entries

/-- How deep lists and tables are nested in the values of some entries. -/
def Value.nestingOfEntries : List (Key × Value) → Nat
  | [] => 0
  | e :: es => max (Value.nestingOfEntry e) (Value.nestingOfEntries es)

/-- How deep lists and tables are nested in the value of an entry. -/
def Value.nestingOfEntry : Key × Value → Nat
  | (_, v) => v.nesting

end

/-- Each of some values is nested at most as deep as all of them. -/
theorem Value.nesting_le_nestingOf {v : Value} {vs : List Value} (h : v ∈ vs) :
    v.nesting ≤ Value.nestingOf vs := by
  induction vs with
  | nil => simp at h
  | cons w ws ih =>
    rw [Value.nestingOf]
    rcases List.mem_cons.1 h with rfl | h
    · exact Nat.le_max_left ..
    · exact Nat.le_trans (ih h) (Nat.le_max_right ..)

/-- Some values are nested less deep than a bound if each of them is. -/
theorem Value.nestingOf_lt {vs : List Value} {n : Nat} (hn : 0 < n)
    (h : ∀ v ∈ vs, v.nesting < n) : Value.nestingOf vs < n := by
  induction vs with
  | nil => exact hn
  | cons v vs ih =>
    rw [Value.nestingOf]
    exact Nat.max_lt.2 ⟨h v (by simp), ih fun w hw => h w (by simp [hw])⟩

/-- The values of entries are nested as deep as the entries. -/
theorem Value.nestingOf_map_snd (entries : List (Key × Value)) :
    Value.nestingOf (entries.map Prod.snd) = Value.nestingOfEntries entries := by
  induction entries with
  | nil => rfl
  | cons e es ih =>
    rw [List.map_cons, Value.nestingOf, Value.nestingOfEntries, Value.nestingOfEntry, ih]

/-- The items of a sequence are nested less deep than it. -/
theorem Operands.nestingOf_lt_of_sequence {callee : String} {v : Value} {items : List Value}
    (h : Operands.sequence callee v = .ok items) : Value.nestingOf items < v.nesting := by
  unfold Operands.sequence at h
  split at h
  · cases h
    exact Nat.lt_succ_self _
  · next table =>
    cases h
    rw [Value.nesting, Value.nestingOfTable, Table.values, Value.nestingOf_map_snd]
    exact Nat.lt_succ_self _
  · cases h

/-- Values are the items of sequences only if each sequence is one of the operands. -/
theorem Operands.mem_of_mapM_sequence {callee : String} {operands items : List Value}
    {columns : List (List Value)}
    (h : operands.mapM (Operands.sequence callee) = .ok columns) (hitems : items ∈ columns) :
    ∃ v ∈ operands, Operands.sequence callee v = .ok items := by
  induction operands generalizing columns with
  | nil =>
    cases h
    simp at hitems
  | cons v vs ih =>
    rw [List.mapM_cons] at h
    cases hfirst : Operands.sequence callee v with
    | error e =>
      rw [hfirst] at h
      cases h
    | ok xs =>
      cases hothers : vs.mapM (Operands.sequence callee) with
      | error e =>
        rw [hfirst, hothers] at h
        cases h
      | ok rest =>
        rw [hfirst, hothers] at h
        cases h
        rcases List.mem_cons.1 hitems with rfl | hitems
        · exact ⟨v, by simp, hfirst⟩
        · obtain ⟨w, hw, hsequence⟩ := ih hothers hitems
          exact ⟨w, by simp [hw], hsequence⟩

end ConfinedLisp
