import ConfinedLisp.Json.Codec
import ConfinedLisp.Proofs.Occurrence
import ConfinedLisp.Value.Equality

/-!
# Going down values

Loose comparison and encoding go down the lists and tables of a value. Of these there is an end, so
both give an answer unless they meet vectors for which there is none.
-/

namespace ConfinedLisp

/-- The values of a table are smaller than it. -/
theorem Value.sizeOf_lt_of_mem_values {t : Table Value} {v : Value} (h : v ∈ t.values) :
    sizeOf v < sizeOf (Value.array t) := by
  obtain ⟨slots, positions, next⟩ := t
  obtain ⟨slot, hslot, rfl⟩ := List.mem_map.1 h
  have hlt := Array.sizeOf_lt_of_mem (Array.mem_toList_iff.1 hslot)
  obtain ⟨key, v⟩ := slot
  simp only [Prod.mk.sizeOf_spec] at hlt
  simp only [Value.array.sizeOf_spec, Table.mk.sizeOf_spec]
  omega

/-- Induction on lists and tables: what holds of a value if it holds of its items and entries holds
of every value. -/
theorem Value.descend {P : Value → Prop}
    (h : ∀ v : Value, (∀ id items, v = .list id items → ∀ x ∈ items, P x) →
      (∀ t, v = .array t → ∀ x ∈ t.values, P x) → P v) (v : Value) : P v := by
  refine h v (fun id items hv x hx => ?_) fun t hv x hx => ?_
  · have hlt : sizeOf x < sizeOf v := by
      have := List.sizeOf_lt_of_mem hx
      rw [hv, Value.list.sizeOf_spec]
      omega
    exact Value.descend h x
  · have hlt : sizeOf x < sizeOf v := hv ▸ Value.sizeOf_lt_of_mem_values hx
    exact Value.descend h x
termination_by sizeOf v

/-! ### Encoding -/

namespace Json

variable {vectors : VectorId → Except Halt Document} {halt : Halt}

theorem encodeItems_error {items : List Value} (h : encodeItems vectors items = .error halt) :
    ∃ v ∈ items, encodeWith vectors v = .error halt := by
  induction items with
  | nil => simp [encodeItems] at h
  | cons v rest ih =>
    rw [encodeItems] at h
    split at h
    · next halt' hv =>
      cases h
      exact ⟨v, by simp, hv⟩
    · split at h
      · next hrest =>
        cases h
        obtain ⟨x, hx, hfail⟩ := ih hrest
        exact ⟨x, by simp [hx], hfail⟩
      · cases h

theorem encodeEntries_error {entries : List (Key × Value)}
    (h : encodeEntries vectors entries = .error halt) :
    ∃ e ∈ entries, encodeWith vectors e.2 = .error halt := by
  induction entries with
  | nil => simp [encodeEntries] at h
  | cons e rest ih =>
    rw [encodeEntries] at h
    split at h
    · next halt' he =>
      cases h
      refine ⟨e, by simp, ?_⟩
      rw [encodeEntry] at he
      cases hv : encodeWith vectors e.2 with
      | error halt => simpa [hv, Except.map] using he
      | ok d => simp [hv, Except.map] at he
    · split at h
      · next hrest =>
        cases h
        obtain ⟨x, hx, hfail⟩ := ih hrest
        exact ⟨x, by simp [hx], hfail⟩
      · cases h

theorem encodeTable_error {t : Table Value} (h : encodeTable vectors t = .error halt) :
    ∃ v ∈ t.values, encodeWith vectors v = .error halt := by
  obtain ⟨⟨entries⟩, positions, next⟩ := t
  rw [encodeTable] at h
  split at h
  · next hentries =>
    cases h
    obtain ⟨e, he, hfail⟩ := encodeEntries_error hentries
    exact ⟨e.2, List.mem_map.2 ⟨e, he, rfl⟩, hfail⟩
  · split at h <;> cases h

/-- Encoding stops without a document at a value that has none, or at a vector for which there is
none. -/
theorem encodeWith_error {v : Value} (h : encodeWith vectors v = .error halt) :
    (∃ failure, halt = encodeFailure failure) ∨
      ∃ i, (Value.object i).Occurs v ∧ vectors i = .error halt := by
  induction v using Value.descend with
  | h v hitems hentries =>
    cases v with
    | float x =>
      rw [encodeWith] at h
      split at h
      · cases h
      · cases h
        exact Or.inl ⟨_, rfl⟩
    | list id items =>
      rw [encodeWith] at h
      cases hall : encodeItems vectors items with
      | ok ds => simp [hall, Except.map] at h
      | error halt' =>
        simp only [hall, Except.map, Except.error.injEq] at h
        subst h
        obtain ⟨x, hx, hfail⟩ := encodeItems_error hall
        refine (hitems id items rfl x hx hfail).imp_right ?_
        rintro ⟨i, hi, hvector⟩
        exact ⟨i, .item hx hi, hvector⟩
    | array t =>
      rw [encodeWith] at h
      obtain ⟨x, hx, hfail⟩ := encodeTable_error h
      refine (hentries t rfl x hx hfail).imp_right ?_
      rintro ⟨i, hi, hvector⟩
      exact ⟨i, .entry hx hi, hvector⟩
    | object i =>
      rw [encodeWith] at h
      exact Or.inr ⟨i, .self, h⟩
    | scope f =>
      rw [encodeWith] at h
      cases h
      exact Or.inl ⟨_, rfl⟩
    | callable c =>
      rw [encodeWith] at h
      cases h
      exact Or.inl ⟨_, rfl⟩
    | _ =>
      rw [encodeWith] at h
      cases h

theorem encodeVector_error {s : Store} {fuel : Nat} {i : VectorId}
    (h : encodeVector s fuel i = .error halt) :
    halt = .endless ∨ ∃ failure, halt = encodeFailure failure := by
  induction fuel generalizing i with
  | zero =>
    cases h
    exact Or.inl rfl
  | succ fuel ih =>
    rw [encodeVector] at h
    cases hall : encodeItems (encodeVector s fuel) (s.vector i) with
    | ok ds => simp [hall, Except.map] at h
    | error halt' =>
      simp only [hall, Except.map, Except.error.injEq] at h
      subst h
      obtain ⟨x, hx, hfail⟩ := encodeItems_error hall
      rcases encodeWith_error hfail with h | ⟨j, -, hj⟩
      · exact Or.inr h
      · exact ih hj

/-- Encoding either goes on for ever or fails with an error of its own. -/
theorem encode_error {s : Store} {v : Value} (h : encode s v = .error halt) :
    halt = .endless ∨ ∃ failure, halt = encodeFailure failure := by
  rcases encodeWith_error h with h | ⟨i, -, hi⟩
  · exact Or.inr h
  · exact encodeVector_error hi

/-- The entries of a table are encoded like a list of its values. -/
theorem encodeEntries_eq (vectors : VectorId → Except Halt Document) (es : List (Key × Value)) :
    encodeEntries vectors es =
      (encodeItems vectors (es.map Prod.snd)).map ((es.map Prod.fst).zip ·) := by
  induction es with
  | nil => rfl
  | cons e es ih =>
    rw [encodeEntries, encodeEntry, ih, List.map_cons, List.map_cons, encodeItems]
    cases encodeWith vectors e.2 with
    | error halt => rfl
    | ok d => cases encodeItems vectors (es.map Prod.snd) <;> rfl

/-- The document of a table with some keys, from those of its values. -/
def assemble (keys : List Key) (ds : List Document) : Document :=
  if Table.sequentialFrom 0 keys then .array ((keys.zip ds).map Prod.snd)
  else .object (orderMembers ((keys.zip ds).map fun m => (keyText m.1, m.2)))

theorem encodeTable_eq (vectors : VectorId → Except Halt Document) (t : Table Value) :
    encodeTable vectors t = (encodeItems vectors t.values).map (assemble t.keys) := by
  obtain ⟨⟨entries⟩, positions, next⟩ := t
  rw [encodeTable, encodeEntries_eq]
  show _ = (encodeItems vectors (entries.map Prod.snd)).map (assemble (entries.map Prod.fst))
  cases encodeItems vectors (entries.map Prod.snd) with
  | error halt => rfl
  | ok ds =>
    by_cases hseq : Table.sequentialFrom 0 (entries.map Prod.fst) <;>
      simp [Except.map, assemble, hseq]

end Json

/-! ### Loose comparison -/

namespace Loose

/-- Whether the values of some pairs are loosely equal, up to the first that are not. -/
def allWith (vectors : VectorId → VectorId → Option Bool) :
    List (Value × Option Value) → Option Bool
  | [] => some true
  | (_, none) :: _ => some false
  | (x, some y) :: rest =>
    match Value.looseEqWith vectors x y with
    | some true => allWith vectors rest
    | answer => answer

theorem allWith_cons (vectors : VectorId → VectorId → Option Bool) (x y : Value)
    (rest : List (Value × Option Value)) :
    allWith vectors ((x, some y) :: rest) =
      if Value.looseEqWith vectors x y = some true then allWith vectors rest
      else Value.looseEqWith vectors x y := by
  rw [allWith]
  split
  · next h => rw [if_pos h]
  · next h => rw [if_neg h]

theorem looseItemsWith_eq (vectors : VectorId → VectorId → Option Bool) (xs ys : List Value) :
    Value.looseItemsWith vectors xs ys = allWith vectors (xs.zip (ys.map some)) := by
  induction xs generalizing ys with
  | nil => cases ys <;> rfl
  | cons x xs ih =>
    cases ys with
    | nil => rfl
    | cons y ys =>
      rw [Value.looseItemsWith, ih]
      rfl

theorem looseTablesWith_eq (vectors : VectorId → VectorId → Option Bool) (t u : Table Value) :
    Value.looseTablesWith vectors t u =
      allWith vectors (t.entries.map fun e => (e.2, u.get? e.1)) := by
  obtain ⟨⟨es⟩, positions, next⟩ := t
  rw [Value.looseTablesWith]
  show _ = allWith vectors (es.map fun e => (e.2, u.get? e.1))
  induction es with
  | nil => rfl
  | cons e es ih =>
    rw [Value.looseEntriesWith, Value.looseEntryWith, ih, List.map_cons]
    cases u.get? e.1 <;> rfl

end Loose

namespace Value

variable {vectors : VectorId → VectorId → Option Bool}

theorem looseItemsWith_none {xs ys : List Value} (h : looseItemsWith vectors xs ys = none) :
    ∃ x ∈ xs, ∃ y ∈ ys, looseEqWith vectors x y = none := by
  induction xs generalizing ys with
  | nil => simp [looseItemsWith] at h
  | cons x xs ih =>
    cases ys with
    | nil => simp [looseItemsWith] at h
    | cons y ys =>
      rw [looseItemsWith] at h
      split at h
      · obtain ⟨a, ha, b, hb, hnone⟩ := ih h
        exact ⟨a, by simp [ha], b, by simp [hb], hnone⟩
      · exact ⟨x, by simp, y, by simp, h⟩

theorem looseEntriesWith_none {entries : List (Key × Value)} {u : Table Value}
    (h : looseEntriesWith vectors entries u = none) :
    ∃ e ∈ entries, ∃ y ∈ u.values, looseEqWith vectors e.2 y = none := by
  induction entries with
  | nil => simp [looseEntriesWith] at h
  | cons e rest ih =>
    rw [looseEntriesWith] at h
    split at h
    · obtain ⟨a, ha, hnone⟩ := ih h
      exact ⟨a, by simp [ha], hnone⟩
    · rw [looseEntryWith] at h
      split at h
      · next y hy => exact ⟨e, by simp, y, Table.mem_values_of_get? hy, h⟩
      · cases h

theorem looseTablesWith_none {t u : Table Value} (h : looseTablesWith vectors t u = none) :
    ∃ x ∈ t.values, ∃ y ∈ u.values, looseEqWith vectors x y = none := by
  obtain ⟨⟨entries⟩, positions, next⟩ := t
  rw [looseTablesWith] at h
  obtain ⟨e, he, y, hy, hnone⟩ := looseEntriesWith_none h
  exact ⟨e.2, List.mem_map.2 ⟨e, he, rfl⟩, y, hy, hnone⟩

/-- A comparison has no answer only if that of two vectors in the values has none. -/
theorem looseEqWith_none {a b : Value} (h : looseEqWith vectors a b = none) :
    ∃ i j, (Value.object i).Occurs a ∧ (Value.object j).Occurs b ∧ vectors i j = none := by
  induction a using Value.descend generalizing b with
  | h a hitems hentries =>
    unfold looseEqWith at h
    split at h
    -- Only two lists, two tables or two vectors can be left without an answer.
    all_goals try cases h
    · next id xs id' ys =>
      split at h
      · obtain ⟨x, hx, y, hy, hnone⟩ := looseItemsWith_none h
        obtain ⟨i, j, hi, hj, hvectors⟩ := hitems id xs rfl x hx hnone
        exact ⟨i, j, .item hx hi, .item hy hj, hvectors⟩
      · cases h
    · next t u =>
      split at h
      · obtain ⟨x, hx, y, hy, hnone⟩ := looseTablesWith_none h
        obtain ⟨i, j, hi, hj, hvectors⟩ := hentries t rfl x hx hnone
        exact ⟨i, j, .entry hx hi, .entry hy hj, hvectors⟩
      · cases h
    · next i j =>
      split at h
      · cases h
      · exact ⟨i, j, .self, .self, h⟩

end Value

end ConfinedLisp
