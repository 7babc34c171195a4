/-!
# Association lists

A finite map kept as a list of pairs, in the order in which its keys first arrived. `Assoc.put`
replaces the value of a key in place or adds the key at the end. Frames of bindings and registries are
both of this shape, so the laws of looking up and putting are stated once, here.
-/

namespace ConfinedLisp

namespace Assoc

variable {κ α : Type} [DecidableEq κ]

/-- The value of the first pair with key `k`. -/
def find? (k : κ) : List (κ × α) → Option α
  | [] => none
  | (k', v) :: rest => if k' = k then some v else find? k rest

/-- Gives key `k` the value `v`: in place if the key is present, at the end otherwise. -/
def put (k : κ) (v : α) : List (κ × α) → List (κ × α)
  | [] => [(k, v)]
  | (k', v') :: rest => if k' = k then (k, v) :: rest else (k', v') :: put k v rest

/-- The keys in order. -/
def keys (m : List (κ × α)) : List κ := m.map Prod.fst

/-- Whether some pair has key `k`. -/
def contains (k : κ) (m : List (κ × α)) : Bool := (find? k m).isSome

/-- Puts each pair of a list in turn. -/
def putAll (pairs : List (κ × α)) (m : List (κ × α)) : List (κ × α) :=
  pairs.foldl (fun acc pair => put pair.1 pair.2 acc) m

@[simp] theorem find?_nil (k : κ) : find? k ([] : List (κ × α)) = none := rfl

/-- A key that was put is found with its new value. -/
@[simp] theorem find?_put_self (k : κ) (v : α) (m : List (κ × α)) :
    find? k (put k v m) = some v := by
  induction m with
  | nil => simp [put, find?]
  | cons p rest ih =>
    obtain ⟨k', v'⟩ := p
    by_cases h : k' = k <;> simp [put, find?, h, ih]

/-- Putting one key leaves every other key's value as it was. -/
theorem find?_put_of_ne {k k' : κ} (h : k' ≠ k) (v : α) (m : List (κ × α)) :
    find? k' (put k v m) = find? k' m := by
  induction m with
  | nil => simp [put, find?, Ne.symm h]
  | cons p rest ih =>
    obtain ⟨k₀, v₀⟩ := p
    by_cases h₀ : k₀ = k
    · subst h₀
      simp [put, find?, Ne.symm h]
    · by_cases h₁ : k₀ = k'
      · subst h₁
        simp [put, find?, h₀]
      · simp [put, find?, h₀, h₁, ih]

/-- A key is absent from the list of keys exactly when it is not found. -/
theorem find?_eq_none_iff {k : κ} {m : List (κ × α)} : find? k m = none ↔ k ∉ keys m := by
  induction m with
  | nil => simp [find?, keys]
  | cons p rest ih =>
    obtain ⟨k', v⟩ := p
    by_cases h : k' = k
    · simp [find?, keys, h]
    · simp only [find?, h, if_false, ih]
      simp [keys, Ne.symm h]

/-- Putting a present key keeps the keys and their order. -/
theorem keys_put_of_mem {k : κ} {v : α} {m : List (κ × α)} (h : k ∈ keys m) :
    keys (put k v m) = keys m := by
  induction m with
  | nil => simp [keys] at h
  | cons p rest ih =>
    obtain ⟨k', v'⟩ := p
    by_cases hk : k' = k
    · simp [put, keys, hk]
    · have h' : k ∈ keys rest := by
        have : k ∈ k' :: keys rest := h
        rcases List.mem_cons.mp this with h | h
        · exact absurd h.symm hk
        · exact h
      have := ih h'
      simp only [keys] at this ⊢
      simp [put, hk, this]

/-- An absent key is put at the end. -/
theorem put_of_notMem {k : κ} {m : List (κ × α)} (h : k ∉ keys m) (v : α) :
    put k v m = m ++ [(k, v)] := by
  induction m with
  | nil => rfl
  | cons pair rest ih =>
    obtain ⟨k', v'⟩ := pair
    obtain ⟨hk, hrest⟩ := not_or.1 (mt List.mem_cons.2 h)
    rw [put, if_neg (Ne.symm hk), ih hrest, List.cons_append]

/-- Putting an absent key adds it after all others. -/
theorem keys_put_of_notMem {k : κ} {v : α} {m : List (κ × α)} (h : k ∉ keys m) :
    keys (put k v m) = keys m ++ [k] := by
  rw [put_of_notMem h, keys, List.map_append]
  rfl

/-- Putting keeps the keys distinct. -/
theorem nodup_keys_put {k : κ} {v : α} {m : List (κ × α)} (h : (keys m).Nodup) :
    (keys (put k v m)).Nodup := by
  by_cases hk : k ∈ keys m
  · rwa [keys_put_of_mem hk]
  · rw [keys_put_of_notMem hk, List.nodup_append]
    refine ⟨h, by simp, ?_⟩
    intro a ha b hb
    simp only [List.mem_singleton] at hb
    subst hb
    exact fun e => hk (e ▸ ha)

theorem putAll_append (pairs pairs' m : List (κ × α)) :
    putAll (pairs ++ pairs') m = putAll pairs' (putAll pairs m) := List.foldl_append

theorem find?_putAll_of_notMem {k : κ} {pairs : List (κ × α)} (h : k ∉ keys pairs)
    (m : List (κ × α)) : find? k (putAll pairs m) = find? k m := by
  induction pairs generalizing m with
  | nil => rfl
  | cons pair pairs ih =>
    rw [keys, List.map_cons, List.mem_cons, not_or] at h
    obtain ⟨hne, hrest⟩ := h
    exact (ih hrest _).trans (find?_put_of_ne hne _ _)

/-- Of several values that are put under one key the last one stays. -/
theorem find?_putAll {k : κ} {v : α} {pairs : List (κ × α)} {i : Nat}
    (h : pairs[i]? = some (k, v)) (hlast : k ∉ keys (pairs.drop (i + 1))) (m : List (κ × α)) :
    find? k (putAll pairs m) = some v := by
  have hsplit : pairs = pairs.take i ++ (k, v) :: pairs.drop (i + 1) := by
    obtain ⟨hi, hget⟩ := List.getElem?_eq_some_iff.1 h
    rw [← hget, List.getElem_cons_drop, List.take_append_drop]
  rw [hsplit, putAll_append]
  refine (find?_putAll_of_notMem hlast _).trans ?_
  exact find?_put_self k v _

theorem nodup_keys_putAll {m : List (κ × α)} (h : (keys m).Nodup) (pairs : List (κ × α)) :
    (keys (putAll pairs m)).Nodup := by
  induction pairs generalizing m with
  | nil => exact h
  | cons pair pairs ih => exact ih (nodup_keys_put h)

/-- The keys are those that were there and those that were put. -/
theorem mem_keys_putAll {k : κ} (pairs m : List (κ × α)) :
    k ∈ keys (putAll pairs m) ↔ k ∈ keys pairs ∨ k ∈ keys m := by
  induction pairs generalizing m with
  | nil => simp [putAll, keys]
  | cons pair pairs ih =>
    have hput : k ∈ keys (put pair.1 pair.2 m) ↔ k = pair.1 ∨ k ∈ keys m := by
      by_cases hmem : pair.1 ∈ keys m
      · rw [keys_put_of_mem hmem]
        exact ⟨.inr, fun h => h.elim (· ▸ hmem) id⟩
      · rw [keys_put_of_notMem hmem, List.mem_append, List.mem_singleton, or_comm]
    have hkeys : keys (pair :: pairs) = pair.1 :: keys pairs := rfl
    refine (ih (put pair.1 pair.2 m)).trans ?_
    rw [hput, hkeys, List.mem_cons, or_left_comm, or_assoc]

/-- Pairs with distinct keys, none of which is present, are put after all others. -/
theorem putAll_of_nodup {pairs m : List (κ × α)} (h : (keys (m ++ pairs)).Nodup) :
    putAll pairs m = m ++ pairs := by
  induction pairs generalizing m with
  | nil => exact (List.append_nil m).symm
  | cons pair rest ih =>
    have hpair : pair.1 ∉ keys m := by
      rw [keys, List.map_append, List.map_cons] at h
      intro hmem
      exact (List.nodup_append.1 h).2.2 _ hmem _ List.mem_cons_self rfl
    rw [List.append_cons] at h ⊢
    rw [← ih h, ← put_of_notMem hpair]
    rfl

end Assoc

end ConfinedLisp
