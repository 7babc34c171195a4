import ConfinedLisp.Evaluation.Budget

/-!
# What an operation does to the store

Evaluation changes the store through a handful of operations: it makes frames, lists and vectors,
binds names, extends vectors, and enters and leaves applications in a budget. This module says what
each of them does.

## Main definitions

- `Store.Grows`: a store has become another one without losing anything. Frames keep their parent,
  their runtime and the names they bind; vectors keep their items; runtimes keep their registry and
  their limits, and never give a step back.
- `Store.Holds`: a value is bound in a frame or is an item of a vector.
-/

namespace ConfinedLisp

/-! ### Arrays whose elements are carried on -/

/-- Every element of `xs` has an element of `ys` at the same position that carries it on. -/
def Continues {α : Type} (R : α → α → Prop) (xs ys : Array α) : Prop :=
  ∀ (i : Nat) (a : α), xs[i]? = some a → ∃ b, ys[i]? = some b ∧ R a b

namespace Continues

variable {α : Type} {R : α → α → Prop} {xs ys zs : Array α}

theorem refl (hR : ∀ a, R a a) (xs : Array α) : Continues R xs xs :=
  fun _ a ha => ⟨a, ha, hR a⟩

theorem trans (hR : ∀ a b c, R a b → R b c → R a c) (hxy : Continues R xs ys)
    (hyz : Continues R ys zs) : Continues R xs zs := by
  intro i a ha
  obtain ⟨b, hb, hab⟩ := hxy i a ha
  obtain ⟨c, hc, hbc⟩ := hyz i b hb
  exact ⟨c, hc, hR a b c hab hbc⟩

theorem push (hR : ∀ a, R a a) (xs : Array α) (a : α) : Continues R xs (xs.push a) := by
  intro i b hb
  refine ⟨b, ?_, hR b⟩
  obtain ⟨hi, -⟩ := Array.getElem?_eq_some_iff.1 hb
  rw [Array.getElem?_push, if_neg (by omega), hb]

theorem modify (hR : ∀ a, R a a) (xs : Array α) (i : Nat) {f : α → α} (hf : ∀ a, R a (f a)) :
    Continues R xs (xs.modify i f) := by
  intro j a ha
  rw [Array.getElem?_modify, ha]
  split
  · exact ⟨f a, rfl, hf a⟩
  · exact ⟨a, rfl, hR a⟩

theorem setIfInBounds (hR : ∀ a, R a a) {i : Nat} {a b : α} (ha : xs[i]? = some a) (hab : R a b) :
    Continues R xs (xs.setIfInBounds i b) := by
  intro j c hc
  obtain ⟨hi, -⟩ := Array.getElem?_eq_some_iff.1 ha
  rw [Array.getElem?_setIfInBounds]
  split
  · next hij =>
    rw [← hij, ha] at hc
    cases hc
    exact ⟨b, rfl, hab⟩
  · exact ⟨c, hc, hR c⟩

end Continues

namespace Assoc

variable {κ α : Type} [DecidableEq κ]

/-- Putting adds no other pair than the one that was put. -/
theorem mem_put {k : κ} {v : α} {m : List (κ × α)} {pair : κ × α} (h : pair ∈ put k v m) :
    pair = (k, v) ∨ pair ∈ m := by
  induction m with
  | nil => exact Or.inl (by simpa [put] using h)
  | cons first rest ih =>
    obtain ⟨k', v'⟩ := first
    rw [put] at h
    split at h
    · rcases List.mem_cons.1 h with h | h
      · exact Or.inl h
      · exact Or.inr (by simp [h])
    · rcases List.mem_cons.1 h with h | h
      · exact Or.inr (by simp [h])
      · exact (ih h).imp id fun h => by simp [h]

/-- What is found is one of the pairs. -/
theorem mem_of_find? {k : κ} {v : α} {m : List (κ × α)} (h : find? k m = some v) : (k, v) ∈ m := by
  induction m with
  | nil => cases h
  | cons first rest ih =>
    obtain ⟨k', v'⟩ := first
    rw [find?] at h
    split at h
    · next hk => simp_all
    · exact List.mem_cons_of_mem _ (ih h)

/-- A key stays present when something is put. -/
theorem contains_put {k k' : κ} {v : α} {m : List (κ × α)} (h : contains k' m = true) :
    contains k' (put k v m) = true := by
  unfold contains at *
  by_cases hk : k' = k
  · subst hk
    simp
  · rwa [find?_put_of_ne hk]

end Assoc

/-! ### The store only grows -/

/-- A frame has the parent and the runtime of an earlier one, and binds every name that it bound. -/
structure Frame.Extends (a b : Frame) : Prop where
  parent : b.parent = a.parent
  runtime : b.runtime = a.runtime
  bound : ∀ name, Assoc.contains name a.bindings = true → Assoc.contains name b.bindings = true

theorem Frame.Extends.refl (a : Frame) : a.Extends a := ⟨rfl, rfl, fun _ h => h⟩

theorem Frame.Extends.trans {a b c : Frame} (hab : a.Extends b) (hbc : b.Extends c) :
    a.Extends c where
  parent := hbc.parent.trans hab.parent
  runtime := hbc.runtime.trans hab.runtime
  bound name h := hbc.bound name (hab.bound name h)

/-- A runtime has the registry and limits of an earlier one, and has taken at least its steps. -/
structure Runtime.Extends (a b : Runtime) : Prop where
  registry : b.registry = a.registry
  limits : b.limits = a.limits
  steps : a.steps ≤ b.steps

theorem Runtime.Extends.refl (a : Runtime) : a.Extends a := ⟨rfl, rfl, Nat.le_refl _⟩

theorem Runtime.Extends.trans {a b c : Runtime} (hab : a.Extends b) (hbc : b.Extends c) :
    a.Extends c where
  registry := hbc.registry.trans hab.registry
  limits := hbc.limits.trans hab.limits
  steps := Nat.le_trans hab.steps hbc.steps

/-- A vector begins with the items of an earlier one. -/
def ItemsExtend (a b : Array Value) : Prop := a.toList <+: b.toList

theorem ItemsExtend.refl (a : Array Value) : ItemsExtend a a := List.prefix_rfl

namespace Store

/-- A store has become another one without losing anything. -/
structure Grows (s t : Store) : Prop where
  frames : Continues Frame.Extends s.frames t.frames
  vectors : Continues ItemsExtend s.vectors t.vectors
  runtimes : Continues Runtime.Extends s.runtimes t.runtimes
  runtimeCount : t.runtimes.size = s.runtimes.size
  identity : s.nextIdentity ≤ t.nextIdentity

namespace Grows

variable {s t u : Store}

theorem refl (s : Store) : s.Grows s where
  frames := .refl Frame.Extends.refl _
  vectors := .refl ItemsExtend.refl _
  runtimes := .refl Runtime.Extends.refl _
  runtimeCount := rfl
  identity := Nat.le_refl _

theorem trans (hst : s.Grows t) (htu : t.Grows u) : s.Grows u where
  frames := hst.frames.trans (fun _ _ _ => .trans) htu.frames
  vectors := hst.vectors.trans (fun _ _ _ => List.IsPrefix.trans) htu.vectors
  runtimes := hst.runtimes.trans (fun _ _ _ => .trans) htu.runtimes
  runtimeCount := htu.runtimeCount.trans hst.runtimeCount
  identity := Nat.le_trans hst.identity htu.identity

/-- A frame stays in its runtime. -/
theorem runtimeId? (h : s.Grows t) {f : FrameId} {i : RuntimeId} (hf : s.runtimeId? f = some i) :
    t.runtimeId? f = some i := by
  obtain ⟨frame, hframe, rfl⟩ := Option.map_eq_some_iff.1 hf
  obtain ⟨frame', hframe', hext⟩ := h.frames f frame hframe
  exact Option.map_eq_some_iff.2 ⟨frame', hframe', hext.runtime⟩

/-- Every runtime has been there, with the same registry and limits. -/
theorem runtime_of (h : s.Grows t) {i : RuntimeId} {r : Runtime} (hr : t.runtimes[i]? = some r) :
    ∃ r₀, s.runtimes[i]? = some r₀ ∧ r₀.Extends r := by
  obtain ⟨hi, -⟩ := Array.getElem?_eq_some_iff.1 hr
  -- No runtime is ever added, so there was one at this place before.
  rw [h.runtimeCount] at hi
  obtain ⟨r', hr', hext⟩ := h.runtimes i _ (Array.getElem?_eq_getElem hi)
  rw [hr] at hr'
  cases hr'
  exact ⟨_, Array.getElem?_eq_getElem hi, hext⟩

/-- A frame that may import something may go on to import the same. -/
theorem registry (h : s.Grows t) {f : FrameId} {i : RuntimeId} (hi : s.runtimeId? f = some i) :
    t.registry f = s.registry f := by
  simp only [Store.registry, Store.runtime?, hi, h.runtimeId? hi, Option.bind_some]
  cases hr : s.runtimes[i]? with
  | none =>
    have hsize := Array.getElem?_eq_none_iff.1 hr
    rw [Array.getElem?_eq_none (by rw [h.runtimeCount]; exact hsize)]
  | some r =>
    obtain ⟨r', hr', hext⟩ := h.runtimes i r hr
    rw [hr']
    exact hext.registry

theorem function? (h : s.Grows t) {f : FrameId} {name : String} {function : HostFunction}
    (hf : (s.registry f).function? name = some function) :
    (t.registry f).function? name = some function := by
  cases hi : s.runtimeId? f with
  | none =>
    rw [Store.registry, Store.runtime?, hi] at hf
    cases hf
  | some i => rwa [h.registry hi]

end Grows

theorem grows_bind (s : Store) (f : FrameId) (name : String) (v : Value) :
    s.Grows (s.bind f name v) where
  frames := .modify Frame.Extends.refl _ _ fun _ => ⟨rfl, rfl, fun _ => Assoc.contains_put⟩
  vectors := (Grows.refl s).vectors
  runtimes := (Grows.refl s).runtimes
  runtimeCount := rfl
  identity := Nat.le_refl _

theorem grows_bindAll (s : Store) (f : FrameId) (pairs : List (String × Value)) :
    s.Grows (s.bindAll f pairs) := by
  induction pairs generalizing s with
  | nil => exact .refl s
  | cons pair rest ih => exact (s.grows_bind f pair.1 pair.2).trans (ih _)

theorem grows_define (s : Store) (f : FrameId) (name : String) (v : Value) :
    s.Grows (s.define f name v) :=
  s.grows_bind _ _ _

theorem grows_addFrame (s : Store) (parent : Option FrameId) (runtime : RuntimeId) :
    s.Grows (s.addFrame parent runtime).2 where
  frames := .push Frame.Extends.refl _ _
  vectors := (Grows.refl s).vectors
  runtimes := (Grows.refl s).runtimes
  runtimeCount := rfl
  identity := Nat.le_refl _

theorem grows_addVector (s : Store) (items : List Value) : s.Grows (s.addVector items).2 where
  frames := (Grows.refl s).frames
  vectors := .push ItemsExtend.refl _ _
  runtimes := (Grows.refl s).runtimes
  runtimeCount := rfl
  identity := Nat.le_refl _

theorem grows_extendVector (s : Store) (v : VectorId) (items : List Value) :
    s.Grows (s.extendVector v items) where
  frames := (Grows.refl s).frames
  vectors := .modify ItemsExtend.refl _ _ fun _ => by simp [ItemsExtend]
  runtimes := (Grows.refl s).runtimes
  runtimeCount := rfl
  identity := Nat.le_refl _

/-- The store after an identity has been taken. -/
def freshened (s : Store) : Store := { s with nextIdentity := s.nextIdentity + 1 }

theorem grows_freshened (s : Store) : s.Grows s.freshened where
  frames := (Grows.refl s).frames
  vectors := (Grows.refl s).vectors
  runtimes := (Grows.refl s).runtimes
  runtimeCount := rfl
  identity := Nat.le_succ _

/-- A store from which identities have been taken. -/
def skipped (s : Store) (n : Nat) : Store := { s with nextIdentity := s.nextIdentity + n }

theorem skipped_skipped (s : Store) (m n : Nat) :
    (s.skipped m).skipped n = s.skipped (m + n) := by
  simp only [skipped, Nat.add_assoc]

end Store

theorem Runtime.extends_descend (r : Runtime) : r.Extends r.descend.2 := by
  unfold Runtime.descend
  split
  · exact ⟨rfl, rfl, Nat.le_refl _⟩
  · exact .refl r

theorem Runtime.extends_enter (r : Runtime) : r.Extends r.enter.2 := by
  have hstep : r.Extends { r with steps := r.steps + 1 } := ⟨rfl, rfl, Nat.le_succ _⟩
  unfold Runtime.enter
  split
  · split
    · exact hstep.trans (Runtime.extends_descend _)
    · exact .refl r
  · exact hstep.trans (Runtime.extends_descend _)

namespace Store

/-- Entering an application replaces the runtime of the frame, if there is one. -/
theorem enter_of_runtime {s : Store} {f : FrameId} {i : RuntimeId} {r : Runtime}
    (hi : s.runtimeId? f = some i) (hr : s.runtimes[i]? = some r) :
    s.enter f = (r.enter.1, { s with runtimes := s.runtimes.setIfInBounds i r.enter.2 }) := by
  simp [enter, runtime?, hi, hr]

/-- A frame without runtime is refused and leaves the store as it is. -/
theorem enter_of_no_runtime {s : Store} {f : FrameId} (h : s.runtime? f = none) :
    s.enter f = (.error (.recursionLimit 0), s) := by
  simp [enter, h]

/-- A frame has no runtime, or both the reference to one and the runtime itself. -/
theorem runtime?_cases (s : Store) (f : FrameId) :
    s.runtime? f = none ∨ ∃ i r, s.runtimeId? f = some i ∧ s.runtimes[i]? = some r := by
  cases hr : s.runtime? f with
  | none => exact Or.inl rfl
  | some r =>
    obtain ⟨i, hi, hr⟩ := Option.bind_eq_some_iff.1 hr
    exact Or.inr ⟨i, r, hi, hr⟩

theorem grows_enter (s : Store) (f : FrameId) : s.Grows (s.enter f).2 := by
  rcases s.runtime?_cases f with h | ⟨i, r, hi, hr⟩
  · rw [enter_of_no_runtime h]
    exact .refl s
  · rw [enter_of_runtime hi hr]
    exact {
      frames := (Grows.refl s).frames
      vectors := (Grows.refl s).vectors
      runtimes := .setIfInBounds Runtime.Extends.refl hr r.extends_enter
      runtimeCount := by simp
      identity := Nat.le_refl _ }

theorem grows_leave (s : Store) (f : FrameId) : s.Grows (s.leave f) := by
  unfold leave
  split
  · exact {
      frames := (Grows.refl s).frames
      vectors := (Grows.refl s).vectors
      runtimes := .modify Runtime.Extends.refl _ _ fun _ => ⟨rfl, rfl, Nat.le_refl _⟩
      runtimeCount := by simp
      identity := Nat.le_refl _ }
  · exact .refl s

/-! ### Looking up and writing along the chain -/

/-- A search from a frame finds a name in a frame of its chain. What holds of the frame, and of the
parent of every frame of which it holds, holds of the frame where the name is found. -/
theorem searchWithin_spec {s : Store} {P : FrameId → Prop}
    (hparent : ∀ f q, P f → s.parent? f = some q → P q) {name : String} {fuel : Nat}
    {f g : FrameId} {v : Value} (hf : P f) (h : s.searchWithin name fuel f = some (g, v)) :
    P g ∧ (name, v) ∈ s.bindings g := by
  -- By induction on the frames that may still be searched: the name is here, or the parent goes on.
  induction fuel generalizing f with
  | zero => cases h
  | succ fuel ih =>
    rw [searchWithin] at h
    cases hframe : s.frames[f]? with
    | none =>
      rw [hframe] at h
      cases h
    | some frame =>
      simp only [hframe] at h
      cases hfound : Assoc.find? name frame.bindings with
      | some w =>
        simp only [hfound, Option.some.injEq, Prod.mk.injEq] at h
        obtain ⟨rfl, rfl⟩ := h
        exact ⟨hf, by simpa [bindings, hframe] using Assoc.mem_of_find? hfound⟩
      | none =>
        simp only [hfound] at h
        cases hq : frame.parent with
        | none =>
          rw [hq] at h
          cases h
        | some q =>
          simp only [hq] at h
          exact ih (hparent f q hf (by simp [parent?, hframe, hq])) h

/-- The value of a name is nil or bound in a frame of the chain. -/
theorem get_spec {s : Store} {P : FrameId → Prop}
    (hparent : ∀ f q, P f → s.parent? f = some q → P q) {f : FrameId} (hf : P f) (name : String) :
    s.get f name = .nil ∨ ∃ g, P g ∧ (name, s.get f name) ∈ s.bindings g := by
  unfold get lookup?
  cases h : s.searchWithin name (f + 1) f with
  | none => exact Or.inl rfl
  | some found =>
    obtain ⟨g, v⟩ := found
    exact Or.inr ⟨g, searchWithin_spec hparent hf h⟩

/-- Defining a name binds it in a frame of the chain. -/
theorem define_spec {s : Store} {P : FrameId → Prop}
    (hparent : ∀ f q, P f → s.parent? f = some q → P q) {f : FrameId} (hf : P f) (name : String)
    (v : Value) : ∃ g, P g ∧ s.define f name v = s.bind g name v := by
  unfold define holder?
  cases h : s.searchWithin name (f + 1) f with
  | none => exact ⟨f, hf, rfl⟩
  | some found =>
    obtain ⟨g, w⟩ := found
    exact ⟨g, (searchWithin_spec hparent hf h).1, rfl⟩

/-! ### What a store holds -/

/-- A value is bound in a frame or is an item of a vector. -/
def Holds (s : Store) (v : Value) : Prop :=
  (∃ f name, (name, v) ∈ s.bindings f) ∨ ∃ i, v ∈ s.vector i

theorem bindings_bind (s : Store) (f : FrameId) (name : String) (v : Value) (g : FrameId) :
    (s.bind f name v).bindings g =
      if f = g ∧ s.frames[g]?.isSome then Assoc.put name v (s.bindings g) else s.bindings g := by
  unfold bindings bind
  simp only [Array.getElem?_modify]
  by_cases hfg : f = g
  · subst hfg
    cases s.frames[f]? <;> simp
  · simp [hfg]

/-- A name that a frame binds itself. -/
theorem lookup?_here {s : Store} {f : FrameId} {name : String} {x : Value}
    (hx : Assoc.find? name (s.bindings f) = some x) :
    s.lookup? f name = some x := by
  rw [lookup?, searchWithin]
  rw [bindings] at hx
  cases hframe : s.frames[f]? with
  | none => simp [hframe] at hx
  | some frame =>
    rw [hframe] at hx
    simp only [hx, Option.map_some]

/-- A name that a frame does not bind itself is looked up from its parent on. -/
theorem lookup?_above {s : Store} {f p : FrameId} {name : String} {frame : Frame}
    (hf : s.frames[f]? = some frame) (hnone : Assoc.find? name frame.bindings = none)
    (hp : frame.parent = some p) :
    s.lookup? f name = (s.searchWithin name f p).map Prod.snd := by
  rw [lookup?, searchWithin, hf]
  simp only [hnone, hp]

/-- A name that is bound in a frame is found there. -/
theorem lookup?_bind {s : Store} {f : FrameId} (hf : f < s.frames.size) (name : String)
    (v : Value) : (s.bind f name v).lookup? f name = some v := by
  refine lookup?_here ?_
  rw [bindings_bind, if_pos ⟨rfl, by simp [hf]⟩, Assoc.find?_put_self]

/-- A search that finds a name finds the value that the name is given there. -/
theorem searchWithin_bind {s : Store} {name : String} {fuel : Nat} {f g : FrameId} {x : Value}
    (h : s.searchWithin name fuel f = some (g, x)) (v : Value) :
    (s.bind g name v).searchWithin name fuel f = some (g, v) := by
  induction fuel generalizing f with
  | zero => cases h
  | succ fuel ih =>
    rw [searchWithin] at h ⊢
    cases hframe : s.frames[f]? with
    | none => simp [hframe] at h
    | some frame =>
      simp only [hframe] at h
      cases hfound : Assoc.find? name frame.bindings with
      | some w =>
        simp only [hfound, Option.some.injEq, Prod.mk.injEq] at h
        obtain ⟨rfl, -⟩ := h
        simp [Store.bind, Array.getElem?_modify, hframe]
      | none =>
        simp only [hfound] at h
        cases hq : frame.parent with
        | none => simp [hq] at h
        | some q =>
          simp only [hq] at h
          -- The name is found further up, so it is another frame that was written to.
          have hne : g ≠ f := by
            rintro rfl
            obtain ⟨-, hbound⟩ := searchWithin_spec (P := fun _ => True) (fun _ _ _ _ => trivial)
              trivial h
            rw [bindings, hframe] at hbound
            exact Assoc.find?_eq_none_iff.1 hfound (List.mem_map_of_mem hbound)
          have hsame : (s.bind g name v).frames[f]? = some frame := by
            simp [Store.bind, Array.getElem?_modify, hne, hframe]
          simp only [hsame, hfound, hq]
          exact ih h

/-- A name that is defined is found. -/
theorem lookup?_define {s : Store} {f : FrameId} (hf : f < s.frames.size) (name : String)
    (v : Value) : (s.define f name v).lookup? f name = some v := by
  unfold define holder?
  cases h : s.searchWithin name (f + 1) f with
  | none => exact lookup?_bind hf name v
  | some found => exact congrArg (Option.map Prod.snd) (searchWithin_bind h v)

/-- A frame binds what it bound before, and the frame that was written to the new value. -/
theorem mem_bindings_bind {s : Store} {f g : FrameId} {name : String} {v : Value}
    {pair : String × Value} (h : pair ∈ (s.bind f name v).bindings g) :
    (f = g ∧ pair = (name, v)) ∨ pair ∈ s.bindings g := by
  rw [bindings_bind] at h
  split at h
  · next hfg =>
    rcases Assoc.mem_put h with h | h
    · exact Or.inl ⟨hfg.1, h⟩
    · exact Or.inr h
  · exact Or.inr h

theorem mem_bindings_bindAll {s : Store} {f g : FrameId} {pairs : List (String × Value)}
    {pair : String × Value} (h : pair ∈ (s.bindAll f pairs).bindings g) :
    (f = g ∧ pair ∈ pairs) ∨ pair ∈ s.bindings g := by
  induction pairs generalizing s with
  | nil => exact Or.inr h
  | cons first rest ih =>
    rcases ih h with ⟨hfg, h⟩ | h
    · exact Or.inl ⟨hfg, by simp [h]⟩
    · rcases mem_bindings_bind h with ⟨hfg, rfl⟩ | h
      · exact Or.inl ⟨hfg, by simp⟩
      · exact Or.inr h

theorem vectors_bindAll (s : Store) (f : FrameId) (pairs : List (String × Value)) :
    (s.bindAll f pairs).vectors = s.vectors := by
  induction pairs generalizing s with
  | nil => rfl
  | cons pair rest ih => exact ih _

theorem bindings_addFrame (s : Store) (parent : Option FrameId) (runtime : RuntimeId)
    (g : FrameId) : (s.addFrame parent runtime).2.bindings g = s.bindings g := by
  unfold bindings addFrame
  simp only [Array.getElem?_push]
  by_cases hg : g = s.frames.size
  · subst hg
    simp
  · simp [hg]

theorem vector_addVector (s : Store) (items : List Value) (i : VectorId) :
    (s.addVector items).2.vector i = if i = s.vectors.size then items else s.vector i := by
  unfold vector addVector
  simp only [Array.getElem?_push]
  by_cases hi : i = s.vectors.size
  · simp [hi]
  · simp [hi]

theorem mem_vector_extendVector {s : Store} {v i : VectorId} {items : List Value} {w : Value}
    (h : w ∈ (s.extendVector v items).vector i) : (v = i ∧ w ∈ items) ∨ w ∈ s.vector i := by
  unfold vector extendVector at *
  simp only [Array.getElem?_modify] at h
  by_cases hi : v = i
  · subst hi
    cases hv : s.vectors[v]? with
    | none => simp [hv] at h
    | some xs =>
      simp only [hv, if_true, Option.map_some] at h
      have h : w ∈ xs ∨ w ∈ items := by simpa using h
      exact h.symm.imp (fun h => ⟨rfl, h⟩) fun h => by simpa using h
  · simp only [hi, if_false] at h
    exact Or.inr h

theorem frames_enter (s : Store) (f : FrameId) : (s.enter f).2.frames = s.frames := by
  unfold enter
  split <;> rfl

theorem vectors_enter (s : Store) (f : FrameId) : (s.enter f).2.vectors = s.vectors := by
  unfold enter
  split <;> rfl

theorem frames_leave (s : Store) (f : FrameId) : (s.leave f).frames = s.frames := by
  unfold leave
  split <;> rfl

theorem vectors_leave (s : Store) (f : FrameId) : (s.leave f).vectors = s.vectors := by
  unfold leave
  split <;> rfl

/-- What a store holds depends on its frames and vectors alone. -/
theorem Holds.congr {s t : Store} {v : Value} (h : t.Holds v) (hframes : t.frames = s.frames)
    (hvectors : t.vectors = s.vectors) : s.Holds v := by
  unfold Holds bindings vector at *
  rwa [hframes, hvectors] at h

theorem holds_bindAll {s : Store} {f : FrameId} {pairs : List (String × Value)} {v : Value}
    (h : (s.bindAll f pairs).Holds v) : s.Holds v ∨ ∃ pair ∈ pairs, v = pair.2 := by
  rcases h with ⟨g, name, h⟩ | ⟨i, h⟩
  · rcases mem_bindings_bindAll h with ⟨-, h⟩ | h
    · exact Or.inr ⟨_, h, rfl⟩
    · exact Or.inl (Or.inl ⟨g, name, h⟩)
  · rw [vector, vectors_bindAll] at h
    exact Or.inl (Or.inr ⟨i, h⟩)

theorem holds_define {s : Store} {f : FrameId} {name : String} {v w : Value}
    (h : (s.define f name v).Holds w) : s.Holds w ∨ w = v := by
  rcases h with ⟨g, name', h⟩ | h
  · rcases mem_bindings_bind h with ⟨-, h⟩ | h
    · exact Or.inr (Prod.mk.inj h).2
    · exact Or.inl (Or.inl ⟨g, name', h⟩)
  · exact Or.inl (Or.inr h)

theorem holds_addFrame {s : Store} {parent : Option FrameId} {runtime : RuntimeId} {v : Value}
    (h : (s.addFrame parent runtime).2.Holds v) : s.Holds v := by
  rcases h with ⟨g, name, h⟩ | h
  · rw [bindings_addFrame] at h
    exact Or.inl ⟨g, name, h⟩
  · exact Or.inr h

theorem holds_addVector {s : Store} {items : List Value} {v : Value}
    (h : (s.addVector items).2.Holds v) : s.Holds v ∨ v ∈ items := by
  rcases h with h | ⟨i, h⟩
  · exact Or.inl (Or.inl h)
  · rw [vector_addVector] at h
    split at h
    · exact Or.inr h
    · exact Or.inl (Or.inr ⟨i, h⟩)

theorem holds_extendVector {s : Store} {i : VectorId} {items : List Value} {v : Value}
    (h : (s.extendVector i items).Holds v) : s.Holds v ∨ v ∈ items := by
  rcases h with h | ⟨j, h⟩
  · exact Or.inl (Or.inl h)
  · rcases mem_vector_extendVector h with ⟨-, h⟩ | h
    · exact Or.inr h
    · exact Or.inl (Or.inr ⟨j, h⟩)

theorem holds_clear {s : Store} {f : FrameId} {v : Value} (h : (s.clear f).Holds v) :
    s.Holds v := by
  rcases h with ⟨g, name, h⟩ | h
  · refine Or.inl ⟨g, name, ?_⟩
    unfold bindings clear at *
    by_cases hfg : f = g
    · subst hfg
      cases hframe : s.frames[f]? <;> simp [Array.getElem?_modify, hframe] at h
    · simpa [Array.getElem?_modify, hfg] using h
  · exact Or.inr h

end Store

end ConfinedLisp
