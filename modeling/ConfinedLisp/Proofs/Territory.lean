import ConfinedLisp.Proofs.Keeping

/-!
# Territories

Frames belong to runtimes, and the frames, values and vectors of a store fall apart by runtime:
whatever a frame leads to, through its parent or through what it binds, belongs to the runtime of
the frame. Vectors do not say where they belong, so they are assigned to runtimes by the way.

Evaluation in a scope of one runtime stays in the territory of that runtime.

## Main definitions

- `Value.ref?`: the frame or the vector that a value refers to.
- `Store.Partitioned`: what is in the territory of a runtime leads only to what is there.
- `Store.ChangesOnly`: one store has become another one, and outside of a territory nothing changed.
- `Store.territory`: the realm of the values in a territory.
-/

namespace ConfinedLisp

/-- A reference into the store. -/
inductive Ref where
  | frame (f : FrameId)
  | vector (i : VectorId)

/-- What a value refers to, what occurs in it aside. -/
def Value.ref? : Value → Option Ref
  | .scope f => some (.frame f)
  | .callable (.function _ f _ _) => some (.frame f)
  | .callable (.operative _ f _) => some (.frame f)
  | .object i => some (.vector i)
  | _ => none

theorem Value.ref?_of_plain {v : Value} (h : v.IsPlain) : v.ref? = none := by
  cases v with
  | callable c =>
    cases c with
    | function | operative => exact h.elim
    | _ => rfl
  | scope | object => exact h.elim
  | _ => rfl

namespace Store

variable {s t u : Store} {owner : VectorId → RuntimeId} {r : RuntimeId}

/-- What is referred to is there and belongs to a runtime, given the owners of the vectors. -/
def Owns (s : Store) (owner : VectorId → RuntimeId) (r : RuntimeId) : Ref → Prop
  | .frame f => s.runtimeId? f = some r
  | .vector i => i < s.vectors.size ∧ owner i = r

/-- A value refers to nothing outside of a territory, what occurs in it aside. -/
def Belongs (s : Store) (owner : VectorId → RuntimeId) (r : RuntimeId) (v : Value) : Prop :=
  match v.ref? with
  | some ref => s.Owns owner r ref
  | none => True

theorem belongs_of_plain {v : Value} (h : v.IsPlain) : s.Belongs owner r v := by
  rw [Belongs, Value.ref?_of_plain h]
  trivial

/-- What a territory has leads only to what it has. -/
structure Partitioned (s : Store) (owner : VectorId → RuntimeId) : Prop where
  parent : ∀ {f p i}, s.runtimeId? f = some i → s.parent? f = some p → s.runtimeId? p = some i
  bound : ∀ {f i name v}, s.runtimeId? f = some i → (name, v) ∈ s.bindings f →
    v.All (s.Belongs owner i)
  item : ∀ {j v}, v ∈ s.vector j → v.All (s.Belongs owner (owner j))

theorem Grows.vectorCount (h : s.Grows t) : s.vectors.size ≤ t.vectors.size := by
  refine Nat.le_of_not_lt fun hlt => ?_
  obtain ⟨b, hb, -⟩ := h.vectors t.vectors.size _ (Array.getElem?_eq_getElem hlt)
  simp at hb

theorem Grows.frameCount (h : s.Grows t) : s.frames.size ≤ t.frames.size := by
  refine Nat.le_of_not_lt fun hlt => ?_
  obtain ⟨b, hb, -⟩ := h.frames t.frames.size _ (Array.getElem?_eq_getElem hlt)
  simp at hb

theorem Owns.of_grows {ref : Ref} (h : s.Owns owner r ref) (hgrows : s.Grows t) :
    t.Owns owner r ref := by
  cases ref with
  | frame f => exact hgrows.runtimeId? h
  | vector i => exact ⟨Nat.lt_of_lt_of_le h.1 hgrows.vectorCount, h.2⟩

theorem Belongs.of_grows {v : Value} (h : s.Belongs owner r v) (hgrows : s.Grows t) :
    t.Belongs owner r v := by
  unfold Belongs at *
  split
  · next ref href =>
    rw [href] at h
    exact Owns.of_grows h hgrows
  · trivial

/-! ### Staying in a territory -/

/-- One store has become another one, and outside of the territory of a runtime nothing changed. -/
structure ChangesOnly (owner : VectorId → RuntimeId) (r : RuntimeId) (s t : Store) : Prop where
  grows : s.Grows t
  frames : ∀ {f i}, s.runtimeId? f = some i → i ≠ r → t.frames[f]? = s.frames[f]?
  vectors : ∀ {j}, j < s.vectors.size → owner j ≠ r → t.vectors[j]? = s.vectors[j]?
  runtimes : ∀ {i}, i ≠ r → t.runtimes[i]? = s.runtimes[i]?

namespace ChangesOnly

theorem refl (s : Store) : ChangesOnly owner r s s where
  grows := .refl s
  frames _ _ := rfl
  vectors _ _ := rfl
  runtimes _ := rfl

theorem trans (hst : ChangesOnly owner r s t) (htu : ChangesOnly owner r t u) :
    ChangesOnly owner r s u where
  grows := hst.grows.trans htu.grows
  frames hf hi := (htu.frames (hst.grows.runtimeId? hf) hi).trans (hst.frames hf hi)
  vectors hj ho :=
    (htu.vectors (Nat.lt_of_lt_of_le hj hst.grows.vectorCount) ho).trans (hst.vectors hj ho)
  runtimes hi := (htu.runtimes hi).trans (hst.runtimes hi)

end ChangesOnly

/-- A partition stays one if what is new stays in its territory. -/
theorem Partitioned.of_grows (h : s.Partitioned owner) (hgrows : s.Grows t)
    (hparent : ∀ {f p i}, t.runtimeId? f = some i → t.parent? f = some p →
      (s.runtimeId? f = some i ∧ s.parent? f = some p) ∨ s.runtimeId? p = some i)
    (hbound : ∀ {f i name v}, t.runtimeId? f = some i → (name, v) ∈ t.bindings f →
      (s.runtimeId? f = some i ∧ (name, v) ∈ s.bindings f) ∨ v.All (s.Belongs owner i))
    (hitem : ∀ {j v}, v ∈ t.vector j → v ∈ s.vector j ∨ v.All (s.Belongs owner (owner j))) :
    t.Partitioned owner where
  parent hf hp := by
    rcases hparent hf hp with ⟨hf, hp⟩ | hp
    · exact hgrows.runtimeId? (h.parent hf hp)
    · exact hgrows.runtimeId? hp
  bound hf hv := by
    rcases hbound hf hv with ⟨hf, hv⟩ | hv
    · exact (h.bound hf hv).mono fun _ hpart => hpart.of_grows hgrows
    · exact hv.mono fun _ hpart => hpart.of_grows hgrows
  item hv := by
    rcases hitem hv with hv | hv
    · exact (h.item hv).mono fun _ hpart => hpart.of_grows hgrows
    · exact hv.mono fun _ hpart => hpart.of_grows hgrows

/-- A partition is a matter of frames and vectors alone. -/
theorem Partitioned.congr (h : s.Partitioned owner) (hframes : t.frames = s.frames)
    (hvectors : t.vectors = s.vectors) : t.Partitioned owner := by
  obtain ⟨frames, runtimes, vectors, nextIdentity⟩ := t
  cases hframes
  cases hvectors
  exact ⟨h.parent, h.bound, h.item⟩

/-- Who owns the vectors that are not there does not matter. -/
theorem Partitioned.reassign {owner' : VectorId → RuntimeId} (h : s.Partitioned owner)
    (ho : ∀ i, i < s.vectors.size → owner' i = owner i) : s.Partitioned owner' := by
  have hbelongs : ∀ {i : RuntimeId} {v : Value}, s.Belongs owner i v → s.Belongs owner' i v := by
    intro i v hv
    unfold Belongs at *
    split
    · next ref href =>
      rw [href] at hv
      cases ref with
      | frame f => exact hv
      | vector j => exact ⟨hv.1, (ho j hv.1).trans hv.2⟩
    · trivial
  refine ⟨h.parent, fun hf hv => (h.bound hf hv).mono fun _ => hbelongs, fun {j v} hv => ?_⟩
  -- A vector that has an item is there.
  have hj : j < s.vectors.size := by
    refine Nat.lt_of_not_le fun hle => ?_
    rw [vector, Array.getElem?_eq_none hle] at hv
    cases hv
  rw [ho j hj]
  exact (h.item hv).mono fun _ => hbelongs

theorem frames_bindAll_of_ne {f g : FrameId} (hfg : f ≠ g) (pairs : List (String × Value)) :
    (s.bindAll f pairs).frames[g]? = s.frames[g]? := by
  induction pairs generalizing s with
  | nil => rfl
  | cons pair rest ih =>
    refine ih.trans ?_
    simp [bind, Array.getElem?_modify, hfg]

theorem shape_bindAll (s : Store) (f g : FrameId) (pairs : List (String × Value)) :
    (s.bindAll f pairs).runtimeId? g = s.runtimeId? g ∧
      (s.bindAll f pairs).parent? g = s.parent? g := by
  induction pairs generalizing s with
  | nil => exact ⟨rfl, rfl⟩
  | cons pair rest ih =>
    obtain ⟨hruntime, hparent⟩ := ih (s.bind f pair.1 pair.2)
    refine ⟨hruntime.trans ?_, hparent.trans ?_⟩
    · simp only [runtimeId?, bind, Array.getElem?_modify]
      split
      · cases s.frames[g]? <;> rfl
      · rfl
    · simp only [parent?, bind, Array.getElem?_modify]
      split
      · cases s.frames[g]? <;> rfl
      · rfl

theorem frames_addFrame (s : Store) (parent : Option FrameId) (r : RuntimeId) (f : FrameId) :
    (s.addFrame parent r).2.frames[f]? =
      if f = s.frames.size then some ⟨[], parent, r⟩ else s.frames[f]? :=
  Array.getElem?_push

section Steps

variable (hs : s.Partitioned owner)

include hs

theorem Partitioned.bindAll {f : FrameId} {pairs : List (String × Value)}
    (hf : s.runtimeId? f = some r) (hpairs : ∀ pair ∈ pairs, pair.2.All (s.Belongs owner r)) :
    (s.bindAll f pairs).Partitioned owner := by
  refine hs.of_grows (s.grows_bindAll f pairs) ?_ ?_ ?_
  · intro g p i hg hp
    obtain ⟨hruntime, hparent⟩ := s.shape_bindAll f g pairs
    exact Or.inl ⟨hruntime ▸ hg, hparent ▸ hp⟩
  · intro g i name v hg hv
    rw [(s.shape_bindAll f g pairs).1] at hg
    rcases mem_bindings_bindAll hv with ⟨rfl, hnew⟩ | hold
    · obtain rfl := Option.some.inj (hf.symm.trans hg)
      exact Or.inr (hpairs (name, v) hnew)
    · exact Or.inl ⟨hg, hold⟩
  · intro j v hv
    rw [vector, vectors_bindAll] at hv
    exact Or.inl hv

theorem Partitioned.addFrame {parent : Option FrameId}
    (hparent : ∀ p, parent = some p → s.runtimeId? p = some r) :
    (s.addFrame parent r).2.Partitioned owner := by
  -- The new frame has its parent in its own runtime, and binds nothing yet.
  refine hs.of_grows (s.grows_addFrame parent r) ?_ ?_ fun hv => Or.inl hv
  · intro f p i hf hp
    rw [runtimeId?, frames_addFrame] at hf
    rw [parent?, frames_addFrame] at hp
    split at hf
    · next hnew =>
      rw [if_pos hnew] at hp
      cases hf
      exact Or.inr (hparent p hp)
    · next hold =>
      rw [if_neg hold] at hp
      exact Or.inl ⟨hf, hp⟩
  · intro f i name v hf hv
    rw [bindings, frames_addFrame] at hv
    rw [runtimeId?, frames_addFrame] at hf
    split at hf
    · next hnew =>
      rw [if_pos hnew] at hv
      cases hv
    · next hold =>
      rw [if_neg hold] at hv
      exact Or.inl ⟨hf, hv⟩

theorem Partitioned.addVector {items : List Value} (ho : owner s.vectors.size = r)
    (hitems : ∀ v ∈ items, v.All (s.Belongs owner r)) :
    (s.addVector items).2.Partitioned owner := by
  refine hs.of_grows (s.grows_addVector items) (fun hf hp => Or.inl ⟨hf, hp⟩)
    (fun hf hv => Or.inl ⟨hf, hv⟩) ?_
  intro j v hv
  rw [vector_addVector] at hv
  split at hv
  · next hj =>
    rw [hj, ho]
    exact Or.inr (hitems v hv)
  · exact Or.inl hv

theorem Partitioned.extendVector {i : VectorId} {items : List Value} (ho : owner i = r)
    (hitems : ∀ v ∈ items, v.All (s.Belongs owner r)) :
    (s.extendVector i items).Partitioned owner := by
  refine hs.of_grows (s.grows_extendVector i items) (fun hf hp => Or.inl ⟨hf, hp⟩)
    (fun hf hv => Or.inl ⟨hf, hv⟩) ?_
  intro j v hv
  rcases mem_vector_extendVector hv with ⟨rfl, hnew⟩ | hold
  · rw [ho]
    exact Or.inr (hitems v hnew)
  · exact Or.inl hold

end Steps

/-! ### What each step changes -/

namespace ChangesOnly

theorem freshened (s : Store) : ChangesOnly owner r s s.freshened where
  grows := s.grows_freshened
  frames _ _ := rfl
  vectors _ _ := rfl
  runtimes _ := rfl

theorem bindAll {f : FrameId} (hf : s.runtimeId? f = some r) (pairs : List (String × Value)) :
    ChangesOnly owner r s (s.bindAll f pairs) where
  grows := s.grows_bindAll f pairs
  frames hg hi := by
    refine frames_bindAll_of_ne ?_ pairs
    rintro rfl
    exact hi (Option.some.inj (hg.symm.trans hf))
  vectors _ _ := by rw [vectors_bindAll]
  runtimes _ := by rw [show (s.bindAll f pairs).runtimes = s.runtimes from
    (Unbudgeted.bindAll f pairs).runtimes s]

theorem addFrame (s : Store) (parent : Option FrameId) (runtime : RuntimeId) :
    ChangesOnly owner r s (s.addFrame parent runtime).2 where
  grows := s.grows_addFrame parent runtime
  frames := by
    intro f i hf _
    obtain ⟨frame, hframe, -⟩ := Option.map_eq_some_iff.1 hf
    obtain ⟨hlt, -⟩ := Array.getElem?_eq_some_iff.1 hframe
    rw [frames_addFrame, if_neg (Nat.ne_of_lt hlt)]
  vectors _ _ := rfl
  runtimes _ := rfl

theorem addVector (s : Store) (items : List Value) :
    ChangesOnly owner r s (s.addVector items).2 where
  grows := s.grows_addVector items
  frames _ _ := rfl
  vectors := by
    intro j hj _
    simp [Store.addVector, Array.getElem?_push, Nat.ne_of_lt hj]
  runtimes _ := rfl

theorem extendVector {i : VectorId} (ho : owner i = r) (items : List Value) :
    ChangesOnly owner r s (s.extendVector i items) where
  grows := s.grows_extendVector i items
  frames _ _ := rfl
  vectors := by
    intro j _ hj
    have hij : i ≠ j := fun h => hj (h ▸ ho)
    simp [Store.extendVector, Array.getElem?_modify, hij]
  runtimes _ := rfl

theorem enter {f : FrameId} (hf : s.runtimeId? f = some r) :
    ChangesOnly owner r s (s.enter f).2 where
  grows := s.grows_enter f
  frames _ _ := by rw [frames_enter]
  vectors _ _ := by rw [vectors_enter]
  runtimes := by
    intro i hi
    rcases s.runtime?_cases f with hnone | ⟨j, runtime, hj, hruntime⟩
    · rw [enter_of_no_runtime hnone]
    · obtain rfl := Option.some.inj (hf.symm.trans hj)
      rw [enter_of_runtime hj hruntime]
      simp [Ne.symm hi]

theorem leave {f : FrameId} (hf : s.runtimeId? f = some r) :
    ChangesOnly owner r s (s.leave f) where
  grows := s.grows_leave f
  frames _ _ := by rw [frames_leave]
  vectors _ _ := by rw [vectors_leave]
  runtimes := by
    intro i hi
    simp [Store.leave, hf, Array.getElem?_modify, Ne.symm hi]

end ChangesOnly

/-! ### The realm of a territory -/

/-- The stores in which the territory of a runtime is closed, and in which new vectors go to it. -/
structure Territory (owner : VectorId → RuntimeId) (r : RuntimeId) where
  store : Store
  partitioned : store.Partitioned owner
  owns : ∀ i, store.vectors.size ≤ i → owner i = r

/-- Where a step leads. -/
def Territory.next (w : Territory owner r) (hchanges : ChangesOnly owner r w.store t)
    (hpartitioned : t.Partitioned owner) : Territory owner r where
  store := t
  partitioned := hpartitioned
  owns i hi := w.owns i (Nat.le_trans hchanges.grows.vectorCount hi)

/-- A new frame in the runtime of a scope, under a parent in it or under none. -/
theorem Territory.newFrame (w : Territory owner r) {f : FrameId}
    (hf : w.store.runtimeId? f = some r) {parent : Option FrameId}
    (hparent : ∀ p, parent = some p → w.store.runtimeId? p = some r) :
    ∃ w' : Territory owner r, ChangesOnly owner r w.store w'.store ∧
      w'.store = (w.store.addFrame parent ((w.store.runtimeId? f).getD 0)).2 ∧
      w'.store.runtimeId? w.store.frames.size = some r := by
  rw [hf, Option.getD_some]
  refine ⟨w.next (.addFrame _ parent r) (w.partitioned.addFrame hparent), .addFrame _ parent r,
    rfl, ?_⟩
  simp [Territory.next, runtimeId?, frames_addFrame]

/-- The realm of the values in the territory of a runtime. -/
def territory (owner : VectorId → RuntimeId) (r : RuntimeId) : Realm (Territory owner r) where
  store := Territory.store
  later w w' := ChangesOnly owner r w.store w'.store
  later_refl w := .refl w.store
  later_trans h h' := h.trans h'
  grows h := h.grows
  part w := w.store.Belongs owner r
  part_later h hv := hv.of_grows h.grows
  part_plain _ _ := belongs_of_plain
  scope w f := w.store.runtimeId? f = some r
  part_scope := Iff.rfl
  captured w f := w.store.runtimeId? f = some r
  captured_of_scope h := h
  part_function := Iff.rfl
  part_operative := Iff.rfl
  runs _ _ := True
  runs_foreign _ := trivial
  runs_constructor _ _ := trivial
  part_foreign _ _ _ := trivial
  part_constructor _ _ _ := trivial
  part_static _ _ _ _ := trivial
  get := by
    intro w f name hf
    rcases get_spec (P := fun g => w.store.runtimeId? g = some r)
      (fun g p hg hp => w.partitioned.parent hg hp) hf name with hnil | ⟨g, hg, hv⟩
    · rw [hnil]
      exact Value.all_of_plain (fun _ => belongs_of_plain) trivial trivial
    · exact w.partitioned.bound hg hv
  fresh := fun {w} _ _ =>
    have hpartitioned := w.partitioned.congr (t := w.store.freshened) rfl rfl
    ⟨w.next (.freshened _) hpartitioned, .freshened _, rfl, trivial⟩
  bindAll := fun {w _ pairs} hf hpairs =>
    ⟨w.next (.bindAll hf pairs) (w.partitioned.bindAll hf hpairs), .bindAll hf pairs, rfl⟩
  define := by
    intro w f v name hf hv
    -- The frame that is written to is on the chain of the scope, so in the same runtime.
    obtain ⟨g, hg, hdefine⟩ := define_spec (P := fun g => w.store.runtimeId? g = some r)
      (fun g p hg hp => w.partitioned.parent hg hp) hf name v
    have hpairs : ∀ pair ∈ [(name, v)], pair.2.All (w.store.Belongs owner r) := fun pair hpair => by
      obtain rfl := List.mem_singleton.1 hpair
      exact hv
    rw [hdefine]
    exact ⟨w.next (.bindAll hg [(name, v)]) (w.partitioned.bindAll hg hpairs), .bindAll hg _, rfl⟩
  child := fun {w _} hf => w.newFrame hf fun _ hp => Option.some.inj hp ▸ hf
  detached := fun {w _} hf => w.newFrame hf fun _ hp => by cases hp
  vector := by
    intro w items _ hitems
    have ho := w.owns w.store.vectors.size (Nat.le_refl _)
    refine ⟨w.next (.addVector _ items) (w.partitioned.addVector ho hitems), .addVector _ items,
      rfl, ?_, ho⟩
    simp [Territory.next, addVector]
  extend := fun {w _ items} hi hitems =>
    ⟨w.next (.extendVector hi.2 items) (w.partitioned.extendVector hi.2 hitems),
      .extendVector hi.2 items, rfl⟩
  items := by
    intro w i x hi hx
    have hall := w.partitioned.item hx
    rwa [hi.2] at hall
  enter := fun {w f} hf =>
    have hpartitioned := w.partitioned.congr (frames_enter _ f) (vectors_enter _ f)
    ⟨w.next (.enter hf) hpartitioned, .enter hf, rfl⟩
  leave := fun {w f} hf =>
    have hpartitioned := w.partitioned.congr (frames_leave _ f) (vectors_leave _ f)
    ⟨w.next (.leave hf) hpartitioned, .leave hf, rfl⟩

end Store

end ConfinedLisp
