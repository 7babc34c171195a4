import ConfinedLisp.Proofs.StoreHistory

/-!
# Assignment

Frames form a forest and are shared, so an assignment made in one scope is seen from others. Defining a
name writes one binding: in the nearest frame of the scope's chain that has the name, or in the scope
itself. A scope sees the new value exactly if its chain comes to that frame before any other one that
has the name. All other names, scopes and frames are as before.

## Main definitions

- `Store.Climbs`: the way from a scope up to a frame of its chain.
- `Store.Sees`: the frames on the way do not have the name.
- `Store.Receives`: the frame to which an assignment goes.

## Main results

- `Store.Rooted.lookup?_eq_some_iff`: looking up a name along the chain.
- `Store.Rooted.receives_iff`: the frame to which an assignment goes is the one that is written.
- `Store.Rooted.define_writes_one_binding`: what an assignment does to every scope and every frame.
-/

namespace ConfinedLisp

namespace Store

variable {s : Store} {f g t : FrameId} {name : String} {v w : Value} {nearer : List FrameId}

/-! ### Along the chain -/

/-- The way from a scope up to a frame of its chain: the frames before that frame, the nearest first. -/
inductive Climbs (s : Store) : FrameId → List FrameId → FrameId → Prop where
  | here {f : FrameId} : f < s.frames.size → Climbs s f [] f
  | up {f p g : FrameId} {nearer : List FrameId} :
      s.parent? f = some p → Climbs s p nearer g → Climbs s f (f :: nearer) g

/-- A frame is on the chain of a scope, and no frame that is nearer to the scope binds the name. -/
def Sees (s : Store) (t g : FrameId) (name : String) : Prop :=
  ∃ nearer, s.Climbs t nearer g ∧ ∀ h ∈ nearer, s.localValue? h name = none

/-- The frame to which an assignment goes: the nearest one of the chain that binds the name, or the
scope itself if none does. -/
def Receives (s : Store) (f : FrameId) (name : String) (g : FrameId) : Prop :=
  s.Sees f g name ∧ s.localValue? g name ≠ none ∨
    g = f ∧ ∀ h nearer, s.Climbs f nearer h → s.localValue? h name = none

theorem frame_of_parent? {p : FrameId} (h : s.parent? f = some p) :
    ∃ frame, s.frames[f]? = some frame ∧ frame.parent = some p :=
  Option.bind_eq_some_iff.1 h

namespace Climbs

theorem congr {u : Store} (h : s.Climbs t nearer g) (hsize : u.frames.size = s.frames.size)
    (hparent : ∀ f, u.parent? f = s.parent? f) : u.Climbs t nearer g := by
  induction h with
  | here hlt => exact .here (hsize ▸ hlt)
  | up hp _ ih => exact .up ((hparent _).trans hp) ih

/-- The way goes to ever smaller references. -/
theorem lt_of_mem (h : s.Climbs t nearer g) (hs : s.Rooted) : g ≤ t ∧ ∀ f ∈ nearer, g < f := by
  induction h with
  | here => exact ⟨Nat.le_refl _, fun f hf => by cases hf⟩
  | @up f p g nearer hp _ ih =>
    obtain ⟨hle, hlt⟩ := ih
    have hgf : g < f := Nat.lt_of_le_of_lt hle (hs f p hp)
    refine ⟨Nat.le_of_lt hgf, fun h hh => ?_⟩
    rcases List.mem_cons.1 hh with rfl | hh
    · exact hgf
    · exact hlt h hh

theorem target_lt (h : s.Climbs t nearer g) : g < s.frames.size := by
  induction h with
  | here hlt => exact hlt
  | up _ _ ih => exact ih

/-- Every frame on the way is on the chain itself, a part of the way up. -/
theorem exists_of_mem (h : s.Climbs t nearer g) (hf : f ∈ nearer) :
    ∃ nearest, s.Climbs t nearest f ∧ nearest ⊆ nearer := by
  induction h with
  | here => cases hf
  | @up t p g nearer hp _ ih =>
    rcases List.mem_cons.1 hf with rfl | hf
    · obtain ⟨frame, hframe, -⟩ := frame_of_parent? hp
      exact ⟨[], .here (Array.getElem?_eq_some_iff.1 hframe).1, List.nil_subset _⟩
    · obtain ⟨nearest, hclimbs, hsubset⟩ := ih hf
      exact ⟨t :: nearest, .up hp hclimbs, List.cons_subset_cons t hsubset⟩

/-- If a frame of the chain binds a name, the scope sees one that does. -/
theorem exists_sees (h : s.Climbs t nearer g) (hbound : s.localValue? g name ≠ none) :
    ∃ k, s.Sees t k name ∧ s.localValue? k name ≠ none := by
  induction h with
  | here hlt => exact ⟨_, ⟨[], .here hlt, fun h hh => by cases hh⟩, hbound⟩
  | @up t p g nearer hp _ ih =>
    by_cases hhere : s.localValue? t name = none
    · obtain ⟨k, ⟨nearer, hclimbs, hfree⟩, hbound⟩ := ih hbound
      refine ⟨k, ⟨t :: nearer, .up hp hclimbs, fun h hh => ?_⟩, hbound⟩
      rcases List.mem_cons.1 hh with rfl | hh
      · exact hhere
      · exact hfree h hh
    · obtain ⟨frame, hframe, -⟩ := frame_of_parent? hp
      have hlt := (Array.getElem?_eq_some_iff.1 hframe).1
      exact ⟨t, ⟨[], .here hlt, fun h hh => by cases hh⟩, hhere⟩

end Climbs

/-- A search finds a name in a frame that the scope sees. -/
theorem sees_of_searchWithin {fuel : Nat} (h : s.searchWithin name fuel f = some (g, v)) :
    s.Sees f g name ∧ s.localValue? g name = some v := by
  induction fuel generalizing f with
  | zero => cases h
  | succ fuel ih =>
    rw [searchWithin] at h
    cases hframe : s.frames[f]? with
    | none =>
      rw [hframe] at h
      cases h
    | some frame =>
      have hlocal : s.localValue? f name = Assoc.find? name frame.bindings := by
        rw [localValue?, bindings, hframe]
      simp only [hframe] at h
      cases hfound : Assoc.find? name frame.bindings with
      | some x =>
        simp only [hfound, Option.some.injEq, Prod.mk.injEq] at h
        obtain ⟨rfl, rfl⟩ := h
        have hlt := (Array.getElem?_eq_some_iff.1 hframe).1
        exact ⟨⟨[], .here hlt, fun h hh => by cases hh⟩, hlocal.trans hfound⟩
      | none =>
        simp only [hfound] at h
        cases hp : frame.parent with
        | none =>
          rw [hp] at h
          cases h
        | some p =>
          simp only [hp] at h
          obtain ⟨⟨nearer, hclimbs, hfree⟩, hvalue⟩ := ih h
          refine ⟨⟨f :: nearer, .up (by simp [parent?, hframe, hp]) hclimbs, ?_⟩, hvalue⟩
          intro h hh
          rcases List.mem_cons.1 hh with rfl | hh
          · exact hlocal.trans hfound
          · exact hfree h hh

namespace Rooted

/-- A search that may go all the way finds the name in the frame that the scope sees. -/
theorem searchWithin_of_climbs (hs : s.Rooted) (h : s.Climbs f nearer g)
    (hfree : ∀ h ∈ nearer, s.localValue? h name = none) (hvalue : s.localValue? g name = some v)
    {fuel : Nat} (hfuel : f < fuel) : s.searchWithin name fuel f = some (g, v) := by
  induction h generalizing fuel with
  | @here f hlt =>
    obtain ⟨fuel, rfl⟩ := Nat.exists_eq_add_one_of_ne_zero (Nat.ne_zero_of_lt hfuel)
    have hframe : s.frames[f]? = some s.frames[f] := Array.getElem?_eq_getElem hlt
    rw [localValue?, bindings, hframe] at hvalue
    simp only [searchWithin, hframe, hvalue]
  | @up f p g nearer hp _ ih =>
    obtain ⟨fuel, rfl⟩ := Nat.exists_eq_add_one_of_ne_zero (Nat.ne_zero_of_lt hfuel)
    obtain ⟨frame, hframe, hparent⟩ := frame_of_parent? hp
    have hhere : Assoc.find? name frame.bindings = none := by
      have := hfree f (by simp)
      rwa [localValue?, bindings, hframe] at this
    simp only [searchWithin, hframe, hhere, hparent]
    have hpf : p < fuel := Nat.lt_of_lt_of_le (hs f p hp) (Nat.le_of_lt_succ hfuel)
    exact ih (fun h hh => hfree h (List.mem_cons_of_mem _ hh)) hvalue hpf

theorem searchWithin_eq_some_iff (hs : s.Rooted) :
    s.searchWithin name (f + 1) f = some (g, v) ↔ s.Sees f g name ∧ s.localValue? g name = some v :=
  ⟨sees_of_searchWithin, fun ⟨⟨_, hclimbs, hfree⟩, hvalue⟩ =>
    hs.searchWithin_of_climbs hclimbs hfree hvalue (Nat.lt_succ_self f)⟩

/-- The value of a name is that in the nearest frame of the chain that has it. -/
theorem lookup?_eq_some_iff (hs : s.Rooted) :
    s.lookup? f name = some v ↔ ∃ g, s.Sees f g name ∧ s.localValue? g name = some v := by
  rw [lookup?, Option.map_eq_some_iff]
  constructor
  · rintro ⟨⟨g, w⟩, hfound, rfl⟩
    exact ⟨g, hs.searchWithin_eq_some_iff.1 hfound⟩
  · rintro ⟨g, hg⟩
    exact ⟨(g, v), hs.searchWithin_eq_some_iff.2 hg, rfl⟩

/-- An assignment goes to the holder of the name, or to the scope itself. -/
theorem receives_iff (hs : s.Rooted) : s.Receives f name g ↔ g = (s.holder? f name).getD f := by
  rw [holder?]
  cases hfound : s.searchWithin name (f + 1) f with
  | none =>
    have hnowhere : ∀ h, s.Sees f h name → s.localValue? h name = none := by
      intro h hsees
      cases hvalue : s.localValue? h name with
      | none => rfl
      | some v =>
        rw [hs.searchWithin_eq_some_iff.2 ⟨hsees, hvalue⟩] at hfound
        cases hfound
    constructor
    · rintro (⟨hsees, hbound⟩ | ⟨rfl, -⟩)
      · exact absurd (hnowhere g hsees) hbound
      · rfl
    · rintro rfl
      refine Or.inr ⟨rfl, fun h nearer hclimbs => ?_⟩
      by_cases hbound : s.localValue? h name = none
      · exact hbound
      · obtain ⟨k, hsees, hbound⟩ := hclimbs.exists_sees hbound
        exact absurd (hnowhere k hsees) hbound
  | some found =>
    obtain ⟨h, v⟩ := found
    obtain ⟨hsees, hvalue⟩ := hs.searchWithin_eq_some_iff.1 hfound
    constructor
    · rintro (⟨hsees', hbound⟩ | ⟨-, hnowhere⟩)
      · obtain ⟨w, hw⟩ := Option.ne_none_iff_exists.1 hbound
        rw [hs.searchWithin_eq_some_iff.2 ⟨hsees', hw.symm⟩] at hfound
        cases hfound
        rfl
      · obtain ⟨nearer, hclimbs, -⟩ := hsees
        rw [hnowhere h nearer hclimbs] at hvalue
        cases hvalue
    · rintro rfl
      exact Or.inl ⟨hsees, Option.ne_none_iff_exists.2 ⟨v, hvalue.symm⟩⟩

end Rooted

/-! ### Writing one binding -/

theorem parent?_bind (s : Store) (g : FrameId) (name : String) (v : Value) (f : FrameId) :
    (s.bind g name v).parent? f = s.parent? f :=
  (s.shape_bindAll g f [(name, v)]).2

theorem Rooted.bind (hs : s.Rooted) (g : FrameId) (name : String) (v : Value) :
    (s.bind g name v).Rooted :=
  hs.bindAll g [(name, v)]

/-- One binding of one frame is new. -/
theorem localValue?_bind (hg : g < s.frames.size) (name m : String) (v : Value) (f : FrameId) :
    (s.bind g name v).localValue? f m = if g = f ∧ name = m then some v else s.localValue? f m := by
  rw [localValue?, bindings_bind]
  by_cases hgf : g = f
  · subst hgf
    rw [if_pos ⟨rfl, by simp [hg]⟩]
    by_cases hm : name = m
    · subst hm
      rw [Assoc.find?_put_self, if_pos ⟨rfl, rfl⟩]
    · rw [Assoc.find?_put_of_ne (Ne.symm hm), if_neg fun h => hm h.2, localValue?]
  · rw [if_neg fun h => hgf h.1, if_neg fun h => hgf h.1, localValue?]

theorem climbs_bind_iff : (s.bind g name v).Climbs t nearer f ↔ s.Climbs t nearer f := by
  have hsize : (s.bind g name v).frames.size = s.frames.size := by simp [Store.bind]
  exact ⟨fun h => h.congr hsize.symm fun f => (parent?_bind s g name v f).symm,
    fun h => h.congr hsize fun f => parent?_bind s g name v f⟩

/-- Another name is looked up as before. -/
theorem Rooted.lookup?_bind_of_ne (hs : s.Rooted) (hg : g < s.frames.size) {m : String}
    (hm : m ≠ name) (v : Value) (t : FrameId) : (s.bind g name v).lookup? t m = s.lookup? t m := by
  have hlocal : ∀ f, (s.bind g name v).localValue? f m = s.localValue? f m := fun f => by
    rw [localValue?_bind hg, if_neg fun h => hm h.2.symm]
  apply Option.ext
  intro w
  simp only [(hs.bind g name v).lookup?_eq_some_iff, hs.lookup?_eq_some_iff, Sees, climbs_bind_iff,
    hlocal]

/-- Once a name is written in a frame, a way that is free of the name is one that is free of the frame,
too. -/
theorem sees_bind_iff (hg : g < s.frames.size) :
    (s.bind g name v).Sees t f name ↔
      ∃ nearer, s.Climbs t nearer f ∧ g ∉ nearer ∧ ∀ h ∈ nearer, s.localValue? h name = none := by
  have hfree : ∀ h, (s.bind g name v).localValue? h name = none ↔
      g ≠ h ∧ s.localValue? h name = none := by
    intro h
    rw [localValue?_bind hg]
    by_cases hgh : g = h
    · simp [hgh]
    · simp [hgh]
  simp only [Sees, climbs_bind_iff, hfree]
  constructor
  · rintro ⟨nearer, hclimbs, hnearer⟩
    exact ⟨nearer, hclimbs, fun hmem => (hnearer g hmem).1 rfl, fun h hh => (hnearer h hh).2⟩
  · rintro ⟨nearer, hclimbs, hnot, hnearer⟩
    exact ⟨nearer, hclimbs, fun h hh => ⟨fun hgh => hnot (hgh ▸ hh), hnearer h hh⟩⟩

/-- A scope that sees the frame sees the new value there. -/
theorem Rooted.lookup?_bind_of_sees (hs : s.Rooted) (h : s.Sees t g name) (v : Value) :
    (s.bind g name v).lookup? t name = some v := by
  obtain ⟨nearer, hclimbs, hfree⟩ := h
  have hg := hclimbs.target_lt
  have hnot : g ∉ nearer := fun hmem => Nat.lt_irrefl g ((hclimbs.lt_of_mem hs).2 g hmem)
  rw [(hs.bind g name v).lookup?_eq_some_iff]
  refine ⟨g, (sees_bind_iff hg).2 ⟨nearer, hclimbs, hnot, hfree⟩, ?_⟩
  rw [localValue?_bind hg, if_pos ⟨rfl, rfl⟩]

/-- A scope that does not see the frame finds what it found before. -/
theorem Rooted.lookup?_bind_of_not_sees (hs : s.Rooted) (hg : g < s.frames.size)
    (h : ¬ s.Sees t g name) (v : Value) : (s.bind g name v).lookup? t name = s.lookup? t name := by
  have hlocal : ∀ k, s.Sees t k name → (s.bind g name v).localValue? k name = s.localValue? k name := by
    intro k hk
    have hgk : g ≠ k := by
      rintro rfl
      exact h hk
    rw [localValue?_bind hg, if_neg fun hsame => hgk hsame.1]
  apply Option.ext
  intro w
  rw [(hs.bind g name v).lookup?_eq_some_iff, hs.lookup?_eq_some_iff]
  constructor
  · rintro ⟨k, hsees, hvalue⟩
    obtain ⟨nearer, hclimbs, -, hfree⟩ := (sees_bind_iff hg).1 hsees
    have hk : s.Sees t k name := ⟨nearer, hclimbs, hfree⟩
    exact ⟨k, hk, (hlocal k hk).symm.trans hvalue⟩
  · rintro ⟨k, ⟨nearer, hclimbs, hfree⟩, hvalue⟩
    have hk : s.Sees t k name := ⟨nearer, hclimbs, hfree⟩
    -- The frame is not on the way: the scope would see it there.
    have hnot : g ∉ nearer := by
      intro hmem
      obtain ⟨nearest, hnearest, hsubset⟩ := hclimbs.exists_of_mem hmem
      exact h ⟨nearest, hnearest, fun f hf => hfree f (hsubset hf)⟩
    exact ⟨k, (sees_bind_iff hg).2 ⟨nearer, hclimbs, hnot, hfree⟩, (hlocal k hk).trans hvalue⟩

theorem Receives.sees (h : s.Receives f name g) (hf : f < s.frames.size) : s.Sees f g name := by
  rcases h with ⟨hsees, -⟩ | ⟨rfl, -⟩
  · exact hsees
  · exact ⟨[], .here hf, fun h hh => by cases hh⟩

/-- Defining a name writes exactly one binding. It goes to one frame: the nearest one of the scope's
chain that has the name, or the scope itself. The scope now finds the new value, and so does every scope
that comes to this frame before any other one with the name. Every other scope, and every scope for
every other name, finds what it found before. No other frame changes, nor does anything else. -/
theorem Rooted.define_writes_one_binding (hs : s.Rooted) (hf : f < s.frames.size) (name : String)
    (v : Value) :
    (∃ g, s.Receives f name g) ∧ ∀ g, s.Receives f name g →
      (s.define f name v).lookup? f name = some v ∧
      (∀ t, s.Sees t g name → (s.define f name v).lookup? t name = some v) ∧
      (∀ t, ¬ s.Sees t g name → (s.define f name v).lookup? t name = s.lookup? t name) ∧
      (∀ m t, m ≠ name → (s.define f name v).lookup? t m = s.lookup? t m) ∧
      (∀ h, h ≠ g → (s.define f name v).frames[h]? = s.frames[h]?) ∧
      (s.define f name v).frames[g]? = s.frames[g]?.map (fun frame =>
        { frame with bindings := Assoc.put name v frame.bindings }) ∧
      (s.define f name v).runtimes = s.runtimes ∧ (s.define f name v).vectors = s.vectors ∧
      (s.define f name v).nextIdentity = s.nextIdentity := by
  refine ⟨⟨_, hs.receives_iff.2 rfl⟩, fun g hg => ?_⟩
  have hsees := hg.sees hf
  have hlt : g < s.frames.size := hsees.elim fun _ h => h.1.target_lt
  have hdefine : s.define f name v = s.bind g name v := by rw [define, ← hs.receives_iff.1 hg]
  rw [hdefine]
  refine ⟨hs.lookup?_bind_of_sees hsees v, fun t ht => hs.lookup?_bind_of_sees ht v,
    fun t ht => hs.lookup?_bind_of_not_sees hlt ht v, fun m t hm => hs.lookup?_bind_of_ne hlt hm v t,
    fun h hne => frames_bindAll_of_ne hne.symm [(name, v)], ?_, rfl, rfl, rfl⟩
  simp [Store.bind, Array.getElem?_modify]

/-- A scope assigns to its parent. One of its children sees the new value, and the other has the name
itself. -/
theorem Rooted.define_writes_one_binding_shadowed :
    let root : Store := (empty.addFrame none 0).2
    let tree : Store := (((root.addFrame (some 0) 0).2.addFrame (some 1) 0).2.addFrame (some 1) 0).2
    let s : Store := (tree.bind 0 "x" (.int 1)).bind 2 "x" (.int 2)
    s.Rooted ∧ 1 < s.frames.size ∧ s.Receives 1 "x" 0 ∧ s.Sees 3 0 "x" ∧ ¬ s.Sees 2 0 "x" ∧
      (s.define 1 "x" (.int 7)).lookup? 3 "x" = some (.int 7) ∧
      (s.define 1 "x" (.int 7)).lookup? 2 "x" = s.lookup? 2 "x" := by
  intro root tree s
  have hempty : empty.Rooted := fun f p hp => by simp [parent?, empty] at hp
  have hroot : root.Rooted := hempty.addFrame fun p hp => by cases hp
  have hs : s.Rooted := by
    refine .bind (.bind (.addFrame (.addFrame (.addFrame hroot ?_) ?_) ?_) _ _ _) _ _ _
    all_goals
      rintro p hp
      cases hp
      decide
  have hf : 1 < s.frames.size := by decide
  have hreceives : s.Receives 1 "x" 0 := hs.receives_iff.2 rfl
  have hsees : s.Sees 3 0 "x" := by
    refine ⟨[3, 1], .up rfl (.up rfl (.here (by decide))), fun h hh => ?_⟩
    rcases List.mem_cons.1 hh with rfl | hh
    · rfl
    · rw [List.mem_singleton.1 hh]
      rfl
  have hshadowed : ¬ s.Sees 2 0 "x" := by
    rintro ⟨nearer, hclimbs, hfree⟩
    cases hclimbs with
    | up hp hrest =>
      have hbound : s.localValue? 2 "x" = some (.int 2) := rfl
      rw [hfree 2 (by simp)] at hbound
      cases hbound
  obtain ⟨-, hdefine⟩ := define_writes_one_binding hs hf "x" (.int 7)
  obtain ⟨-, hseen, hunseen, -⟩ := hdefine 0 hreceives
  exact ⟨hs, hf, hreceives, hsees, hshadowed, hseen 3 hsees, hunseen 2 hshadowed⟩

end Store

end ConfinedLisp
