import ConfinedLisp.Proofs.SessionMeters
import ConfinedLisp.Proofs.StoreHistory

/-!
# Stores at rest

Whenever the host has its hands on a store, nothing is in progress there, and every frame is in a
runtime that has been made.

## Main definitions

- `Store.Housed`: every frame is in a runtime that has been made.
- `Store.Resting`: nothing is in progress, and every frame is in a runtime that has been made.

## Main results

- `Reachable.resting`: a store that a host can come to is at rest.
-/

namespace ConfinedLisp

namespace Store

variable {s t : Store} {f : FrameId}

/-- Every frame is in a runtime that has been made. -/
def Housed (s : Store) : Prop := ∀ f i, s.runtimeId? f = some i → i < s.runtimes.size

namespace Housed

theorem congr (h : s.Housed) (hruntimes : t.runtimes.size = s.runtimes.size)
    (hframes : ∀ f, t.runtimeId? f = s.runtimeId? f) : t.Housed := by
  intro f i hi
  rw [hruntimes]
  exact h f i (hframes f ▸ hi)

theorem bindAll (h : s.Housed) (f : FrameId) (pairs : List (String × Value)) :
    (s.bindAll f pairs).Housed :=
  h.congr (congrArg Array.size ((Unbudgeted.bindAll f pairs).runtimes s)) fun g =>
    (s.shape_bindAll f g pairs).1

theorem define (h : s.Housed) (f : FrameId) (name : String) (v : Value) :
    (s.define f name v).Housed :=
  h.bindAll _ [(name, v)]

theorem addFrame (h : s.Housed) {runtime : RuntimeId} (hruntime : runtime < s.runtimes.size)
    (parent : Option FrameId) : (s.addFrame parent runtime).2.Housed := by
  intro f i hi
  rw [runtimeId?, frames_addFrame] at hi
  split at hi
  · cases hi
    exact hruntime
  · exact h f i hi

/-- A frame that is made for another one goes into the runtime of that one. If there were none,
there is still a first runtime. -/
theorem newFrame (h : s.Housed) (hsome : 0 < s.runtimes.size) (parent : Option FrameId)
    (f : FrameId) : (s.addFrame parent ((s.runtimeId? f).getD 0)).2.Housed := by
  refine h.addFrame ?_ parent
  cases hi : s.runtimeId? f with
  | none => exact hsome
  | some i => exact h f i hi

theorem enter (h : s.Housed) (f : FrameId) : (s.enter f).2.Housed := by
  refine h.congr ?_ fun g => by rw [runtimeId?, frames_enter, runtimeId?]
  unfold Store.enter
  split <;> simp

theorem leave (h : s.Housed) (f : FrameId) : (s.leave f).Housed := by
  refine h.congr ?_ fun g => by rw [runtimeId?, frames_leave, runtimeId?]
  unfold Store.leave
  split <;> simp

end Housed

/-- A store with a runtime in which every frame is in a runtime that has been made. -/
structure Homestead where
  store : Store
  inhabited : 0 < store.runtimes.size
  housed : store.Housed

/-- A later store, as far as frames are in runtimes. -/
theorem Homestead.exists_later (w : Homestead) (hgrows : w.store.Grows t) (ht : t.Housed) :
    ∃ w' : Homestead, w.store.Grows w'.store ∧ w'.store = t :=
  ⟨⟨t, hgrows.runtimeCount ▸ w.inhabited, ht⟩, hgrows, rfl⟩

/-- The realm in which everything may be around, and every frame is in a runtime. -/
def Homestead.realm : Realm Homestead where
  store := store
  later w w' := w.store.Grows w'.store
  later_refl w := .refl w.store
  later_trans := .trans
  grows h := h
  part _ _ := True
  part_later _ h := h
  part_plain _ _ _ := trivial
  scope _ _ := True
  part_scope := Iff.rfl
  captured _ _ := True
  captured_of_scope h := h
  part_function := Iff.rfl
  part_operative := Iff.rfl
  runs _ _ := True
  runs_foreign _ := trivial
  runs_constructor _ _ := trivial
  part_foreign _ _ _ := trivial
  part_constructor _ _ _ := trivial
  part_static _ _ _ _ := trivial
  get _ _ := fun _ _ => trivial
  fresh := fun {w} _ _ => by
    obtain ⟨w', hw, hstore⟩ := w.exists_later w.store.grows_freshened w.housed
    exact ⟨w', hw, hstore, trivial⟩
  bindAll := fun {w f pairs} _ _ =>
    w.exists_later (w.store.grows_bindAll f pairs) (w.housed.bindAll f pairs)
  define := fun {w f v} name _ _ =>
    w.exists_later (w.store.grows_define f name v) (w.housed.define f name v)
  child := fun {w f} _ => by
    obtain ⟨w', hw, hstore⟩ := w.exists_later (w.store.grows_addFrame (some f) _)
      (w.housed.newFrame w.inhabited (some f) f)
    exact ⟨w', hw, hstore, trivial⟩
  detached := fun {w f} _ => by
    obtain ⟨w', hw, hstore⟩ := w.exists_later (w.store.grows_addFrame none _)
      (w.housed.newFrame w.inhabited none f)
    exact ⟨w', hw, hstore, trivial⟩
  vector := fun {w items} _ _ => by
    obtain ⟨w', hw, hstore⟩ := w.exists_later (w.store.grows_addVector items) w.housed
    exact ⟨w', hw, hstore, trivial⟩
  extend := fun {w i items} _ _ => w.exists_later (w.store.grows_extendVector i items) w.housed
  items _ _ := fun _ _ => trivial
  enter := fun {w f} _ => w.exists_later (w.store.grows_enter f) (w.housed.enter f)
  leave := fun {w f} _ => w.exists_later (w.store.grows_leave f) (w.housed.leave f)

/-- Nothing is in progress, and every frame is in a runtime that has been made. -/
structure Resting (s : Store) : Prop where
  housed : s.Housed
  idle : ∀ (i : RuntimeId) (r : Runtime), s.runtimes[i]? = some r → r.depth = 0

namespace Resting

theorem congr (h : s.Resting) (hruntimes : t.runtimes = s.runtimes)
    (hframes : ∀ f, t.runtimeId? f = s.runtimeId? f) : t.Resting where
  housed := h.housed.congr (congrArg Array.size hruntimes) hframes
  idle i r hr := h.idle i r (hruntimes ▸ hr)

theorem bindAll (h : s.Resting) (f : FrameId) (pairs : List (String × Value)) :
    (s.bindAll f pairs).Resting :=
  h.congr ((Unbudgeted.bindAll f pairs).runtimes s) fun g => (s.shape_bindAll f g pairs).1

/-- The runtime of a frame. -/
theorem runtime_of_frame (h : s.Resting) (hf : f < s.frames.size) :
    ∃ i r, s.runtimeId? f = some i ∧ s.runtimes[i]? = some r ∧ r.depth = 0 := by
  have hi : s.runtimeId? f = some s.frames[f].runtime := by simp [runtimeId?, hf]
  have hlt := h.housed f _ hi
  exact ⟨_, _, hi, Array.getElem?_eq_some_iff.2 ⟨hlt, rfl⟩,
    h.idle _ _ (Array.getElem?_eq_some_iff.2 ⟨hlt, rfl⟩)⟩

theorem withEngine (h : s.Resting) (registry : Registry) (limits : Limits) :
    (s.withEngine registry limits).Resting := by
  have hadded : (s.addRuntime registry limits).2.Resting := by
    refine ⟨fun f i hi => ?_, fun i r hr => ?_⟩
    · exact Nat.lt_of_lt_of_le (h.housed f i hi) (by simp [addRuntime])
    · rw [addRuntime, Array.getElem?_push] at hr
      split at hr
      · cases hr
        rfl
      · exact h.idle i r hr
  have hroot : ((s.addRuntime registry limits).2.addFrame none s.runtimes.size).2.Resting :=
    ⟨hadded.housed.addFrame (by simp [addRuntime]) none, hadded.idle⟩
  exact hroot.bindAll s.frames.size Engine.seed

theorem clear (h : s.Resting) (f : FrameId) : (s.clear f).Resting := by
  refine h.congr rfl fun g => ?_
  simp only [runtimeId?, Store.clear, Array.getElem?_modify]
  split
  · cases s.frames[g]? <;> rfl
  · rfl

theorem newFrame (h : s.Resting) (hf : f < s.frames.size) (parent : Option FrameId) :
    (s.addFrame parent ((s.runtimeId? f).getD 0)).2.Resting := by
  obtain ⟨i, r, hi, -, -⟩ := h.runtime_of_frame hf
  exact ⟨h.housed.newFrame (Nat.zero_lt_of_lt (h.housed f i hi)) parent f, h.idle⟩

/-- What keeps every realm leaves a store at rest. -/
theorem run {α : Type} (h : s.Resting) (hf : f < s.frames.size) {x : Eval α}
    {Q : Homestead → α → Prop} (hx : ∀ w : Homestead, Homestead.realm.Runs w x Q) :
    (x s).2.Resting := by
  obtain ⟨i, r, hi, hr, -⟩ := h.runtime_of_frame hf
  have hsome : 0 < s.runtimes.size := Nat.zero_lt_of_lt (h.housed f i hi)
  obtain ⟨w', -, hstore, hstandings, -⟩ := hx ⟨s, hsome, h.housed⟩
  have hstore : w'.store = (x s).2 := hstore
  have hstandings : w'.store.standings = s.standings := hstandings
  rw [← hstore]
  refine ⟨w'.housed, fun j q hq => ?_⟩
  have hj := congrArg (·[j]?) hstandings
  simp only [getElem?_standings, hq, Option.map_some] at hj
  obtain ⟨r, hr, hstanding⟩ := Option.map_eq_some_iff.1 hj.symm
  rw [← h.idle j r hr]
  exact congrArg Prod.snd hstanding.symm

end Resting

end Store

namespace Reachable

variable {s : Store} {given : List Value}

/-- A scope that a host has in hand is there. -/
theorem lt_of_scope (h : Reachable s given) {f : FrameId} (hf : .scope f ∈ given) :
    f < s.frames.size := by
  obtain ⟨w, rfl, hgiven⟩ := h.isRecorded
  exact Realm.value_scope.1 (hgiven _ hf)

/-- A store that a host can come to is at rest. -/
theorem resting (h : Reachable s given) : s.Resting := by
  induction h with
  | start => exact ⟨fun f i hi => by simp [Store.runtimeId?, Store.empty] at hi, nofun⟩
  | create _ hcreate ih =>
    rw [Engine.create_eq] at hcreate
    cases hcreate
    exact ih.withEngine _ _
  | drop _ _ ih => exact ih.clear _
  | read sourceName source _ ih =>
    obtain ⟨next, hnext⟩ := Eval.onlyIdentities_readForms sourceName source _
    rw [hnext]
    exact ih.congr rfl fun _ => rfl
  | evaluated hs _ hscope ih =>
    exact ih.run (hs.lt_of_scope hscope) fun _ =>
      Realm.runs_evaluate (R := Store.Homestead.realm) (fun _ _ => trivial) trivial
  | called hs _ _ hscope ih =>
    exact ih.run (hs.lt_of_scope hscope) fun _ =>
      Realm.runs_call (R := Store.Homestead.realm) trivial (fun _ _ => trivial)
        fun _ _ _ _ => trivial
  | define name _ _ _ ih => exact ih.bindAll _ [(name, _)]
  | bind name _ _ _ ih => exact ih.bindAll _ [(name, _)]
  | child hs hf ih => exact ih.newFrame (hs.lt_of_scope hf) (some _)
  | detached hs hf ih => exact ih.newFrame (hs.lt_of_scope hf) none
  | list _ _ _ ih | copy _ _ ih => exact ih.congr rfl fun _ => rfl
  | lookup _ _ _ ih | table _ _ _ ih | plain _ _ _ _ ih | part _ _ _ ih => exact ih

end Reachable

end ConfinedLisp
