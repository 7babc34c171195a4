import ConfinedLisp.Proofs.ScopeDiscipline

/-!
# The store only grows

Whatever a host does with its engines, an evaluation takes nothing away. Frames stay where they are
and keep their names, vectors keep their items, and a list is for ever the list of its items. The
last of these is a matter of identities: lists are values, so that a list keeps its contents means
that no two lists with different items ever have the same identity.

## Main definitions

- `Reachable`: the stores that a host can come to, with the values it can have in hand there.
- `Store.Rooted`: every frame was made after its parent.
- `Annals`: a store together with a record of the items of every list.

## Main results

- `Reachable.store_only_grows`: what an evaluation leaves of the store that it started in.
-/

namespace ConfinedLisp

/-- The values that the outcome of a computation hands to the host: none if it halts. -/
def Eval.handed {α : Type} (values : α → List Value) : Except Halt α → List Value
  | .ok a => values a
  | .error _ => []

/-- The stores that a host can come to, with the values it can have in hand there. It makes and drops
engines, reads texts, evaluates forms and calls values, whether this succeeds or fails; it reads and
binds names, makes scopes, lists and copies of primitives, builds tables entry by entry, and takes
values apart. -/
inductive Reachable : Store → List Value → Prop where
  | start : Reachable .empty []
  | create {s t : Store} {given : List Value} {engine : Engine} {registry : Registry}
      {limits : Limits} :
      Reachable s given → Engine.create registry limits s = (.ok engine, t) →
        Reachable t (.scope engine.root :: given)
  | drop {s : Store} {given : List Value} {engine : Engine} :
      Reachable s given → .scope engine.root ∈ given → Reachable (engine.drop s).2 given
  | read {s : Store} {given : List Value} (sourceName source : String) :
      Reachable s given → Reachable (Eval.readForms sourceName source s).2
        (Eval.handed id (Eval.readForms sourceName source s).1 ++ given)
  | evaluated {s : Store} {given : List Value} {form : Value} {scope : FrameId} :
      Reachable s given → form ∈ given → .scope scope ∈ given →
        Reachable (evaluate form scope s).2
          (Eval.handed ([·]) (evaluate form scope s).1 ++ given)
  | called {s : Store} {given args : List Value} {callee : Value} {scope : FrameId} :
      Reachable s given → callee ∈ given → args ⊆ given → .scope scope ∈ given →
        Reachable (call scope callee args s).2
          (Eval.handed ([·]) (call scope callee args s).1 ++ given)
  | lookup {s : Store} {given : List Value} {f : FrameId} (name : String) :
      Reachable s given → .scope f ∈ given → Reachable s (s.get f name :: given)
  | define {s : Store} {given : List Value} {f : FrameId} {v : Value} (name : String) :
      Reachable s given → .scope f ∈ given → v ∈ given → Reachable (s.define f name v) given
  | bind {s : Store} {given : List Value} {f : FrameId} {v : Value} (name : String) :
      Reachable s given → .scope f ∈ given → v ∈ given → Reachable (s.bind f name v) given
  | child {s : Store} {given : List Value} {f : FrameId} :
      Reachable s given → .scope f ∈ given →
        Reachable (Eval.newChild f s).2 (.scope s.frames.size :: given)
  | detached {s : Store} {given : List Value} {f : FrameId} :
      Reachable s given → .scope f ∈ given →
        Reachable (Eval.newDetached f s).2 (.scope s.frames.size :: given)
  | list {s : Store} {given : List Value} (items : List Value) :
      Reachable s given → items ⊆ given →
        Reachable (Eval.newList items s).2 (.list s.nextIdentity items :: given)
  | table {s : Store} {given : List Value} {table : Table Value} :
      Reachable s given → table.Built → table.values ⊆ given → Reachable s (.array table :: given)
  | copy {s : Store} {given : List Value} (p : Primitive) :
      Reachable s given → Reachable (Eval.freshIdentity s).2
        (.callable (.primitive p (some s.nextIdentity)) :: given)
  | plain {s : Store} {given : List Value} {v : Value} :
      Reachable s given → v.IsPlain → v.IsLeaf →
        (∀ p id, v ≠ .callable (.primitive p (some id))) → Reachable s (v :: given)
  | part {s : Store} {given : List Value} {v part : Value} :
      Reachable s given → v ∈ given → part.Occurs v → Reachable s (part :: given)

namespace Store

variable {s t : Store}

/-- Every frame was made after its parent. -/
def Rooted (s : Store) : Prop := ∀ f p, s.parent? f = some p → p < f

namespace Rooted

theorem congr (h : s.Rooted) (hparent : ∀ f, t.parent? f = s.parent? f) : t.Rooted :=
  fun f p hp => h f p (hparent f ▸ hp)

theorem bindAll (h : s.Rooted) (f : FrameId) (pairs : List (String × Value)) :
    (s.bindAll f pairs).Rooted :=
  h.congr fun g => (s.shape_bindAll f g pairs).2

theorem addFrame (h : s.Rooted) {parent : Option FrameId} {runtime : RuntimeId}
    (hparent : ∀ p, parent = some p → p < s.frames.size) :
    (s.addFrame parent runtime).2.Rooted := by
  intro f p hp
  rw [parent?, frames_addFrame] at hp
  split at hp
  · next hnew =>
    rw [hnew]
    exact hparent p hp
  · exact h f p hp

/-- A search goes to ever smaller frames, so it matters neither which frames came later nor how many
more it might look at. -/
theorem searchWithin_eq_of_frames (h : s.Rooted) (name : String) {f fuel fuel' : Nat}
    (hframes : ∀ g ≤ f, t.frames[g]? = s.frames[g]?) (hfuel : f < fuel) (hfuel' : f < fuel') :
    t.searchWithin name fuel f = s.searchWithin name fuel' f := by
  induction f using Nat.strongRecOn generalizing fuel fuel' with
  | _ f ih =>
    obtain ⟨fuel, rfl⟩ := Nat.exists_eq_add_one_of_ne_zero (Nat.ne_zero_of_lt hfuel)
    obtain ⟨fuel', rfl⟩ := Nat.exists_eq_add_one_of_ne_zero (Nat.ne_zero_of_lt hfuel')
    rw [searchWithin, searchWithin, hframes f (Nat.le_refl f)]
    cases hframe : s.frames[f]? with
    | none => rfl
    | some frame =>
      dsimp only
      cases Assoc.find? name frame.bindings with
      | some v => rfl
      | none =>
        cases hparent : frame.parent with
        | none => rfl
        | some p =>
          have hp : p < f := h f p (by simp [parent?, hframe, hparent])
          exact ih p hp (fun g hg => hframes g (Nat.le_trans hg (Nat.le_of_lt hp)))
            (Nat.lt_of_lt_of_le hp (Nat.le_of_lt_succ hfuel))
            (Nat.lt_of_lt_of_le hp (Nat.le_of_lt_succ hfuel'))

theorem searchWithin_eq (h : s.Rooted) (name : String) (f fuel fuel' : Nat) (hfuel : f < fuel)
    (hfuel' : f < fuel') : s.searchWithin name fuel f = s.searchWithin name fuel' f :=
  h.searchWithin_eq_of_frames name (fun _ _ => rfl) hfuel hfuel'

/-- The value of a name does not depend on frames that came later. -/
theorem lookup?_eq_of_frames (h : s.Rooted) {f : FrameId}
    (hframes : ∀ g ≤ f, t.frames[g]? = s.frames[g]?) (name : String) :
    t.lookup? f name = s.lookup? f name :=
  congrArg (Option.map Prod.snd)
    (h.searchWithin_eq_of_frames name hframes (Nat.lt_succ_self f) (Nat.lt_succ_self f))

end Rooted

end Store

/-! ### Lists keep their items -/

/-- What a list may be, given a record of the items of lists, and what a reference to a frame may be,
given how many frames there are. -/
def Value.Recorded (contents : Identity → Option (List Value)) (size : Nat) (v : Value) : Prop :=
  (∀ id items, v = .list id items → contents id = some items) ∧
    ∀ f, v.ref? = some (.frame f) → f < size

/-- A store in which every frame was made after its parent, and a record of the items of its lists.
Nothing is recorded of the identities that are still to be given. -/
structure Annals where
  store : Store
  contents : Identity → Option (List Value)
  rooted : store.Rooted
  recorded : ∀ id items, contents id = some items → id < store.nextIdentity
  holds : ∀ v, store.Holds v → v.All (Value.Recorded contents store.frames.size)

namespace Value.Recorded

variable {contents contents' : Identity → Option (List Value)} {size size' : Nat} {v : Value}

theorem of_plain (hv : v.IsPlain) : v.Recorded contents size := by
  refine ⟨?_, fun f hf => ?_⟩
  · rintro id items rfl
    exact hv.elim
  · rw [Value.ref?_of_plain hv] at hf
    cases hf

/-- A value that is no list and refers to no frame. -/
theorem of_other (hlist : ∀ id items, v ≠ .list id items) (hframe : ∀ f, v.ref? ≠ some (.frame f)) :
    v.Recorded contents size :=
  ⟨fun id items h => absurd h (hlist id items), fun f h => absurd h (hframe f)⟩

/-- A value that is no list and refers to a frame. -/
theorem iff_of_ref? {f : FrameId} (hlist : ∀ id items, v ≠ .list id items)
    (hframe : v.ref? = some (.frame f)) : v.Recorded contents size ↔ f < size := by
  refine ⟨fun h => h.2 f hframe, fun h => ⟨fun id items hv => absurd hv (hlist id items), ?_⟩⟩
  intro g hg
  obtain rfl : f = g := by simpa [hframe] using hg
  exact h

theorem mono (h : v.Recorded contents size)
    (hcontents : ∀ id items, contents id = some items → contents' id = some items)
    (hsize : size ≤ size') : v.Recorded contents' size' :=
  ⟨fun id items hv => hcontents id items (h.1 id items hv),
    fun f hf => Nat.lt_of_lt_of_le (h.2 f hf) hsize⟩

end Value.Recorded

namespace Annals

variable {s t : Store}

/-- A value that is around. -/
def part (w : Annals) (v : Value) : Prop := v.Recorded w.contents w.store.frames.size

/-- The store has grown, and what was recorded stands. -/
structure Later (w w' : Annals) : Prop where
  grows : w.store.Grows w'.store
  contents : ∀ id items, w.contents id = some items → w'.contents id = some items

theorem Later.part {w w' : Annals} {v : Value} (h : Later w w') (hv : w.part v) : w'.part v :=
  Value.Recorded.mono hv h.contents h.grows.frameCount

/-- Where a step leads that makes no list. -/
def next (w : Annals) (hgrows : w.store.Grows t) (hrooted : t.Rooted)
    (hholds : ∀ v, t.Holds v → w.store.Holds v ∨ v.All w.part) : Annals where
  store := t
  contents := w.contents
  rooted := hrooted
  recorded id items h := Nat.lt_of_lt_of_le (w.recorded id items h) hgrows.identity
  holds v hv := ((hholds v hv).elim (w.holds v) id).mono fun _ hpart =>
    hpart.mono (fun _ _ h => h) hgrows.frameCount

theorem later_next (w : Annals) (hgrows : w.store.Grows t) (hrooted : t.Rooted)
    (hholds : ∀ v, t.Holds v → w.store.Holds v ∨ v.All w.part) :
    Later w (w.next hgrows hrooted hholds) :=
  ⟨hgrows, fun _ _ h => h⟩

/-- What is recorded when the next identity is given to a list. -/
def inscribe (w : Annals) (items : List Value) : Annals where
  store := w.store.freshened
  contents id := if id = w.store.nextIdentity then some items else w.contents id
  rooted := w.rooted
  recorded id xs h := by
    split at h
    · next hid =>
      subst hid
      exact Nat.lt_succ_self _
    · exact Nat.lt_succ_of_lt (w.recorded id xs h)
  holds v hv := by
    refine (w.holds v hv).mono fun _ hpart => hpart.mono (fun id xs h => ?_) (Nat.le_refl _)
    rw [if_neg (Nat.ne_of_lt (w.recorded id xs h)), h]

theorem later_inscribe (w : Annals) (items : List Value) : Later w (w.inscribe items) := by
  refine ⟨w.store.grows_freshened, fun id xs h => ?_⟩
  show (if id = w.store.nextIdentity then some items else w.contents id) = some xs
  rw [if_neg (Nat.ne_of_lt (w.recorded id xs h)), h]

theorem part_inscribe (w : Annals) (items : List Value) :
    (w.inscribe items).part (.list w.store.nextIdentity items) := by
  refine ⟨fun id xs h => ?_, nofun⟩
  cases h
  exact if_pos rfl

theorem all_get (w : Annals) (f : FrameId) (name : String) : (w.store.get f name).All w.part := by
  rcases w.store.get_spec (P := fun _ => True) (fun _ _ _ _ => trivial) trivial name with
    hnil | ⟨g, -, hg⟩
  · rw [hnil]
    exact Value.all_of_plain (fun _ => .of_plain) trivial trivial
  · exact w.holds _ (Or.inl ⟨g, name, hg⟩)

/-- Binding names to values that are around. -/
theorem exists_bindAll (w : Annals) (f : FrameId) (pairs : List (String × Value))
    (hpairs : ∀ pair ∈ pairs, pair.2.All w.part) :
    ∃ w', Later w w' ∧ w'.store = w.store.bindAll f pairs := by
  refine ⟨w.next (w.store.grows_bindAll f pairs) (w.rooted.bindAll f pairs) fun v hv => ?_,
    w.later_next _ _ _, rfl⟩
  refine (Store.holds_bindAll hv).imp_right ?_
  rintro ⟨pair, hpair, rfl⟩
  exact hpairs pair hpair

theorem exists_addFrame (w : Annals) (parent : Option FrameId) (runtime : RuntimeId)
    (hparent : ∀ p, parent = some p → p < w.store.frames.size) :
    ∃ w', Later w w' ∧ w'.store = (w.store.addFrame parent runtime).2 ∧
      w.store.frames.size < w'.store.frames.size := by
  refine ⟨w.next (w.store.grows_addFrame parent runtime) (w.rooted.addFrame hparent) fun v hv =>
    Or.inl (Store.holds_addFrame hv), w.later_next _ _ _, rfl, ?_⟩
  simp [next, Store.addFrame]

/-- A change of budgets alone. -/
theorem exists_congr (w : Annals) (hgrows : w.store.Grows t) (hframes : t.frames = w.store.frames)
    (hvectors : t.vectors = w.store.vectors) : ∃ w', Later w w' ∧ w'.store = t := by
  have hrooted : t.Rooted := w.rooted.congr fun f => by rw [Store.parent?, hframes, Store.parent?]
  exact ⟨w.next hgrows hrooted fun _ hv => Or.inl (hv.congr hframes hvectors),
    w.later_next _ _ _, rfl⟩

/-- The realm of recorded stores. Every frame that is there is a scope. -/
def realm : Realm Annals where
  store := store
  later := Later
  later_refl w := ⟨.refl _, fun _ _ h => h⟩
  later_trans h h' := ⟨h.grows.trans h'.grows, fun id items hi =>
    h'.contents id items (h.contents id items hi)⟩
  grows h := h.grows
  part := part
  part_later := Later.part
  part_plain _ _ := .of_plain
  scope w f := f < w.store.frames.size
  part_scope := Value.Recorded.iff_of_ref? nofun rfl
  captured w f := f < w.store.frames.size
  captured_of_scope h := h
  part_function := Value.Recorded.iff_of_ref? nofun rfl
  part_operative := Value.Recorded.iff_of_ref? nofun rfl
  runs _ _ := True
  runs_foreign _ := trivial
  runs_constructor _ _ := trivial
  part_foreign _ _ _ := .of_other nofun nofun
  part_constructor _ _ _ := .of_other nofun nofun
  part_static _ _ _ _ := .of_other nofun nofun
  get := fun {w f} name _ => w.all_get f name
  fresh := fun {w} items _ => ⟨w.inscribe items, w.later_inscribe items, rfl, w.part_inscribe items⟩
  bindAll := fun {w f pairs} _ hpairs => w.exists_bindAll f pairs hpairs
  define := by
    intro w f v name _ hv
    refine w.exists_bindAll ((w.store.holder? f name).getD f) [(name, v)] fun pair hpair => ?_
    obtain rfl := List.mem_singleton.1 hpair
    exact hv
  child := fun {w f} hf => w.exists_addFrame (some f) _ fun p hp => by
    cases hp
    exact hf
  detached := fun {w _} _ => w.exists_addFrame none _ nofun
  vector := fun {w items} _ hitems =>
    ⟨w.next (w.store.grows_addVector items) w.rooted fun v hv =>
        (Store.holds_addVector hv).imp_right (hitems v),
      w.later_next _ _ _, rfl, .of_other nofun nofun⟩
  extend := fun {w i items} _ hitems =>
    ⟨w.next (w.store.grows_extendVector i items) w.rooted fun v hv =>
        (Store.holds_extendVector hv).imp_right (hitems v),
      w.later_next _ _ _, rfl⟩
  items := fun {w i _} _ hx => w.holds _ (Or.inr ⟨i, hx⟩)
  enter := fun {w f} _ => w.exists_congr (w.store.grows_enter f) (w.store.frames_enter f)
    (w.store.vectors_enter f)
  leave := fun {w f} _ => w.exists_congr (w.store.grows_leave f) (w.store.frames_leave f)
    (w.store.vectors_leave f)

/-- A host makes an engine: there are more runtimes, and a new root. -/
theorem exists_withEngine (w : Annals) (registry : Registry) (limits : Limits) :
    ∃ w' : Annals, w'.store = w.store.withEngine registry limits ∧
      (∀ v, w.part v → w'.part v) ∧ w.store.frames.size < w'.store.frames.size := by
  let added : Annals :=
    ⟨(w.store.addRuntime registry limits).2, w.contents, w.rooted, w.recorded, w.holds⟩
  obtain ⟨root, hroot, hstore, hsize⟩ :=
    added.exists_addFrame none w.store.runtimes.size nofun
  obtain ⟨w', hw', hstore'⟩ := root.exists_bindAll w.store.frames.size Engine.seed
    fun pair hpair => Engine.all_of_mem_seed (fun _ => .of_plain) hpair
  refine ⟨w', by rw [hstore', hstore]; rfl, fun v hv => hw'.part (hroot.part hv), ?_⟩
  exact Nat.lt_of_lt_of_le hsize hw'.grows.frameCount

/-- A host drops an engine: the bindings of a frame are gone. -/
theorem exists_clear (w : Annals) (f : FrameId) :
    ∃ w' : Annals, w'.store = w.store.clear f ∧ ∀ v, w.part v → w'.part v := by
  have hsize : (w.store.clear f).frames.size = w.store.frames.size := by simp [Store.clear]
  have hparent : ∀ g, (w.store.clear f).parent? g = w.store.parent? g := by
    intro g
    simp only [Store.parent?, Store.clear, Array.getElem?_modify]
    by_cases hfg : f = g
    · cases w.store.frames[g]? <;> simp [hfg]
    · simp [hfg]
  refine ⟨⟨w.store.clear f, w.contents, w.rooted.congr hparent, w.recorded, fun v hv => ?_⟩, rfl,
    fun v hv => ?_⟩
  · rw [hsize]
    exact w.holds v (Store.holds_clear hv)
  · exact Value.Recorded.mono hv (fun _ _ h => h) (Nat.le_of_eq hsize.symm)

end Annals

namespace Reachable

variable {s t : Store} {given : List Value}

/-- There is a record of the store, in which all that is in hand is recorded. -/
def IsRecorded (s : Store) (given : List Value) : Prop :=
  ∃ w : Annals, w.store = s ∧ Annals.realm.values w given

namespace IsRecorded

/-- A computation that keeps the realm, and what it hands to the host. -/
theorem runs {α : Type} {x : Eval α} {values : α → List Value} {Q : Annals → α → Prop}
    (h : IsRecorded s given)
    (hx : ∀ w : Annals, w.store = s → Annals.realm.values w given → Annals.realm.Runs w x Q)
    (hQ : ∀ w a, Q w a → Annals.realm.values w (values a)) :
    IsRecorded (x s).2 (Eval.handed values (x s).1 ++ given) := by
  obtain ⟨w, rfl, hgiven⟩ := h
  obtain ⟨w', hw, hstore, -, hvalue⟩ := hx w rfl hgiven
  refine ⟨w', hstore, fun v hv => ?_⟩
  rcases List.mem_append.1 hv with hv | hv
  · cases hresult : (x w.store).1 with
    | error halt => simp [hresult, Eval.handed] at hv
    | ok a =>
      rw [hresult] at hv
      exact hQ w' a (hvalue a hresult) v hv
  · exact Realm.value_later hw (hgiven v hv)

/-- One more value in hand that is recorded. -/
theorem cons {v : Value} (h : IsRecorded s given)
    (hv : ∀ w : Annals, w.store = s → Annals.realm.values w given → v.All w.part) :
    IsRecorded s (v :: given) := by
  obtain ⟨w, hstore, hgiven⟩ := h
  exact ⟨w, hstore, Realm.values_cons.2 ⟨hv w hstore hgiven, hgiven⟩⟩

/-- A step to a later world. -/
theorem step (h : IsRecorded s given)
    (hstep : ∀ w : Annals, w.store = s → Annals.realm.values w given →
      ∃ w', Annals.Later w w' ∧ w'.store = t) : IsRecorded t given := by
  obtain ⟨w, hstore, hgiven⟩ := h
  obtain ⟨w', hw, ht⟩ := hstep w hstore hgiven
  exact ⟨w', ht, Realm.values_later (R := Annals.realm) hw hgiven⟩

theorem bind {v : Value} (h : IsRecorded s given) (f : FrameId) (name : String) (hv : v ∈ given) :
    IsRecorded (s.bind f name v) given := by
  refine h.step fun w hstore hgiven => ?_
  refine hstore ▸ w.exists_bindAll f [(name, v)] fun pair hpair => ?_
  obtain rfl := List.mem_singleton.1 hpair
  exact hgiven _ hv

theorem list {items : List Value} (h : IsRecorded s given) (hitems : items ⊆ given) :
    IsRecorded s.freshened (.list s.nextIdentity items :: given) := by
  obtain ⟨w, rfl, hgiven⟩ := h
  have hw := w.later_inscribe items
  have hlater : Annals.realm.values (w.inscribe items) given := Realm.values_later hw hgiven
  exact ⟨w.inscribe items, rfl, Realm.values_cons.2 ⟨Realm.value_list.2
    ⟨w.part_inscribe items, fun v hv => hlater v (hitems hv)⟩, hlater⟩⟩

end IsRecorded

theorem isRecorded (h : Reachable s given) : IsRecorded s given := by
  induction h with
  | start =>
    refine ⟨⟨.empty, fun _ => none, ?_, nofun, ?_⟩, rfl, Realm.values_nil⟩
    · intro f p hp
      simp [Store.parent?, Store.empty] at hp
    · rintro v (⟨f, name, h⟩ | ⟨i, h⟩)
      · simp [Store.bindings, Store.empty] at h
      · simp [Store.vector, Store.empty] at h
  | create _ hcreate ih =>
    rw [Engine.create_eq] at hcreate
    cases hcreate
    obtain ⟨w, rfl, hgiven⟩ := ih
    obtain ⟨w', hstore, hpart, hroot⟩ := w.exists_withEngine _ _
    refine ⟨w', hstore, Realm.values_cons.2 ⟨Realm.value_scope.2 hroot, fun v hv => ?_⟩⟩
    exact (hgiven v hv).mono hpart
  | drop _ _ ih =>
    obtain ⟨w, rfl, hgiven⟩ := ih
    obtain ⟨w', hstore, hpart⟩ := w.exists_clear _
    exact ⟨w', hstore, fun v hv => (hgiven v hv).mono hpart⟩
  | read sourceName source _ ih =>
    refine ih.runs (fun w _ _ => ?_) fun _ _ h => h
    unfold Eval.readForms
    split
    · next forms _ => exact (Judgment.keeping Annals.realm).ofForms forms w
    · exact Realm.runs_halt rfl
  | evaluated _ hform hscope ih =>
    refine ih.runs (fun w _ hgiven => ?_) fun _ _ h => Realm.values_cons.2 ⟨h, Realm.values_nil⟩
    exact Realm.runs_evaluate (hgiven _ hform) (Realm.value_scope.1 (hgiven _ hscope))
  | called _ hcallee hargs hscope ih =>
    refine ih.runs (fun w _ hgiven => ?_) fun _ _ h => Realm.values_cons.2 ⟨h, Realm.values_nil⟩
    exact Realm.runs_call (Realm.value_scope.1 (hgiven _ hscope)) (hgiven _ hcallee) fun v hv =>
      hgiven v (hargs hv)
  | lookup name _ _ ih => exact ih.cons fun w hstore _ => hstore ▸ w.all_get _ name
  | define name _ hf hv ih =>
    refine ih.step fun w hstore hgiven => ?_
    exact hstore ▸ Annals.realm.define name (Realm.value_scope.1 (hgiven _ hf)) (hgiven _ hv)
  | bind name _ _ hv ih => exact ih.bind _ name hv
  | child _ hf ih =>
    obtain ⟨w, rfl, hgiven⟩ := ih
    obtain ⟨w', hw, hstore, hnew⟩ := Annals.realm.child (Realm.value_scope.1 (hgiven _ hf))
    exact ⟨w', hstore, Realm.values_cons.2 ⟨Realm.value_scope.2 hnew,
      Realm.values_later hw hgiven⟩⟩
  | detached _ hf ih =>
    obtain ⟨w, rfl, hgiven⟩ := ih
    obtain ⟨w', hw, hstore, hnew⟩ := Annals.realm.detached (Realm.value_scope.1 (hgiven _ hf))
    exact ⟨w', hstore, Realm.values_cons.2 ⟨Realm.value_scope.2 hnew,
      Realm.values_later hw hgiven⟩⟩
  | list items _ hitems ih => exact ih.list hitems
  | table _ _ hvalues ih =>
    refine ih.cons fun w _ hgiven => Value.all_array.2
      ⟨.of_other (fun _ _ h => by cases h) (fun _ h => by cases h), fun v hv => ?_⟩
    exact hgiven v (hvalues hv)
  | copy p _ ih =>
    have hfresh := ih.step fun w hstore _ => ⟨w.inscribe [], w.later_inscribe [],
      congrArg Store.freshened hstore⟩
    exact hfresh.cons fun w _ _ => Value.all_of_plain (fun _ => .of_plain) trivial trivial
  | plain _ hplain hleaf _ ih =>
    exact ih.cons fun w _ _ => Value.all_of_plain (fun _ => .of_plain) hplain hleaf
  | part _ hv hpart ih =>
    exact ih.cons fun w _ hgiven p hp => hgiven _ hv p (hp.trans hpart)

/-- Whatever occurs in the hands of the host or in its store is recorded. -/
theorem part_of_has {w : Annals} (hgiven : Annals.realm.values w given) {part : Value}
    (h : w.store.Has given part) : w.part part := by
  obtain ⟨v, hv | hv, hpart⟩ := h
  · exact hgiven v hv part hpart
  · exact w.holds v hv part hpart

/-- The store only grows. A host evaluates a form in a scope, and this succeeds or fails. Every frame
keeps its parent, its runtime and the names it binds, and every vector begins with the items it had.
No list has other items than it had before. Every frame was made after its parent, so that looking a
name up and finding where to define it come to an end: more than the frames up to the one where it
begins are never searched. -/
theorem store_only_grows (h : Reachable s given) {form : Value} {scope : FrameId}
    {result : Except Halt Value} (hform : form ∈ given) (hscope : .scope scope ∈ given)
    (hrun : evaluate form scope s = (result, t)) :
    s.Grows t ∧
      (∀ id items items', s.Has given (.list id items) →
        t.Has (Eval.handed ([·]) result ++ given) (.list id items') → items' = items) ∧
      (∀ f p, t.parent? f = some p → p < f) ∧
      ∀ (name : String) (f fuel : Nat), f < fuel →
        t.searchWithin name fuel f = t.searchWithin name (f + 1) f := by
  obtain ⟨w, rfl, hgiven⟩ := h.isRecorded
  obtain ⟨w', hw, hstore, -, hvalue⟩ :=
    Realm.runs_evaluate (hgiven form hform) (Realm.value_scope.1 (hgiven _ hscope))
  obtain rfl : w'.store = t := hstore.trans (congrArg Prod.snd hrun)
  refine ⟨hw.grows, fun id items items' hbefore hafter => ?_, w'.rooted, fun name f fuel hfuel =>
    w'.rooted.searchWithin_eq name f fuel (f + 1) hfuel (Nat.lt_succ_self f)⟩
  -- The record gives the items both times, and what it said before it still says.
  have hitems : w'.contents id = some items :=
    hw.contents id items ((part_of_has hgiven hbefore).1 id items rfl)
  have hhanded : Annals.realm.values w' (Eval.handed ([·]) result ++ given) := by
    intro v hv
    rcases List.mem_append.1 hv with hv | hv
    · cases result with
      | error halt => cases hv
      | ok a =>
        obtain rfl := List.mem_singleton.1 hv
        exact hvalue _ (congrArg Prod.fst hrun)
    · exact Realm.value_later hw (hgiven v hv)
  have hitems' := (part_of_has hhanded hafter).1 id items' rfl
  exact Option.some.inj (hitems'.symm.trans hitems)

/-- A host makes an engine and a form, which it evaluates at the root. -/
theorem store_only_grows_define :
    let fresh := Store.empty.withEngine .standard {}
    let form := Value.list fresh.nextIdentity [.sym "define", .sym "x", .int 1]
    Reachable fresh.freshened [form, .sym "define", .sym "x", .int 1, .scope 0] ∧
      fresh.freshened.Grows (evaluate form 0 fresh.freshened).2 ∧
      ((evaluate form 0 fresh.freshened).2.get 0 "x").display = "1" := by
  intro fresh form
  have hengine : Reachable fresh [.scope 0] := .create .start (Engine.create_eq .standard {} .empty)
  have hplain := ((hengine.plain (v := .int 1) trivial trivial nofun).plain (v := .sym "x") trivial
    trivial nofun).plain (v := .sym "define") trivial trivial nofun
  have hlist : Reachable fresh.freshened [form, .sym "define", .sym "x", .int 1, .scope 0] :=
    .list _ hplain (by simp)
  have hrun := (Prod.eta (evaluate form 0 fresh.freshened)).symm
  exact ⟨hlist, (store_only_grows hlist (by simp) (by simp) hrun).1, by decide +kernel⟩

end Reachable

end ConfinedLisp
