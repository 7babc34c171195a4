import ConfinedLisp.Proofs.Session
import ConfinedLisp.Proofs.Territory

/-!
# Where names are introduced

A scope is a capability: evaluation introduces names only in frames whose scope it holds. Those are
the frame it takes place in, the frames for which a scope value occurs in what it is given or in the
store, and the frames that it makes itself. A closure gives no such hold on the frame it was made
over: its body runs in a child of that frame, looks names up there and may give them new values.

## Main definitions

- `Hand`: the frames whose scope is held, and those that may get children.
- `Hand.Step`: one thing that evaluation does to the store.
- `Hand.Redefines`: a sequence of such steps, each of which leaves a frame alone or is a definition
  from elsewhere that finds its name in that frame.

## Main results

- `Store.names_introduced_in_hand`: evaluating a form or calling a value only redefines the frames
  that are not held, so they keep the names that they had.
-/

namespace ConfinedLisp

/-- What evaluation may do to which frame: bind names in it, or make children of it. -/
structure Hand where
  held : FrameId → Prop
  captured : FrameId → Prop
  captured_of_held : ∀ {f}, held f → captured f

namespace Hand

variable (hand : Hand)

/-- One thing that evaluation does to the store. -/
inductive Step : Store → Store → Prop where
  | fresh (s : Store) : Step s s.freshened
  | bindAll {f : FrameId} (s : Store) (pairs : List (String × Value)) :
      hand.held f → Step s (s.bindAll f pairs)
  | define {f : FrameId} (s : Store) (name : String) (v : Value) :
      hand.held f → Step s (s.define f name v)
  | child {f : FrameId} (s : Store) :
      hand.captured f → Step s (s.addFrame (some f) ((s.runtimeId? f).getD 0)).2
  | detached {f : FrameId} (s : Store) :
      hand.held f → Step s (s.addFrame none ((s.runtimeId? f).getD 0)).2
  | vector (s : Store) (items : List Value) : Step s (s.addVector items).2
  | extend (s : Store) (i : VectorId) (items : List Value) : Step s (s.extendVector i items)
  | enter (s : Store) (f : FrameId) : Step s (s.enter f).2
  | leave (s : Store) (f : FrameId) : Step s (s.leave f)

/-- One store becomes another one step by step. Each step leaves a frame alone, or is a definition
made where the scope is held, for which this frame is the nearest one to bind the name. -/
inductive Redefines (f : FrameId) : Store → Store → Prop where
  | refl (s : Store) : Redefines f s s
  | aside {s t u : Store} :
      Redefines f s t → hand.Step t u → u.frames[f]? = t.frames[f]? → Redefines f s u
  | define {s t : Store} {g : FrameId} (name : String) (v : Value) :
      Redefines f s t → hand.held g → t.holder? g name = some f →
        Redefines f s (t.define g name v)

/-- A value refers only to frames of which it may: a scope to one that is held, a closure to one of
which it may make children. -/
def Covers (v : Value) : Prop :=
  (∀ f, v = .scope f → hand.held f) ∧ ∀ f, v.ref? = some (.frame f) → hand.captured f

variable {hand} {s t u : Store} {f g : FrameId}

/-- A value that refers to no frame. -/
theorem covers_of_ref? {v : Value} (h : ∀ f, v.ref? ≠ some (.frame f)) : hand.Covers v := by
  refine ⟨?_, fun f hf => absurd hf (h f)⟩
  rintro f rfl
  exact absurd rfl (h f)

theorem covers_of_plain {v : Value} (hv : v.IsPlain) : hand.Covers v :=
  covers_of_ref? (by simp [Value.ref?_of_plain hv])

theorem covers_scope : hand.Covers (.scope f) ↔ hand.held f := by
  refine ⟨fun h => h.1 f rfl, fun h => ⟨fun g hg => ?_, fun g hg => ?_⟩⟩
  · cases hg
    exact h
  · cases hg
    exact hand.captured_of_held h

/-- A closure over a frame. -/
theorem covers_closure {c : Callable Value} (hc : (Value.callable c).ref? = some (.frame f)) :
    hand.Covers (.callable c) ↔ hand.captured f := by
  refine ⟨fun h => h.2 f hc, fun h => ⟨nofun, fun g hg => ?_⟩⟩
  obtain rfl : f = g := by simpa [hc] using hg
  exact h

/-! ### Redefining a frame -/

namespace Redefines

theorem trans (hst : hand.Redefines f s t) (htu : hand.Redefines f t u) :
    hand.Redefines f s u := by
  induction htu with
  | refl => exact hst
  | aside _ hstep hsame ih => exact .aside ih hstep hsame
  | define name v _ hg hholder ih => exact .define name v ih hg hholder

/-- The nearest frame to bind a name binds it. -/
theorem mem_keys_of_holder? {name : String} (h : s.holder? g name = some f) :
    name ∈ Assoc.keys (s.bindings f) := by
  obtain ⟨⟨_, v⟩, hfound, rfl⟩ := Option.map_eq_some_iff.1 h
  obtain ⟨-, hbound⟩ :=
    Store.searchWithin_spec (P := fun _ => True) (fun _ _ _ _ => trivial) trivial hfound
  exact List.mem_map.2 ⟨(name, v), hbound, rfl⟩

/-- A frame that is only redefined keeps its names. -/
theorem keys_bindings (h : hand.Redefines f s t) :
    Assoc.keys (t.bindings f) = Assoc.keys (s.bindings f) := by
  induction h with
  | refl => rfl
  | aside _ _ hsame ih => rw [← ih, Store.bindings, hsame, ← Store.bindings]
  | define name v _ _ hholder ih =>
    rw [← ih, Store.define, hholder, Option.getD_some, Store.bindings_bind]
    split
    · exact Assoc.keys_put_of_mem (mem_keys_of_holder? hholder)
    · rfl

end Redefines

theorem Step.grows (h : hand.Step s t) : s.Grows t := by
  cases h with
  | fresh => exact s.grows_freshened
  | bindAll _ pairs _ => exact s.grows_bindAll _ pairs
  | define _ name v _ => exact s.grows_define _ name v
  | child | detached => exact s.grows_addFrame _ _
  | vector _ items => exact s.grows_addVector items
  | extend _ i items => exact s.grows_extendVector i items
  | enter _ f => exact s.grows_enter f
  | leave _ f => exact s.grows_leave f

/-- A step writes to a frame that is not held only by a definition that finds its name there. -/
theorem Step.redefines (h : hand.Step s t) (hnew : ∀ f, s.frames.size ≤ f → hand.held f)
    (hf : ¬ hand.held f) : hand.Redefines f s t := by
  have hne : ∀ {g}, hand.held g → g ≠ f := by
    rintro g hg rfl
    exact hf hg
  have hsize : f ≠ s.frames.size := fun h => hf (hnew f (Nat.le_of_eq h.symm))
  have haside : t.frames[f]? = s.frames[f]? → hand.Redefines f s t := .aside (.refl s) h
  cases h with
  | fresh | vector | extend => exact haside rfl
  | bindAll _ pairs hg => exact haside (Store.frames_bindAll_of_ne (hne hg) pairs)
  | child | detached => exact haside (by rw [Store.frames_addFrame, if_neg hsize])
  | enter _ g => exact haside (by rw [Store.frames_enter])
  | leave _ g => exact haside (by rw [Store.frames_leave])
  | @define g _ name v hg =>
    by_cases hholder : s.holder? g name = some f
    · exact .define name v (.refl s) hg hholder
    · -- The frame that is written to is another one: the nearest to bind the name, or `g` itself.
      refine haside (Store.frames_bindAll_of_ne (f := (s.holder? g name).getD g) ?_ [(name, v)])
      cases hfound : s.holder? g name with
      | none => exact hne hg
      | some k => exact fun h => hholder (hfound.trans (congrArg some h))

/-! ### The realm of what is in hand -/

/-- The stores in which everything is covered, and in which every new frame will be held. -/
structure Custody (hand : Hand) where
  store : Store
  fresh : ∀ f, store.frames.size ≤ f → hand.held f
  holds : ∀ v, store.Holds v → v.All hand.Covers

/-- Where a step leads that adds nothing but what is covered. -/
def Custody.next (w : Custody hand) (hstep : hand.Step w.store t)
    (hholds : ∀ v, t.Holds v → w.store.Holds v ∨ v.All hand.Covers) : Custody hand where
  store := t
  fresh f hf := w.fresh f (Nat.le_trans hstep.grows.frameCount hf)
  holds v hv := (hholds v hv).elim (w.holds v) id

/-- The store has grown, and the frames that are not held have only been redefined. -/
structure Defers (hand : Hand) (s t : Store) : Prop where
  grows : s.Grows t
  redefines : ∀ f, ¬ hand.held f → hand.Redefines f s t

theorem Custody.defers (w : Custody hand) (hstep : hand.Step w.store t) :
    hand.Defers w.store t :=
  ⟨hstep.grows, fun _ hf => hstep.redefines w.fresh hf⟩

/-- The realm of the stores in which everything is covered. Forms are evaluated where the scope is
held; what a closure was made over may get children. -/
def realm (hand : Hand) : Realm (Custody hand) where
  store := Custody.store
  later w w' := hand.Defers w.store w'.store
  later_refl w := ⟨.refl w.store, fun _ _ => .refl w.store⟩
  later_trans h h' :=
    ⟨h.grows.trans h'.grows, fun f hf => (h.redefines f hf).trans (h'.redefines f hf)⟩
  grows h := h.grows
  part _ := hand.Covers
  part_later _ h := h
  part_plain _ _ := covers_of_plain
  scope _ := hand.held
  part_scope := covers_scope
  captured _ := hand.captured
  captured_of_scope := hand.captured_of_held
  part_function := covers_closure rfl
  part_operative := covers_closure rfl
  runs _ _ := True
  runs_foreign _ := trivial
  runs_constructor _ _ := trivial
  part_foreign _ _ _ := covers_of_ref? nofun
  part_constructor _ _ _ := covers_of_ref? nofun
  part_static _ _ _ _ := covers_of_ref? nofun
  get := by
    intro w f name _
    rcases w.store.get_spec (P := fun _ => True) (fun _ _ _ _ => trivial) trivial name with
      hnil | ⟨g, -, hg⟩
    · rw [hnil]
      exact Value.all_of_plain (fun _ => covers_of_plain) trivial trivial
    · exact w.holds _ (Or.inl ⟨g, name, hg⟩)
  fresh := fun {w} _ _ =>
    have hstep := Step.fresh w.store
    ⟨w.next hstep fun _ => Or.inl, w.defers hstep, rfl, covers_of_ref? nofun⟩
  bindAll := by
    intro w f pairs hf hpairs
    have hstep := Step.bindAll w.store pairs hf
    refine ⟨w.next hstep fun v hv => ?_, w.defers hstep, rfl⟩
    refine (Store.holds_bindAll hv).imp_right ?_
    rintro ⟨pair, hpair, rfl⟩
    exact hpairs pair hpair
  define := by
    intro w f v name hf hv
    have hstep := Step.define w.store name v hf
    refine ⟨w.next hstep fun x hx => ?_, w.defers hstep, rfl⟩
    refine (Store.holds_define hx).imp_right ?_
    rintro rfl
    exact hv
  child := fun {w _} hf =>
    have hstep := Step.child w.store hf
    ⟨w.next hstep fun _ hv => Or.inl (Store.holds_addFrame hv), w.defers hstep, rfl,
      w.fresh _ (Nat.le_refl _)⟩
  detached := fun {w _} hf =>
    have hstep := Step.detached w.store hf
    ⟨w.next hstep fun _ hv => Or.inl (Store.holds_addFrame hv), w.defers hstep, rfl,
      w.fresh _ (Nat.le_refl _)⟩
  vector := fun {w items} _ hitems =>
    have hstep := Step.vector w.store items
    ⟨w.next hstep fun v hv => (Store.holds_addVector hv).imp_right (hitems v), w.defers hstep, rfl,
      covers_of_ref? nofun⟩
  extend := fun {w i items} _ hitems =>
    have hstep := Step.extend w.store i items
    ⟨w.next hstep fun v hv => (Store.holds_extendVector hv).imp_right (hitems v), w.defers hstep,
      rfl⟩
  items := fun {w i _} _ hx => w.holds _ (Or.inr ⟨i, hx⟩)
  enter := fun {w f} _ =>
    have hstep := Step.enter w.store f
    ⟨w.next hstep fun _ hv =>
        Or.inl (hv.congr (w.store.frames_enter f) (w.store.vectors_enter f)), w.defers hstep, rfl⟩
  leave := fun {w f} _ =>
    have hstep := Step.leave w.store f
    ⟨w.next hstep fun _ hv =>
        Or.inl (hv.congr (w.store.frames_leave f) (w.store.vectors_leave f)), w.defers hstep, rfl⟩

/-- A computation that keeps the realm only redefines the frames that are not held. -/
theorem Redefines.of_runs {α : Type} {w : Custody hand} {x : Eval α} {Q : Custody hand → α → Prop}
    (h : hand.realm.Runs w x Q) (hf : ¬ hand.held f) :
    hand.Redefines f w.store (x w.store).2 := by
  obtain ⟨w', hdefers, hstore, -⟩ := h
  exact hstore ▸ hdefers.redefines f hf

end Hand

namespace Store

section Start

variable (s : Store) (scope : FrameId) (given : List Value)

/-- A value occurs in what is given or in the store. -/
def Has (part : Value) : Prop := ∃ v, (v ∈ given ∨ s.Holds v) ∧ part.Occurs v

/-- What is in hand when values are evaluated or called in a scope. Held are this scope, the frames
for which a scope occurs in the values or in the store, and the frames that are still to be made.
Children may also be made of what the closures that occur there were made over. -/
def hand : Hand where
  held f := f = scope ∨ s.Has given (.scope f) ∨ s.frames.size ≤ f
  captured f := (f = scope ∨ s.Has given (.scope f) ∨ s.frames.size ≤ f) ∨
    ∃ part, s.Has given part ∧ part.ref? = some (.frame f)
  captured_of_held := Or.inl

theorem covers_of_has {part : Value} (h : s.Has given part) : (s.hand scope given).Covers part := by
  refine ⟨?_, fun f hf => Or.inr ⟨part, h, hf⟩⟩
  rintro f rfl
  exact Or.inr (Or.inl h)

/-- The start of an evaluation. -/
def custody : Hand.Custody (s.hand scope given) where
  store := s
  fresh _ hf := Or.inr (Or.inr hf)
  holds v hv _ hpart := s.covers_of_has scope given ⟨v, Or.inr hv, hpart⟩

theorem covers_of_mem_given {v : Value} (hv : v ∈ given) :
    (s.hand scope given).realm.value (s.custody scope given) v :=
  fun _ hpart => s.covers_of_has scope given ⟨v, Or.inl hv, hpart⟩

end Start

/-- Names are introduced only where the scope is held. Evaluating a form, whether it succeeds or
fails, leaves every other frame with the very names that it had, and the values there change only by
definitions from elsewhere that find the name in that frame. So does calling a value, and it does
not matter over which frame the value is a closure. -/
theorem names_introduced_in_hand (s : Store) (scope : FrameId) :
    (∀ (form : Value) (f : FrameId), ¬ (s.hand scope [form]).held f →
      Assoc.keys ((evaluate form scope s).2.bindings f) = Assoc.keys (s.bindings f) ∧
        (s.hand scope [form]).Redefines f s (evaluate form scope s).2) ∧
    ∀ (callee : Value) (args : List Value) (f : FrameId),
      ¬ (s.hand scope (callee :: args)).held f →
      Assoc.keys ((call scope callee args s).2.bindings f) = Assoc.keys (s.bindings f) ∧
        (s.hand scope (callee :: args)).Redefines f s (call scope callee args s).2 := by
  refine ⟨fun form f hf => ?_, fun callee args f hf => ?_⟩
  · have hform := s.covers_of_mem_given scope [form] (List.mem_singleton_self form)
    have hredefines := Hand.Redefines.of_runs (Realm.runs_evaluate hform (Or.inl rfl)) hf
    exact ⟨hredefines.keys_bindings, hredefines⟩
  · have hgiven := fun v => s.covers_of_mem_given scope (callee :: args) (v := v)
    have hheld : (s.hand scope (callee :: args)).held scope := Or.inl rfl
    have hruns := Realm.runs_call hheld (hgiven callee (by simp))
      fun v (hv : v ∈ args) => hgiven v (by simp [hv])
    have hredefines := Hand.Redefines.of_runs hruns hf
    exact ⟨hredefines.keys_bindings, hredefines⟩

/-- An engine with a frame below its root that binds `x`. -/
def belowRoot : Store :=
  ((Store.empty.withEngine .empty {}).addFrame (some 0) 0).2.bindAll 1 [("x", .int 1)]

/-- A closure over the second frame that redefines `x` and defines `y`. -/
def redefiner : Value :=
  .callable (.function 0 1 []
    [.list 1 [.sym "define", .sym "x", .int 2], .list 2 [.sym "define", .sym "y", .int 3]])

theorem all_of_belowRoot {p : Value → Prop} (hp : ∀ v, v.IsPlain → p v) {v : Value}
    (hv : belowRoot.Holds v) : v.All p := by
  rcases holds_bindAll hv with hv | ⟨pair, hpair, rfl⟩
  · rcases holds_bindAll (holds_addFrame hv) with hv | ⟨pair, hpair, rfl⟩
    · rcases holds_addFrame hv with ⟨f, name, h⟩ | ⟨i, h⟩
      · simp [bindings, addRuntime, empty] at h
      · simp [vector, addRuntime, empty] at h
    · exact Engine.all_of_mem_seed hp hpair
  · obtain rfl := List.mem_singleton.1 hpair
    exact Value.all_of_plain hp trivial trivial

/-- The closure is called from the root: `x` gets its new value in the frame that was closed over,
and `y` is not introduced there. -/
theorem names_introduced_in_hand_closure :
    ¬ (belowRoot.hand 0 [redefiner]).held 1 ∧
      Assoc.keys ((call 0 redefiner [] belowRoot).2.bindings 1) = ["x"] ∧
      ((call 0 redefiner [] belowRoot).2.get 1 "x").display = "2" := by
  have hplain : ∀ v : Value, v.IsPlain → v ≠ .scope 1 := by
    rintro v hv rfl
    exact hv.elim
  have hsym : ∀ name, (Value.sym name).All (· ≠ .scope 1) :=
    fun _ => Value.all_of_plain hplain trivial trivial
  have hint : ∀ n, (Value.int n).All (· ≠ .scope 1) :=
    fun _ => Value.all_of_plain hplain trivial trivial
  have hclosure : redefiner.All (· ≠ .scope 1) := by
    simp [redefiner, Value.all_function, Value.all_list, hsym, hint]
  have hheld : ¬ (belowRoot.hand 0 [redefiner]).held 1 := by
    rintro (h | ⟨v, hv | hv, hoccurs⟩ | h)
    · cases h
    · obtain rfl := List.mem_singleton.1 hv
      exact hclosure _ hoccurs rfl
    · exact all_of_belowRoot hplain hv _ hoccurs rfl
    · exact absurd h (by decide +kernel)
  have hkeys := ((names_introduced_in_hand belowRoot 0).2 redefiner [] 1 hheld).1
  exact ⟨hheld, hkeys.trans (by decide +kernel), by decide +kernel⟩

end Store

end ConfinedLisp
