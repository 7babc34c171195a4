import ConfinedLisp.Proofs.Isolation
import ConfinedLisp.Proofs.TableIndex
import ConfinedLisp.Proofs.Underway

/-!
# Every table was built

What is known of a table, such as that its index is right, is known because it came about by inserting.
No program gets hold of any other table: if every table that is in hand or in the store was built, then
this is so at every moment of an evaluation and when it is over. A host builds its own tables entry by
entry too, so this is so in every store that it can come to.

## Main definitions

- `Store.Tidy`: every table in hand or in the store was built.
- `Realm.tidy`: the realm of this.

## Main results

- `Store.Tidy.evaluated`, `Store.Tidy.values`: what evaluation gives is tidy.
- `Store.Tidy.throughout`: so is everything whenever the evaluation of a form begins.
- `Reachable.tidy`: every store that a host can come to is tidy.
- `Session.tidy`: whatever engines evaluate, their store stays tidy.
-/

namespace ConfinedLisp

theorem Value.tidy_of_plain {v : Value} (h : v.IsPlain) : v.Tidy := by
  rintro t rfl
  exact h

/-- Every table that is in hand or in the store, or inside of something there, was built. -/
def Store.Tidy (s : Store) (hand : List Value) : Prop := ∀ v, s.Has hand v → v.Tidy

/-- The realm of stores in which every table was built. -/
def Realm.tidy : Realm {s : Store // ∀ v, s.Holds v → v.All Value.Tidy} where
  store w := w.1
  later w w' := w.1.Grows w'.1
  later_refl w := .refl w.1
  later_trans h h' := h.trans h'
  grows h := h
  part _ := Value.Tidy
  part_later _ h := h
  part_plain _ _ := Value.tidy_of_plain
  scope _ _ := True
  part_scope := ⟨fun _ => trivial, fun _ _ h => by cases h⟩
  captured _ _ := True
  captured_of_scope h := h
  part_function := ⟨fun _ => trivial, fun _ _ h => by cases h⟩
  part_operative := ⟨fun _ => trivial, fun _ _ h => by cases h⟩
  runs _ _ := True
  runs_foreign _ := trivial
  runs_constructor _ _ := trivial
  part_foreign _ _ _ _ h := by cases h
  part_constructor _ _ _ _ h := by cases h
  part_static _ _ _ _ _ h := by cases h
  get := by
    intro w f name _
    rcases w.1.get_spec (P := fun _ => True) (fun _ _ _ _ => trivial) trivial name with
      hnil | ⟨g, -, hg⟩
    · rw [hnil]
      exact Value.all_of_plain (fun _ => Value.tidy_of_plain) trivial trivial
    · exact w.2 _ (Or.inl ⟨g, name, hg⟩)
  fresh := fun {w} items _ =>
    ⟨⟨w.1.freshened, w.2⟩, w.1.grows_freshened, rfl, fun _ h => by cases h⟩
  bindAll := fun {w f pairs} _ hpairs => by
    refine ⟨⟨w.1.bindAll f pairs, fun v hv => ?_⟩, w.1.grows_bindAll f pairs, rfl⟩
    rcases Store.holds_bindAll hv with hv | ⟨pair, hpair, rfl⟩
    · exact w.2 v hv
    · exact hpairs pair hpair
  define := fun {w f v} name _ hv => by
    refine ⟨⟨w.1.define f name v, fun x hx => ?_⟩, w.1.grows_define f name v, rfl⟩
    rcases Store.holds_define hx with hx | rfl
    · exact w.2 x hx
    · exact hv
  child := fun {w _} _ =>
    ⟨⟨_, fun v hv => w.2 v (Store.holds_addFrame hv)⟩, w.1.grows_addFrame _ _, rfl, trivial⟩
  detached := fun {w _} _ =>
    ⟨⟨_, fun v hv => w.2 v (Store.holds_addFrame hv)⟩, w.1.grows_addFrame _ _, rfl, trivial⟩
  vector := fun {w items} _ hitems =>
    ⟨⟨_, fun v hv => (Store.holds_addVector hv).elim (w.2 v) (hitems v)⟩,
      w.1.grows_addVector items, rfl, fun _ h => by cases h⟩
  extend := fun {w i items} _ hitems =>
    ⟨⟨_, fun v hv => (Store.holds_extendVector hv).elim (w.2 v) (hitems v)⟩,
      w.1.grows_extendVector i items, rfl⟩
  items := fun {w i x} _ hx => w.2 x (Or.inr ⟨i, hx⟩)
  enter := fun {w f} _ =>
    ⟨⟨_, fun v hv => w.2 v (hv.congr (w.1.frames_enter f) (w.1.vectors_enter f))⟩,
      w.1.grows_enter f, rfl⟩
  leave := fun {w f} _ =>
    ⟨⟨_, fun v hv => w.2 v (hv.congr (w.1.frames_leave f) (w.1.vectors_leave f))⟩,
      w.1.grows_leave f, rfl⟩

namespace Store

variable {s t : Store} {hand : List Value}

theorem tidy_iff : s.Tidy hand ↔
    (∀ v, s.Holds v → v.All Value.Tidy) ∧ ∀ v ∈ hand, v.All Value.Tidy := by
  constructor
  · intro h
    exact ⟨fun v hv part hpart => h part ⟨v, Or.inr hv, hpart⟩,
      fun v hv part hpart => h part ⟨v, Or.inl hv, hpart⟩⟩
  · rintro ⟨hstore, hhand⟩ part ⟨v, hv | hv, hpart⟩
    · exact hhand v hv part hpart
    · exact hstore v hv part hpart

namespace Tidy

/-- What can be found can be taken in hand. -/
theorem of_has (h : s.Tidy hand) {vs : List Value} (hvs : ∀ v ∈ vs, s.Has hand v) : s.Tidy vs := by
  refine tidy_iff.2 ⟨(tidy_iff.1 h).1, fun v hv part hpart => ?_⟩
  obtain ⟨x, hx, hocc⟩ := hvs v hv
  exact h part ⟨x, hx, hpart.trans hocc⟩

/-- What a computation that keeps the realm leaves behind and hands out. -/
theorem runs {α : Type} {x : Eval α} {values : α → List Value} (h : s.Tidy hand)
    (hx : ∀ w, Realm.tidy.values w hand → Realm.tidy.Runs w x fun w' a =>
      Realm.tidy.values w' (values a)) :
    (x s).2.Tidy (Eval.handed values (x s).1 ++ hand) := by
  obtain ⟨hstore, hhand⟩ := tidy_iff.1 h
  obtain ⟨w, -, hw, -, hvalues⟩ := hx ⟨s, hstore⟩ hhand
  have hw : w.1 = (x s).2 := hw
  refine tidy_iff.2 ⟨hw ▸ w.2, fun v hv => ?_⟩
  rcases List.mem_append.1 hv with hv | hv
  · cases hresult : (x s).1 with
    | error halt => simp [hresult, Eval.handed] at hv
    | ok a =>
      rw [hresult] at hv
      exact hvalues a hresult v hv
  · exact hhand v hv

/-- One more value in hand in which every table was built. -/
theorem cons {v : Value} (h : s.Tidy hand) (hv : v.All Value.Tidy) : s.Tidy (v :: hand) := by
  obtain ⟨hstore, hhand⟩ := tidy_iff.1 h
  refine tidy_iff.2 ⟨hstore, fun x hx => ?_⟩
  rcases List.mem_cons.1 hx with rfl | hx
  · exact hv
  · exact hhand x hx

/-- A store that holds nothing else than another one, and values in hand. -/
theorem of_holds (h : s.Tidy hand) (hholds : ∀ v, t.Holds v → s.Holds v ∨ v ∈ hand) : t.Tidy hand := by
  obtain ⟨hstore, hhand⟩ := tidy_iff.1 h
  exact tidy_iff.2 ⟨fun v hv => (hholds v hv).elim (hstore v) (hhand v), hhand⟩

/-- Every table in a value in hand was built. -/
theorem all (h : s.Tidy hand) {v : Value} (hv : v ∈ hand) : v.All Value.Tidy := (tidy_iff.1 h).2 v hv

/-- Evaluating a form that is in hand. -/
theorem evaluated (h : s.Tidy hand) {form : Value} (hform : form ∈ hand) (scope : FrameId)
    (fuel : Nat) :
    (evaluateWithin fuel form scope s).2.Tidy
      (Eval.handed ([·]) (evaluateWithin fuel form scope s).1 ++ hand) := by
  refine h.runs fun w hhand => ?_
  refine (Judgment.keeping Realm.tidy).mono
    (Realm.respects_evaluateWithin fuel w form scope (hhand form hform) trivial) fun w' v _ hv => ?_
  exact Realm.values_cons.2 ⟨hv, Realm.values_nil⟩

/-- Evaluating forms that are in hand, in turn. -/
theorem values (h : s.Tidy hand) {forms args : List Value} (hforms : forms ⊆ hand)
    {scope : FrameId} {fuel : Nat}
    (hrun : (evaluateWithin fuel).values scope forms s = (.ok args, t)) : t.Tidy (args ++ hand) := by
  have htidy : ((evaluateWithin fuel).values scope forms s).2.Tidy
      (Eval.handed id ((evaluateWithin fuel).values scope forms s).1 ++ hand) :=
    h.runs fun w hhand => Judgment.evaluateValues (Realm.respects_evaluateWithin fuel) trivial
      fun v hv => hhand v (hforms hv)
  rwa [hrun] at htidy

/-- Whenever the evaluation of a form begins, in the course of evaluating a form that is in hand,
that form can be taken in hand and everything is tidy. -/
theorem throughout (h : s.Tidy hand) {form : Value} (hform : form ∈ hand) (scope : FrameId)
    (fuel : Nat) : HoldsThroughout (fun form _ t => t.Tidy [form]) fuel form scope s := by
  intro o ho
  obtain ⟨hstore, hhand⟩ := tidy_iff.1 h
  have hbegin : ∀ w form (scope : FrameId), Realm.tidy.value w form → Realm.tidy.scope w scope →
      (Realm.tidy.store w).Tidy [form] := fun w form _ hform _ =>
    tidy_iff.2 ⟨w.2, fun v hv => List.mem_singleton.1 hv ▸ hform⟩
  exact (Realm.respects_watched ho hbegin fuel ⟨s, hstore⟩ form scope (hhand form hform) trivial).2
    trivial

/-- Evaluating a text. -/
theorem evalSource (h : s.Tidy hand) (engine : Engine) (source : String) :
    (engine.evalSource source s).2.Tidy
      (Eval.handed ([·]) (engine.evalSource source s).1 ++ hand) := by
  refine h.runs fun w _ => ?_
  refine (Judgment.keeping Realm.tidy).mono (y := engine.evalSource source)
    (Realm.runs_evalNamed engine Engine.defaultSourceName source trivial) fun w' v _ hv => ?_
  exact Realm.values_cons.2 ⟨hv, Realm.values_nil⟩

/-- Making an engine. -/
theorem withEngine (h : s.Tidy hand) (registry : Registry) (limits : Limits) :
    (s.withEngine registry limits).Tidy hand := by
  obtain ⟨hstore, hhand⟩ := tidy_iff.1 h
  refine tidy_iff.2 ⟨fun v hv => ?_, hhand⟩
  rcases holds_bindAll hv with hv | ⟨pair, hpair, rfl⟩
  · exact hstore v ((holds_addFrame hv).congr rfl rfl)
  · exact Engine.all_of_mem_seed (fun _ => Value.tidy_of_plain) hpair

end Tidy

theorem tidy_empty : Store.empty.Tidy [] := by
  refine tidy_iff.2 ⟨fun v hv => ?_, fun v hv => by cases hv⟩
  rcases hv with ⟨f, name, hv⟩ | ⟨i, hv⟩
  · simp [bindings, empty] at hv
  · simp [vector, empty] at hv

end Store

/-- Every store that a host can come to is tidy, with the values that it can have in hand. -/
theorem Reachable.tidy {s : Store} {given : List Value} (h : Reachable s given) : s.Tidy given := by
  have hplain : ∀ v : Value, v.IsPlain → v.IsLeaf → v.All Value.Tidy :=
    fun v => Value.all_of_plain fun _ => Value.tidy_of_plain
  have hscope : ∀ f, (Value.scope f).All Value.Tidy := fun f =>
    (Value.IsLeaf.all_iff (v := .scope f) trivial).2 fun _ h => by cases h
  induction h with
  | start => exact Store.tidy_empty
  | create _ hcreate ih =>
    rw [Engine.create_eq] at hcreate
    cases hcreate
    exact (ih.withEngine _ _).cons (hscope _)
  | drop _ _ ih => exact ih.of_holds fun v hv => Or.inl (Store.holds_clear hv)
  | read sourceName source _ ih =>
    refine ih.runs fun w _ => ?_
    unfold Eval.readForms
    split
    · next forms _ => exact (Judgment.keeping Realm.tidy).ofForms forms w
    · exact Realm.runs_halt rfl
  | evaluated _ hform _ ih => exact ih.evaluated hform _ _
  | @called s given args callee scope _ hcallee hargs _ ih =>
    refine ih.runs fun w hgiven => ?_
    refine (Judgment.keeping Realm.tidy).mono (y := call scope callee args)
      (Realm.runs_call trivial (hgiven _ hcallee) fun v hv => hgiven v (hargs hv)) fun w' v _ hv => ?_
    exact Realm.values_cons.2 ⟨hv, Realm.values_nil⟩
  | lookup name _ _ ih =>
    obtain ⟨hstore, -⟩ := Store.tidy_iff.1 ih
    exact ih.cons (Realm.tidy.get (w := ⟨_, hstore⟩) name trivial)
  | define name _ _ hv ih =>
    refine ih.of_holds fun x hx => ?_
    rcases Store.holds_define hx with hx | rfl
    · exact Or.inl hx
    · exact Or.inr hv
  | bind name _ _ hv ih =>
    refine ih.of_holds fun x hx => ?_
    have hx : (Store.bindAll _ _ [(name, _)]).Holds x := hx
    rcases Store.holds_bindAll hx with hx | ⟨pair, hpair, rfl⟩
    · exact Or.inl hx
    · rw [List.mem_singleton.1 hpair]
      exact Or.inr hv
  | child _ _ ih | detached _ _ ih =>
    exact (ih.of_holds fun x hx => Or.inl (Store.holds_addFrame hx)).cons (hscope _)
  | list items _ hitems ih =>
    refine (ih.of_holds fun x hx => Or.inl (hx.congr rfl rfl)).cons (Value.all_list.2 ⟨?_, ?_⟩)
    · exact fun _ h => by cases h
    · exact fun v hv => ih.all (hitems hv)
  | table _ hbuilt hvalues ih =>
    exact ih.cons (Value.all_array.2 ⟨hbuilt.tidy, fun v hv => ih.all (hvalues hv)⟩)
  | copy p _ ih =>
    exact (ih.of_holds fun x hx => Or.inl (hx.congr rfl rfl)).cons (hplain _ trivial trivial)
  | plain _ hplain' hleaf _ ih => exact ih.cons (hplain _ hplain' hleaf)
  | part _ hv hpart ih => exact ih.cons fun p hp => ih.all hv p (hp.trans hpart)

/-- Whatever the engines of a session evaluate, every table in their store was built. -/
theorem Session.tidy {engines : List Engine} {s : Store} (h : Session engines s) : s.Tidy [] := by
  induction h with
  | start => exact Store.tidy_empty
  | create _ hcreate ih =>
    rw [Engine.create_eq] at hcreate
    cases hcreate
    exact ih.withEngine _ _
  | eval source _ _ ih => exact (ih.evalSource _ source).of_has fun v hv => by cases hv

end ConfinedLisp
