import ConfinedLisp.Proofs.Observation
import ConfinedLisp.Proofs.StoreHistory

/-!
# In the course of evaluation

Between the moments at which a host has a store to itself, evaluation takes elementary steps: it
looks at values, gives identities away, binds names, makes frames and vectors, and charges budgets.
Whatever has been seen stays in hand, even where nothing refers to it any more.

## Main definitions

- `Underway`: a store that comes about in the course of evaluation, and all that is in hand then.
- `Watcher`: what is done before a form is evaluated.

## Main results

- `Underway.isRecorded`: lists keep their items.
- `Underway.throughout`: whenever the evaluation of a form begins, the store is underway.
-/

namespace ConfinedLisp

namespace Store

/-- What a list may be, given what is in hand, and what a reference to a frame may be. -/
def Shows (s : Store) (hand : List Value) (v : Value) : Prop :=
  (∀ id items, v = .list id items → s.Has hand v) ∧
    ∀ f, v.ref? = some (.frame f) → f < s.frames.size

/-- A value that can be taken in hand: its lists are in hand or in the store, and its frames are
there. -/
def Around (s : Store) (hand : List Value) (v : Value) : Prop := v.All (s.Shows hand)

end Store

/-- A store that comes about in the course of evaluation, and what is in hand then. -/
inductive Underway : Store → List Value → Prop where
  | reachable {s : Store} {given : List Value} : Reachable s given → Underway s given
  | take {s : Store} {hand : List Value} {v : Value} :
      Underway s hand → s.Around hand v → Underway s (v :: hand)
  | list {s : Store} {hand : List Value} (items : List Value) :
      Underway s hand → items ⊆ hand → Underway s.freshened (.list s.nextIdentity items :: hand)
  | bind {s : Store} {hand : List Value} {v : Value} (f : FrameId) (name : String) :
      Underway s hand → v ∈ hand → Underway (s.bind f name v) hand
  | frame {s : Store} {hand : List Value} {parent : Option FrameId} (runtime : RuntimeId) :
      Underway s hand → (∀ p, parent = some p → p < s.frames.size) →
        Underway (s.addFrame parent runtime).2 hand
  | vector {s : Store} {hand : List Value} (items : List Value) :
      Underway s hand → items ⊆ hand → Underway (s.addVector items).2 hand
  | extend {s : Store} {hand : List Value} (i : VectorId) (items : List Value) :
      Underway s hand → items ⊆ hand → Underway (s.extendVector i items) hand
  | enter {s : Store} {hand : List Value} (f : FrameId) :
      Underway s hand → Underway (s.enter f).2 hand
  | leave {s : Store} {hand : List Value} (f : FrameId) :
      Underway s hand → Underway (s.leave f) hand

namespace Store

variable {s t : Store} {hand hand' : List Value} {v : Value}

theorem Has.of_mem (h : v ∈ hand) : s.Has hand v := ⟨v, Or.inl h, .self⟩

theorem Has.mono (h : s.Has hand v) (hhand : hand ⊆ hand')
    (hholds : ∀ x, s.Holds x → t.Holds x ∨ x ∈ hand') : t.Has hand' v := by
  obtain ⟨x, hx | hx, hv⟩ := h
  · exact ⟨x, Or.inl (hhand hx), hv⟩
  · exact ⟨x, (hholds x hx).symm, hv⟩

/-- A value without a list, in which frames are there. -/
theorem Shows.of_recorded (h : v.Recorded (fun _ => none) s.frames.size) : s.Shows hand v :=
  ⟨fun id items hv => absurd (h.1 id items hv) nofun, h.2⟩

theorem Shows.iff_of_ref? {f : FrameId} (hlist : ∀ id items, v ≠ .list id items)
    (hframe : v.ref? = some (.frame f)) : s.Shows hand v ↔ f < s.frames.size :=
  ⟨fun h => h.2 f hframe, fun h => .of_recorded ((Value.Recorded.iff_of_ref? hlist hframe).2 h)⟩

end Store

namespace Underway

open Reachable

variable {s t : Store} {hand : List Value} {v : Value}

/-- In the course of evaluation, too, there is a record of the items of lists. -/
theorem isRecorded (h : Underway s hand) : IsRecorded s hand := by
  induction h with
  | reachable h => exact h.isRecorded
  | take _ hv ih =>
    refine ih.cons fun w hstore hhand part hpart => ?_
    subst hstore
    obtain ⟨hlist, hframe⟩ := hv part hpart
    exact ⟨fun id items heq => (part_of_has hhand (hlist id items heq)).1 id items heq, hframe⟩
  | list items _ hitems ih => exact ih.list hitems
  | bind f name _ hv ih => exact ih.bind f name hv
  | frame runtime _ hparent ih =>
    refine ih.step fun w hstore _ => ?_
    subst hstore
    obtain ⟨w', hw, hstore, -⟩ := w.exists_addFrame _ runtime hparent
    exact ⟨w', hw, hstore⟩
  | vector items _ hitems ih =>
    refine ih.step fun w hstore hhand => ?_
    subst hstore
    obtain ⟨w', hw, hstore, -⟩ := Annals.realm.vector trivial fun v hv => hhand v (hitems hv)
    exact ⟨w', hw, hstore⟩
  | extend i items _ hitems ih =>
    refine ih.step fun w hstore hhand => ?_
    subst hstore
    exact Annals.realm.extend (.of_other nofun nofun) fun v hv => hhand v (hitems hv)
  | enter f _ ih =>
    refine ih.step fun w hstore _ => ?_
    subst hstore
    exact w.exists_congr (w.store.grows_enter f) (w.store.frames_enter f) (w.store.vectors_enter f)
  | leave f _ ih =>
    refine ih.step fun w hstore _ => ?_
    subst hstore
    exact w.exists_congr (w.store.grows_leave f) (w.store.frames_leave f) (w.store.vectors_leave f)

/-- Whatever occurs in hand or in the store can be taken in hand. -/
theorem around_of_has (h : Underway s hand) (hv : s.Has hand v) : s.Around hand v := by
  obtain ⟨w, rfl, hhand⟩ := h.isRecorded
  intro part hpart
  have hhas : w.store.Has hand part := by
    obtain ⟨x, hx, hocc⟩ := hv
    exact ⟨x, hx, hpart.trans hocc⟩
  exact ⟨fun _ _ _ => hhas, (part_of_has hhand hhas).2⟩

/-- Values that can be taken in hand are taken one after the other. -/
theorem takeAll {vs : List Value} (h : Underway s hand) (hvs : ∀ v ∈ vs, s.Around hand v) :
    Underway s (vs ++ hand) := by
  induction vs with
  | nil => exact h
  | cons v rest ih =>
    have hrest := ih fun x hx => hvs x (List.mem_cons_of_mem _ hx)
    have hv := hvs v List.mem_cons_self
    refine hrest.take (hv.mono fun part hpart => ⟨fun id items hlist => ?_, hpart.2⟩)
    exact (hpart.1 id items hlist).mono (List.subset_append_right _ _) fun x => Or.inl

theorem bindAll {pairs : List (String × Value)} (h : Underway s hand) (f : FrameId)
    (hpairs : ∀ pair ∈ pairs, pair.2 ∈ hand) : Underway (s.bindAll f pairs) hand := by
  induction pairs generalizing s with
  | nil => exact h
  | cons pair rest ih =>
    exact ih (h.bind f pair.1 (hpairs pair List.mem_cons_self)) fun x hx =>
      hpairs x (List.mem_cons_of_mem _ hx)

end Underway

/-! ### The realm of what comes about -/

/-- A moment in the course of evaluation, after some values have been taken in hand. -/
structure Course (first : List Value) where
  store : Store
  hand : List Value
  underway : Underway store hand
  kept : first ⊆ hand

namespace Course

variable {first : List Value}

/-- The store has grown, and whatever could be found can still be found. -/
structure Later (w w' : Course first) : Prop where
  grows : w.store.Grows w'.store
  has : ∀ v, w.store.Has w.hand v → w'.store.Has w'.hand v

variable {w w' : Course first} {t : Store} {v : Value}

theorem Later.shows (h : Later w w') (hv : w.store.Shows w.hand v) : w'.store.Shows w'.hand v :=
  ⟨fun id items hlist => h.has v (hv.1 id items hlist),
    fun f hf => Nat.lt_of_lt_of_le (hv.2 f hf) h.grows.frameCount⟩

/-- A step that makes use of some values, after these have been taken in hand. -/
theorem exists_later {vs : List Value} (hvs : ∀ v ∈ vs, w.store.Around w.hand v)
    (hstep : Underway w.store (vs ++ w.hand) → Underway t (vs ++ w.hand))
    (hgrows : w.store.Grows t) (hholds : ∀ x, w.store.Holds x → t.Holds x ∨ x ∈ vs) :
    ∃ w', Later w w' ∧ w'.store = t := by
  have hkept : first ⊆ vs ++ w.hand := fun v hv => List.mem_append_right _ (w.kept hv)
  refine ⟨⟨t, vs ++ w.hand, hstep (w.underway.takeAll hvs), hkept⟩, ⟨hgrows, fun v hv => ?_⟩, rfl⟩
  exact hv.mono (List.subset_append_right _ _) fun x hx =>
    (hholds x hx).imp_right (List.mem_append_left _)

/-- A step that makes use of no value. -/
theorem exists_congr (hstep : Underway w.store w.hand → Underway t w.hand)
    (hgrows : w.store.Grows t) (hholds : ∀ x, w.store.Holds x → t.Holds x) :
    ∃ w', Later w w' ∧ w'.store = t := by
  have hnone : ∀ v ∈ ([] : List Value), w.store.Around w.hand v := fun v hv => by cases hv
  exact exists_later hnone hstep hgrows fun x hx => Or.inl (hholds x hx)

/-- Binding names. What the frame has bound so far is taken in hand first. -/
theorem exists_bindAll (w : Course first) (f : FrameId) {pairs : List (String × Value)}
    (hpairs : ∀ pair ∈ pairs, w.store.Around w.hand pair.2) :
    ∃ w', Later w w' ∧ w'.store = w.store.bindAll f pairs := by
  let vs := pairs.map Prod.snd ++ (w.store.bindings f).map Prod.snd
  have hvs : ∀ v ∈ vs, w.store.Around w.hand v := by
    intro v hv
    rcases List.mem_append.1 hv with hv | hv
    · obtain ⟨pair, hpair, rfl⟩ := List.mem_map.1 hv
      exact hpairs pair hpair
    · obtain ⟨pair, hpair, rfl⟩ := List.mem_map.1 hv
      exact w.underway.around_of_has ⟨pair.2, Or.inr (Or.inl ⟨f, pair.1, hpair⟩), .self⟩
  refine exists_later hvs (fun h => h.bindAll f fun pair hpair => ?_)
    (w.store.grows_bindAll f pairs) fun x hx => ?_
  · exact List.mem_append_left _ (List.mem_append_left _ (List.mem_map_of_mem hpair))
  · rcases hx with ⟨g, name, hx⟩ | ⟨i, hx⟩
    · by_cases hfg : f = g
      · subst hfg
        exact Or.inr (List.mem_append_right _ (List.mem_map_of_mem hx))
      · refine Or.inl (Or.inl ⟨g, name, ?_⟩)
        rwa [Store.bindings, Store.frames_bindAll_of_ne hfg]
    · refine Or.inl (Or.inr ⟨i, ?_⟩)
      rwa [Store.vector, Store.vectors_bindAll]

theorem exists_addFrame (w : Course first) {parent : Option FrameId} (runtime : RuntimeId)
    (hparent : ∀ p, parent = some p → p < w.store.frames.size) :
    ∃ w', Later w w' ∧ w'.store = (w.store.addFrame parent runtime).2 ∧
      w.store.frames.size < w'.store.frames.size := by
  have hholds : ∀ x, w.store.Holds x → (w.store.addFrame parent runtime).2.Holds x := by
    rintro x (⟨g, name, hx⟩ | hx)
    · exact Or.inl ⟨g, name, by rwa [Store.bindings_addFrame]⟩
    · exact Or.inr hx
  obtain ⟨w', hw, hstore⟩ := exists_congr (fun h => h.frame runtime hparent)
    (w.store.grows_addFrame parent runtime) hholds
  exact ⟨w', hw, hstore, by simp [hstore, Store.addFrame]⟩

/-- Vectors that have grown hold what they held. -/
theorem holds_of_grows {s t : Store} (h : s.Grows t) (hframes : t.frames = s.frames) {x : Value}
    (hx : s.Holds x) : t.Holds x := by
  rcases hx with ⟨g, name, hx⟩ | ⟨i, hx⟩
  · exact Or.inl ⟨g, name, by rwa [Store.bindings, hframes]⟩
  · refine Or.inr ⟨i, ?_⟩
    unfold Store.vector at hx ⊢
    cases hitems : s.vectors[i]? with
    | none => simp [hitems] at hx
    | some items =>
      obtain ⟨items', hitems', hext⟩ := h.vectors i items hitems
      rw [hitems] at hx
      rw [hitems']
      exact List.IsPrefix.subset hext hx

/-- The realm of what comes about in the course of evaluation. -/
def realm (first : List Value) : Realm (Course first) where
  store := store
  later := Later
  later_refl w := ⟨.refl _, fun _ h => h⟩
  later_trans h h' := ⟨h.grows.trans h'.grows, fun v hv => h'.has v (h.has v hv)⟩
  grows h := h.grows
  part w := w.store.Shows w.hand
  part_later := Later.shows
  part_plain _ _ hv := .of_recorded (.of_plain hv)
  scope w f := f < w.store.frames.size
  part_scope := Store.Shows.iff_of_ref? nofun rfl
  captured w f := f < w.store.frames.size
  captured_of_scope h := h
  part_function := Store.Shows.iff_of_ref? nofun rfl
  part_operative := Store.Shows.iff_of_ref? nofun rfl
  runs _ _ := True
  runs_foreign _ := trivial
  runs_constructor _ _ := trivial
  part_foreign _ _ _ := .of_recorded (.of_other nofun nofun)
  part_constructor _ _ _ := .of_recorded (.of_other nofun nofun)
  part_static _ _ _ _ := .of_recorded (.of_other nofun nofun)
  get := by
    intro w f name _
    rcases w.store.get_spec (P := fun _ => True) (fun _ _ _ _ => trivial) trivial name with
      hnil | ⟨g, -, hg⟩
    · rw [hnil]
      exact Value.all_of_plain (fun _ hv => .of_recorded (.of_plain hv)) trivial trivial
    · exact w.underway.around_of_has ⟨_, Or.inr (Or.inl ⟨g, name, hg⟩), .self⟩
  fresh := by
    intro w items hitems
    have hmade := (w.underway.takeAll hitems).list items (List.subset_append_left _ _)
    have hkept : w.hand ⊆ .list w.store.nextIdentity items :: (items ++ w.hand) :=
      fun x hx => List.mem_cons_of_mem _ (List.mem_append_right _ hx)
    refine ⟨⟨_, _, hmade, List.Subset.trans w.kept hkept⟩,
      ⟨w.store.grows_freshened, fun v hv => ?_⟩, rfl,
      ⟨fun _ _ _ => .of_mem List.mem_cons_self, nofun⟩⟩
    exact hv.mono hkept fun _ => Or.inl
  bindAll := fun {w f _} _ hpairs => w.exists_bindAll f hpairs
  define := by
    intro w f v name _ hv
    have hpairs : ∀ pair ∈ [(name, v)], w.store.Around w.hand pair.2 := by
      intro pair hpair
      obtain rfl := List.mem_singleton.1 hpair
      exact hv
    exact w.exists_bindAll ((w.store.holder? f name).getD f) hpairs
  child := fun {w _} hf => w.exists_addFrame _ fun p hp => by
    cases hp
    exact hf
  detached := fun {w _} _ => w.exists_addFrame _ nofun
  vector := by
    intro w items _ hitems
    obtain ⟨w', hw, hstore⟩ := exists_later hitems
      (fun h => h.vector items (List.subset_append_left _ _)) (w.store.grows_addVector items)
      fun x hx => Or.inl (holds_of_grows (w.store.grows_addVector items) rfl hx)
    exact ⟨w', hw, hstore, .of_recorded (.of_other nofun nofun)⟩
  extend := by
    intro w i items _ hitems
    exact exists_later hitems (fun h => h.extend i items (List.subset_append_left _ _))
      (w.store.grows_extendVector i items)
      fun x hx => Or.inl (holds_of_grows (w.store.grows_extendVector i items) rfl hx)
  items := fun {w i x} _ hx => w.underway.around_of_has ⟨x, Or.inr (Or.inr ⟨i, hx⟩), .self⟩
  enter := fun {w f} _ => exists_congr (fun h => h.enter f) (w.store.grows_enter f) fun _ hx =>
    hx.congr (w.store.frames_enter f).symm (w.store.vectors_enter f).symm
  leave := fun {w f} _ => exists_congr (fun h => h.leave f) (w.store.grows_leave f) fun _ hx =>
    hx.congr (w.store.frames_leave f).symm (w.store.vectors_leave f).symm

theorem value_of_mem (w : Course first) (hv : v ∈ first) : (realm first).value w v :=
  w.underway.around_of_has (.of_mem (w.kept hv))

theorem scope_of_mem (w : Course first) {f : FrameId} (hf : .scope f ∈ first) :
    (realm first).scope w f :=
  Realm.value_scope.1 (w.value_of_mem hf)

end Course

/-! ### Watching evaluation -/

/-- What is done before a form is evaluated in a scope. -/
def Watcher := Value → FrameId → Eval Unit

namespace Watcher

variable (o : Watcher)

/-- The evaluator for fewer than `fuel` nested applications, with a watcher. -/
def evaluateWithin : Nat → Evaluator
  | 0 => fun _ _ => Eval.endless
  | fuel + 1 => fun form scope => (o form scope).bind fun _ =>
    match form with
    | .sym name => Eval.read fun s => s.get scope name
    | .list _ (head :: rest) =>
      Eval.within scope (Evaluator.applyForm (evaluateWithin fuel) scope head rest)
    | v => pure v

/-- A watcher that acts only where a property of the form, the scope and the store fails. -/
def IdleWhere (P : Value → FrameId → Store → Prop) : Prop :=
  ∀ form scope s, P form scope s → o form scope s = (.ok (), s)

end Watcher

/-- A property holds whenever the evaluation of a form begins, in the course of evaluating a form: a
watcher that acts only where it fails never gets to act. -/
def HoldsThroughout (P : Value → FrameId → Store → Prop) (fuel : Nat) (form : Value)
    (scope : FrameId) (s : Store) : Prop :=
  ∀ o : Watcher, o.IdleWhere P →
    o.evaluateWithin fuel form scope s = evaluateWithin fuel form scope s

theorem HoldsThroughout.mono {P P' : Value → FrameId → Store → Prop} {fuel : Nat} {form : Value}
    {scope : FrameId} {s : Store} (h : HoldsThroughout P fuel form scope s)
    (hP : ∀ form scope s, P form scope s → P' form scope s) :
    HoldsThroughout P' fuel form scope s :=
  fun o ho => h o fun form scope s hs => ho form scope s (hP form scope s hs)

namespace Realm

variable {World : Type} {R : Realm World} {o : Watcher} {P : Value → FrameId → Store → Prop}

/-- A watcher that acts only where a property of the worlds fails does not show. -/
theorem respects_watched (ho : o.IdleWhere P)
    (hP : ∀ w form scope, R.value w form → R.scope w scope → P form scope (R.store w)) (n : Nat) :
    (Judgment.unnoticed R fun _ => True).Respects (o.evaluateWithin n) (evaluateWithin n) := by
  induction n with
  | zero => exact fun w form scope _ _ => (Judgment.unnoticed R _).hang trivial
  | succ n ih =>
    intro w form scope hform hscope
    refine ⟨respects_evaluateWithin (n + 1) w form scope hform hscope, fun _ => ?_⟩
    refine (Eval.bind_of_ok (ho form scope _ (hP w form scope hform hscope)) _).trans ?_
    cases form with
    | list id items =>
      cases items with
      | nil => rfl
      | cons head rest =>
        obtain ⟨hhead, hrest⟩ := Realm.values_cons.1 (Realm.value_list.1 hform).2
        obtain ⟨w₁, hw₁, hstore₁⟩ := R.enter hscope
        have hsame := (Judgment.applyForm ih (Realm.scope_later hw₁ hscope)
          (Realm.value_later hw₁ hhead) (Realm.values_later hw₁ hrest)).2 trivial
        rw [hstore₁] at hsame
        show Eval.within scope ((o.evaluateWithin n).applyForm scope head rest) (R.store w) =
          Eval.within scope ((evaluateWithin n).applyForm scope head rest) (R.store w)
        rcases (R.store w).enter_cases scope with ⟨e, he, -⟩ | ⟨i, r, -, -, -, hok, -⟩
        · rw [Eval.within_of_error _ he, Eval.within_of_error _ he]
        · rw [Eval.within_of_ok _ hok, Eval.within_of_ok _ hok, hsame]
    | _ => rfl

end Realm

namespace Underway

variable {s t : Store} {hand : List Value} {form : Value} {scope : FrameId}

/-- Where a computation leads that keeps the realm: what it gives can be taken in hand. -/
theorem exists_after {α : Type} {x : Eval α} {values : α → List Value} (h : Underway s hand)
    (hx : ∀ w : Course hand, (Course.realm hand).Runs w x fun w' a =>
      (Course.realm hand).values w' (values a))
    {result : Except Halt α} (hrun : x s = (result, t)) :
    ∃ hand', Underway t hand' ∧ hand ⊆ hand' ∧ ∀ a, result = .ok a → values a ⊆ hand' := by
  obtain ⟨w, -, hstore, -, hvalues⟩ := hx ⟨s, hand, h, List.Subset.refl _⟩
  have hstore : w.store = t := hstore.trans (congrArg Prod.snd hrun)
  subst hstore
  cases result with
  | error halt => exact ⟨w.hand, w.underway, w.kept, nofun⟩
  | ok a =>
    refine ⟨values a ++ w.hand, w.underway.takeAll (hvalues a (congrArg Prod.fst hrun)),
      fun v hv => List.mem_append_right _ (w.kept hv), fun b hb => ?_⟩
    cases hb
    exact List.subset_append_left _ _

/-- Evaluating a form that is in hand. -/
theorem evaluated (h : Underway s hand) (hform : form ∈ hand) (hscope : .scope scope ∈ hand)
    {fuel : Nat} {result : Except Halt Value}
    (hrun : evaluateWithin fuel form scope s = (result, t)) :
    ∃ hand', Underway t hand' ∧ hand ⊆ hand' ∧ ∀ v, result = .ok v → v ∈ hand' := by
  have hruns (w : Course hand) : (Course.realm hand).Runs w (evaluateWithin fuel form scope)
      fun w' v => (Course.realm hand).values w' [v] := by
    refine (Judgment.keeping (Course.realm hand)).mono (Realm.respects_evaluateWithin fuel w form
      scope (w.value_of_mem hform) (w.scope_of_mem hscope)) fun w' v _ hv => ?_
    exact Realm.values_cons.2 ⟨hv, Realm.values_nil⟩
  obtain ⟨hand', ht, hhand, hvalue⟩ := h.exists_after hruns hrun
  exact ⟨hand', ht, hhand, fun v hv => hvalue v hv List.mem_cons_self⟩

/-- Evaluating forms that are in hand, in turn. -/
theorem values (h : Underway s hand) {forms vs : List Value} (hforms : forms ⊆ hand)
    (hscope : .scope scope ∈ hand) {fuel : Nat}
    (hrun : (evaluateWithin fuel).values scope forms s = (.ok vs, t)) :
    ∃ hand', Underway t hand' ∧ hand ⊆ hand' ∧ vs ⊆ hand' := by
  have hruns (w : Course hand) : (Course.realm hand).Runs w
      ((evaluateWithin fuel).values scope forms)
      fun w' vs => (Course.realm hand).values w' (id vs) :=
    Judgment.evaluateValues (Realm.respects_evaluateWithin fuel) (w.scope_of_mem hscope)
      fun v hv => w.value_of_mem (hforms hv)
  obtain ⟨hand', ht, hhand, hvalues⟩ := h.exists_after hruns hrun
  exact ⟨hand', ht, hhand, hvalues vs rfl⟩

/-- In the course of evaluation, a form is evaluated. Whenever the evaluation of any form begins,
the store is underway, and everything is in hand that was in hand before. -/
theorem throughout (h : Underway s hand) (hform : form ∈ hand) (hscope : .scope scope ∈ hand)
    (fuel : Nat) :
    HoldsThroughout (fun form scope t => ∃ hand', Underway t hand' ∧ hand ⊆ hand' ∧ form ∈ hand' ∧
      .scope scope ∈ hand') fuel form scope s := by
  intro o ho
  have hP : ∀ (w : Course hand) form scope, (Course.realm hand).value w form →
      (Course.realm hand).scope w scope → ∃ hand', Underway w.store hand' ∧ hand ⊆ hand' ∧
        form ∈ hand' ∧ .scope scope ∈ hand' := by
    intro w form scope hform hscope
    have htaken : ∀ v ∈ [form, .scope scope], w.store.Around w.hand v := by
      simp only [List.mem_cons, List.not_mem_nil, or_false, forall_eq_or_imp, forall_eq]
      exact ⟨hform, Realm.value_scope.2 hscope⟩
    exact ⟨_, w.underway.takeAll htaken, fun v hv => List.mem_append_right _ (w.kept hv), by simp,
      by simp⟩
  let w : Course hand := ⟨s, hand, h, List.Subset.refl _⟩
  exact (Realm.respects_watched ho hP fuel w form scope (w.value_of_mem hform)
    (w.scope_of_mem hscope)).2 trivial

end Underway

end ConfinedLisp
