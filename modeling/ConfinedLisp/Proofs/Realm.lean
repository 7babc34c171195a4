import ConfinedLisp.Evaluation.Call
import ConfinedLisp.Proofs.Relimit
import ConfinedLisp.Proofs.Results

/-!
# Realms and judgments

Whatever evaluation does is made of a few operations on the store, put together in the same way by
every built-in. A property of evaluation is therefore proved in two halves that know nothing of each
other.

## Main definitions

- `Realm`: an invariant of the store, together with the values that may be around and the frames in
  which forms may be evaluated. The invariant is a type of worlds, each with its store; the fields
  say that every operation that evaluation performs leads from a world to a later one.
- `Judgment`: a relation between two computations that start in one world, closed under the ways of
  putting computations together. A property of one computation is a judgment that ignores the other.

## Design notes

A judgment compares two computations because two evaluators are to be compared: the same forms run
with more fuel, or under other limits. Both computations always give the same value, so one
postcondition speaks of both.

What a built-in can do is stated once, for every realm and every judgment:
`ConfinedLisp.Proofs.Effects` has those that get evaluated operands, `ConfinedLisp.Proofs.Judging`
those that evaluate forms.
-/

namespace ConfinedLisp

/-- An invariant of the store that every operation of evaluation keeps. -/
structure Realm (World : Type) where
  store : World → Store
  /-- The second world may come about from the first one. -/
  later : World → World → Prop
  later_refl : ∀ w, later w w
  later_trans : ∀ {u v w}, later u v → later v w → later u w
  grows : ∀ {w w'}, later w w' → (store w).Grows (store w')
  /-- What may occur in values. -/
  part : World → Value → Prop
  part_later : ∀ {w w' v}, later w w' → part w v → part w' v
  part_plain : ∀ (w : World) (v : Value), v.IsPlain → part w v
  /-- Where forms may be evaluated. -/
  scope : World → FrameId → Prop
  part_scope : ∀ {w f}, part w (.scope f) ↔ scope w f
  /-- What closures may have been made over: calls make children of such a frame. -/
  captured : World → FrameId → Prop
  captured_of_scope : ∀ {w f}, scope w f → captured w f
  part_function : ∀ {w id f parameters body},
    part w (.callable (.function id f parameters body)) ↔ captured w f
  part_operative : ∀ {w id f body}, part w (.callable (.operative id f body)) ↔ captured w f
  /-- The host functions that may run. -/
  runs : World → HostFunction → Prop
  runs_foreign : ∀ {w id name h}, part w (.callable (.foreign id name h)) → runs w h
  runs_constructor : ∀ {w id type h},
    part w (.callable (.constructor id type)) → type.construct = .plain h → runs w h
  part_foreign : ∀ {w f name h} (id : Identity), scope w f →
    ((store w).registry f).function? name = some h → part w (.callable (.foreign id name h))
  part_constructor : ∀ {w f name type} (id : Identity), scope w f →
    ((store w).registry f).type? name = some type → part w (.callable (.constructor id type))
  part_static : ∀ {w f name type method} (id : Identity), scope w f →
    ((store w).registry f).type? name = some type → method ∈ type.statics →
      part w (.callable (.foreign id (type.qualified method.1) method.2))
  get : ∀ {w f} (name : String), scope w f → ((store w).get f name).All (part w)
  fresh : ∀ {w} (items : List Value), (∀ v ∈ items, v.All (part w)) →
    ∃ w', later w w' ∧ store w' = (store w).freshened ∧
      part w' (.list (store w).nextIdentity items)
  bindAll : ∀ {w f pairs}, scope w f → (∀ pair ∈ pairs, pair.2.All (part w)) →
    ∃ w', later w w' ∧ store w' = (store w).bindAll f pairs
  define : ∀ {w f v} (name : String), scope w f → v.All (part w) →
    ∃ w', later w w' ∧ store w' = (store w).define f name v
  child : ∀ {w f}, captured w f →
    ∃ w', later w w' ∧
      store w' = ((store w).addFrame (some f) (((store w).runtimeId? f).getD 0)).2 ∧
      scope w' (store w).frames.size
  detached : ∀ {w f}, scope w f →
    ∃ w', later w w' ∧ store w' = ((store w).addFrame none (((store w).runtimeId? f).getD 0)).2 ∧
      scope w' (store w).frames.size
  vector : ∀ {w items}, runs w .vectorOf → (∀ v ∈ items, v.All (part w)) →
    ∃ w', later w w' ∧ store w' = ((store w).addVector items).2 ∧
      part w' (.object (store w).vectors.size)
  extend : ∀ {w v items}, part w (.object v) → (∀ x ∈ items, x.All (part w)) →
    ∃ w', later w w' ∧ store w' = (store w).extendVector v items
  items : ∀ {w v x}, part w (.object v) → x ∈ (store w).vector v → x.All (part w)
  enter : ∀ {w f}, scope w f → ∃ w', later w w' ∧ store w' = ((store w).enter f).2
  leave : ∀ {w f}, scope w f → ∃ w', later w w' ∧ store w' = (store w).leave f

namespace Realm

variable {World : Type} (R : Realm World)

/-- A value that may be around. -/
def value (w : World) (v : Value) : Prop := v.All (R.part w)

/-- Values that may be around. -/
def values (w : World) (vs : List Value) : Prop := ∀ v ∈ vs, R.value w v

variable {R} {w w' : World}

theorem value_later {v : Value} (hw : R.later w w') (h : R.value w v) : R.value w' v :=
  h.mono fun _ => R.part_later hw

theorem values_later {vs : List Value} (hw : R.later w w') (h : R.values w vs) : R.values w' vs :=
  fun v hv => value_later hw (h v hv)

theorem scope_later {f : FrameId} (hw : R.later w w') (h : R.scope w f) : R.scope w' f :=
  R.part_scope.1 (R.part_later hw (R.part_scope.2 h))

theorem values_nil : R.values w [] := fun _ hv => by cases hv

theorem values_cons {v : Value} {vs : List Value} :
    R.values w (v :: vs) ↔ R.value w v ∧ R.values w vs := by
  simp [values]

theorem value_plain {v : Value} (hplain : v.IsPlain) (hleaf : v.IsLeaf) : R.value w v :=
  Value.all_of_plain (R.part_plain w) hplain hleaf

theorem value_nil : R.value w .nil := value_plain trivial trivial

theorem value_list {id : Identity} {items : List Value} :
    R.value w (.list id items) ↔ R.part w (.list id items) ∧ R.values w items :=
  Value.all_list

theorem value_scope {f : FrameId} : R.value w (.scope f) ↔ R.scope w f :=
  (Value.IsLeaf.all_iff (v := .scope f) trivial).trans R.part_scope

theorem value_object {v : VectorId} : R.value w (.object v) ↔ R.part w (.object v) :=
  Value.IsLeaf.all_iff (v := .object v) trivial

theorem value_foreign {id : Identity} {name : String} {f : HostFunction} :
    R.value w (.callable (.foreign id name f)) ↔ R.part w (.callable (.foreign id name f)) :=
  Value.IsLeaf.all_iff (v := .callable (.foreign id name f)) trivial

theorem value_constructor {id : Identity} {type : HostType} :
    R.value w (.callable (.constructor id type)) ↔ R.part w (.callable (.constructor id type)) :=
  Value.IsLeaf.all_iff (v := .callable (.constructor id type)) trivial

theorem value_function {id : Identity} {f : FrameId} {parameters : List String}
    {body : List Value} :
    R.value w (.callable (.function id f parameters body)) ↔ R.captured w f ∧ R.values w body := by
  rw [value, Value.all_function, R.part_function]
  rfl

theorem value_operative {id : Identity} {f : FrameId} {body : List Value} :
    R.value w (.callable (.operative id f body)) ↔ R.captured w f ∧ R.values w body := by
  rw [value, Value.all_operative, R.part_operative]
  rfl

/-- What can be called stays callable. -/
theorem isCallable_later {f : FrameId} {v : Value} (hw : R.later w w')
    (h : (R.store w).isCallable f v = true) : (R.store w').isCallable f v = true := by
  cases v with
  | callable c => rfl
  | str name =>
    obtain ⟨function, hfunction⟩ := Option.isSome_iff_exists.1 h
    exact Option.isSome_iff_exists.2 ⟨function, (R.grows hw).function? hfunction⟩
  | _ => cases h

end Realm

/-- A relation between two computations that start in one world. -/
structure Judgment {World : Type} (R : Realm World) where
  /-- Two computations agree from a world on, and what they give satisfies a postcondition. -/
  judge : {α : Type} → World → Eval α → Eval α → (World → α → Prop) → Prop
  pure : ∀ {α : Type} {w : World} {a : α} {Q : World → α → Prop},
    Q w a → judge w (Eval.pure a) (Eval.pure a) Q
  bind : ∀ {α β : Type} {w : World} {x y : Eval α} {f g : α → Eval β} {Q : World → α → Prop}
    {P : World → β → Prop}, judge w x y Q →
    (∀ w' a, R.later w w' → Q w' a → judge w' (f a) (g a) P) → judge w (x.bind f) (y.bind g) P
  fail : ∀ {α : Type} {w : World} {e : EvalError} {Q : World → α → Prop},
    e.IsOrdinary → judge w (Eval.fail e) (Eval.fail e) Q
  make : ∀ {α : Type} {w w' : World} {op : Store → α × Store} {Q : World → α → Prop},
    Unbudgeted op → R.later w w' → R.store w' = (op (R.store w)).2 → Q w' (op (R.store w)).1 →
      judge w (Eval.make op) (Eval.make op) Q
  /-- Whether a computation may go on for ever. -/
  mayHang : Prop
  hang : ∀ {α : Type} {w : World} {Q : World → α → Prop},
    mayHang → judge w Eval.endless Eval.endless Q
  looseEq : ∀ {w : World} {a b : Value}, ¬ mayHang → R.value w a → R.value w b →
    (R.store w).looseEq a b ≠ none
  encode : ∀ {w : World} {v : Value}, ¬ mayHang → R.value w v →
    Json.encode (R.store w) v ≠ .error .endless

namespace Eval

variable {α β : Type} {x : Eval α} {s t : Store}

theorem bind_of_ok {a : α} (h : x s = (.ok a, t)) (f : α → Eval β) : x.bind f s = f a t := by
  simp only [Eval.bind, h]

theorem bind_of_error {halt : Halt} (h : x s = (.error halt, t)) (f : α → Eval β) :
    x.bind f s = (.error halt, t) := by
  simp only [Eval.bind, h]

theorem bind_pure (x : Eval α) : x.bind Eval.pure = x := by
  funext s
  unfold Eval.bind
  split
  · next a s' h => exact h.symm
  · next halt s' h => exact h.symm

end Eval

namespace Judgment

variable {World : Type} {R : Realm World} (J : Judgment R) {w : World} {α β : Type}

/-- The consequence rule. -/
theorem mono {x y : Eval α} {Q P : World → α → Prop} (h : J.judge w x y Q)
    (hQP : ∀ w' a, R.later w w' → Q w' a → P w' a) : J.judge w x y P := by
  rw [← x.bind_pure, ← y.bind_pure]
  exact J.bind h fun w' a hw hQ => J.pure (hQP w' a hw hQ)

theorem ofExcept {x : Except EvalError α} {Q : α → Prop} (h : Yields Q x) :
    J.judge w (Eval.ofExcept x) (Eval.ofExcept x) fun _ a => Q a := by
  cases x with
  | ok a => exact J.pure h
  | error e => exact J.fail h

/-- Reading what does not depend on budgets. -/
theorem read {f : Store → α}
    (hf : ∀ s runtimes, Runtime.OfferSame s.runtimes runtimes → f (s.rebudget runtimes) = f s) :
    J.judge w (Eval.read f) (Eval.read f) fun w' a => w' = w ∧ a = f (R.store w) :=
  J.make (Unbudgeted.read hf) (R.later_refl w) rfl ⟨rfl, rfl⟩

/-- A fresh identity is fit for a list of any values that are around. -/
theorem freshIdentity {items : List Value} (h : R.values w items) :
    J.judge w Eval.freshIdentity Eval.freshIdentity fun w' id => R.value w' (.list id items) := by
  obtain ⟨w', hw, hstore, hpart⟩ := R.fresh items h
  exact J.make Unbudgeted.freshened hw hstore
    (Realm.value_list.2 ⟨hpart, Realm.values_later hw h⟩)

theorem newList {items : List Value} (h : R.values w items) :
    J.judge w (Eval.newList items) (Eval.newList items) R.value := by
  obtain ⟨w', hw, hstore, hpart⟩ := R.fresh items h
  exact J.make (Unbudgeted.newList items) hw hstore
    (Realm.value_list.2 ⟨hpart, Realm.values_later hw h⟩)

theorem newChild {f : FrameId} (h : R.captured w f) :
    J.judge w (Eval.newChild f) (Eval.newChild f) R.scope := by
  obtain ⟨w', hw, hstore, hscope⟩ := R.child h
  exact J.make (Unbudgeted.addFrame fun _ _ => rfl) hw hstore hscope

theorem newDetached {f : FrameId} (h : R.scope w f) :
    J.judge w (Eval.newDetached f) (Eval.newDetached f) R.scope := by
  obtain ⟨w', hw, hstore, hscope⟩ := R.detached h
  exact J.make (Unbudgeted.addFrame fun _ _ => rfl) hw hstore hscope

theorem bindAll {f : FrameId} {pairs : List (String × Value)} (hf : R.scope w f)
    (h : ∀ pair ∈ pairs, R.value w pair.2) :
    J.judge w (Eval.update fun s => s.bindAll f pairs) (Eval.update fun s => s.bindAll f pairs)
      fun _ _ => True := by
  obtain ⟨w', hw, hstore⟩ := R.bindAll hf h
  exact J.make (Unbudgeted.bindAll f pairs) hw hstore trivial

theorem bindOne {f : FrameId} {name : String} {v : Value} (hf : R.scope w f) (h : R.value w v) :
    J.judge w (Eval.update fun s => s.bind f name v) (Eval.update fun s => s.bind f name v)
      fun _ _ => True := by
  have hpairs : ∀ pair ∈ [(name, v)], R.value w pair.2 := by
    intro pair hpair
    obtain rfl := List.mem_singleton.1 hpair
    exact h
  exact J.bindAll hf hpairs

theorem define {f : FrameId} {name : String} {v : Value} (hf : R.scope w f) (h : R.value w v) :
    J.judge w (Eval.update fun s => s.define f name v) (Eval.update fun s => s.define f name v)
      fun _ _ => True := by
  obtain ⟨w', hw, hstore⟩ := R.define name hf h
  exact J.make (Unbudgeted.define f name v) hw hstore trivial

end Judgment

end ConfinedLisp
