import ConfinedLisp.Proofs.Relabelling
import ConfinedLisp.Proofs.StoreHistory

/-!
# Stores under other names

Two stores mirror each other if one is the other one under other names. Operations that make
something new hand out names on both sides; they keep the mirror image if the names that one side
hands out are the other names of those that the other side hands out. A relabelling settles this for
some identities in advance, its `Supply`. Computations that keep the mirror image, and give the same
under other names, are put together like all others, so it takes one lemma for each operation on the
store to have them all.

## Main definitions

- `Relabelling.Supply`: identities to be handed out, with their other names.
- `Relabelling.Supply.Mirrors`: a store is another one under other names.
- `Relabelling.Carries`: a computation does what another one does, under other names.
-/

namespace ConfinedLisp

/-- Where parents are older after growth, they were so before. -/
theorem Store.Rooted.of_grows {s t : Store} (h : t.Rooted) (hst : s.Grows t) : s.Rooted := by
  intro f p hp
  obtain ⟨frame, hframe, hparent⟩ := Option.bind_eq_some_iff.1 hp
  obtain ⟨frame', hframe', hextends⟩ := hst.frames f frame hframe
  refine h f p ?_
  rw [Store.parent?, hframe', Option.bind_some, hextends.parent, hparent]

namespace Assoc

variable {α β : Type} (g : α → β)

theorem find?_map (name : String) (m : List (String × α)) :
    find? name (m.map fun b => (b.1, g b.2)) = (find? name m).map g := by
  induction m with
  | nil => rfl
  | cons b m ih =>
    obtain ⟨k, v⟩ := b
    rw [List.map_cons, find?, find?, ih]
    split <;> rfl

theorem put_map (name : String) (v : α) (m : List (String × α)) :
    put name (g v) (m.map fun b => (b.1, g b.2)) = (put name v m).map fun b => (b.1, g b.2) := by
  induction m with
  | nil => rfl
  | cons b m ih =>
    obtain ⟨k, w⟩ := b
    rw [List.map_cons, put, put, ih]
    split <;> rfl

end Assoc

namespace Relabelling

variable {ρ : Relabelling}

/-- A frame under other names. -/
def frameOf (ρ : Relabelling) (frame : Frame) : Frame where
  bindings := frame.bindings.map fun b => (b.1, ρ.value b.2)
  parent := frame.parent.map ρ.frame
  runtime := frame.runtime

/-- So many identities from one on, whose other names are as many from another one on. -/
structure Supply (ρ : Relabelling) where
  source : Identity
  target : Identity
  length : Nat
  identity_eq : ∀ k < length, ρ.identity (source + k) = target + k

namespace Supply

variable (supply : ρ.Supply)

/-- Nothing has been handed out beyond a supply, and frames are younger than their parents. -/
structure Covers (s : Store) : Prop where
  identity : s.nextIdentity ≤ supply.source + supply.length
  rooted : s.Rooted

theorem Covers.of_grows {s t : Store} (h : supply.Covers t) (hst : s.Grows t) : supply.Covers s where
  identity := Nat.le_trans hst.identity h.identity
  rooted := h.rooted.of_grows hst

/-- A store is another one under other names, and as much of the supply has been handed out on both
sides. -/
structure Mirrors (s t : Store) : Prop where
  frames : ∀ f, t.frames[ρ.frame f]? = s.frames[f]?.map ρ.frameOf
  newFrames : ∀ n, ρ.frame (s.frames.size + n) = t.frames.size + n
  vectors : t.vectors = s.vectors.map fun items => items.map ρ.value
  runtimes : t.runtimes = s.runtimes
  identity : ∃ k, s.nextIdentity = supply.source + k ∧ t.nextIdentity = supply.target + k

namespace Mirrors

variable {supply} {s t : Store} (h : supply.Mirrors s t)

include h

/-! ### Looking up -/

theorem searchWithin (name : String) (fuel : Nat) (f : FrameId) :
    t.searchWithin name fuel (ρ.frame f) =
      (s.searchWithin name fuel f).map fun found => (ρ.frame found.1, ρ.value found.2) := by
  induction fuel generalizing f with
  | zero => rfl
  | succ fuel ih =>
    rw [Store.searchWithin, Store.searchWithin, h.frames f]
    cases s.frames[f]? with
    | none => rfl
    | some frame =>
      simp only [Option.map_some, frameOf, Assoc.find?_map]
      cases Assoc.find? name frame.bindings with
      | some v => rfl
      | none =>
        cases frame.parent with
        | none => rfl
        | some p => exact ih p

/-- A search that starts from another name goes as far. -/
theorem search (hs : s.Rooted) (name : String) (f : FrameId) :
    t.searchWithin name (ρ.frame f + 1) (ρ.frame f) =
      (s.searchWithin name (f + 1) f).map fun found => (ρ.frame found.1, ρ.value found.2) := by
  rw [h.searchWithin]
  rw [hs.searchWithin_eq name f (ρ.frame f + 1) (f + 1) (Nat.lt_succ_of_le (ρ.le_frame f))
    (Nat.lt_succ_self f)]

theorem get (hs : s.Rooted) (f : FrameId) (name : String) :
    t.get (ρ.frame f) name = ρ.value (s.get f name) := by
  rw [Store.get, Store.lookup?, h.search hs, Store.get, Store.lookup?]
  cases s.searchWithin name (f + 1) f <;> rfl

theorem holder? (hs : s.Rooted) (f : FrameId) (name : String) :
    t.holder? (ρ.frame f) name = (s.holder? f name).map ρ.frame := by
  rw [Store.holder?, h.search hs, Store.holder?]
  cases s.searchWithin name (f + 1) f <;> rfl

theorem runtimeId? (f : FrameId) : t.runtimeId? (ρ.frame f) = s.runtimeId? f := by
  rw [Store.runtimeId?, h.frames f, Store.runtimeId?, Option.map_map]
  rfl

theorem runtime? (f : FrameId) : t.runtime? (ρ.frame f) = s.runtime? f := by
  rw [Store.runtime?, h.runtimeId?, h.runtimes, Store.runtime?]

theorem registry (f : FrameId) : t.registry (ρ.frame f) = s.registry f := by
  rw [Store.registry, h.runtime?, Store.registry]

theorem isCallable (f : FrameId) (v : Value) :
    t.isCallable (ρ.frame f) (ρ.value v) = s.isCallable f v := by
  cases v with
  | str name =>
    rw [value, Store.isCallable, h.registry, Store.isCallable]
  | _ => rfl

theorem vector (i : VectorId) : t.vector i = (s.vector i).map ρ.value := by
  rw [Store.vector, h.vectors, Array.getElem?_map, Store.vector]
  cases s.vectors[i]? with
  | none => rfl
  | some items => exact Array.toList_map

theorem vectorSize (i : VectorId) : t.vectorSize i = s.vectorSize i := by
  rw [← Store.length_vector, ← Store.length_vector, h.vector, List.length_map]

theorem looseVectors (fuel : Nat) : t.looseVectors fuel = s.looseVectors fuel := by
  induction fuel with
  | zero => rfl
  | succ fuel ih =>
    funext i j
    simp only [Store.looseVectors, ih, h.vector, List.length_map]
    rw [ρ.looseItemsWith_map fun x _ => ρ.looseEqWith_value _ x]

theorem looseEq (v w : Value) : t.looseEq (ρ.value v) (ρ.value w) = s.looseEq v w := by
  have hsize : t.vectors.size = s.vectors.size := by rw [h.vectors, Array.size_map]
  rw [Store.looseEq, hsize, h.looseVectors, looseEqWith_value, Store.looseEq]

theorem encodeVector (fuel : Nat) : Json.encodeVector t fuel = Json.encodeVector s fuel := by
  induction fuel with
  | zero => rfl
  | succ fuel ih =>
    funext i
    rw [Json.encodeVector, Json.encodeVector, ih, h.vector,
      ρ.encodeItems_map fun v _ => ρ.encodeWith_value _ v]

theorem encode (v : Value) : Json.encode t (ρ.value v) = Json.encode s v := by
  have hsize : t.vectors.size = s.vectors.size := by rw [h.vectors, Array.size_map]
  rw [Json.encode, hsize, h.encodeVector, encodeWith_value, Json.encode]

/-! ### Making and binding -/

theorem bind (f : FrameId) (name : String) (v : Value) :
    supply.Mirrors (s.bind f name v) (t.bind (ρ.frame f) name (ρ.value v)) where
  frames g := by
    simp only [Store.bind, Array.getElem?_modify, frame_eq_iff, h.frames g]
    split
    · cases s.frames[g]? with
      | none => rfl
      | some frame => simp [frameOf, Assoc.put_map]
    · rfl
  newFrames n := by simpa [Store.bind] using h.newFrames n
  vectors := h.vectors
  runtimes := h.runtimes
  identity := h.identity

theorem bindAll (f : FrameId) (pairs : List (String × Value)) :
    supply.Mirrors (s.bindAll f pairs)
      (t.bindAll (ρ.frame f) (pairs.map fun pair => (pair.1, ρ.value pair.2))) := by
  induction pairs generalizing s t with
  | nil => exact h
  | cons pair pairs ih => exact ih (h.bind f pair.1 pair.2)

theorem define (hs : s.Rooted) (f : FrameId) (name : String) (v : Value) :
    supply.Mirrors (s.define f name v) (t.define (ρ.frame f) name (ρ.value v)) := by
  have hholder : ((s.holder? f name).map ρ.frame).getD (ρ.frame f) =
      ρ.frame ((s.holder? f name).getD f) := by
    cases s.holder? f name <;> rfl
  rw [Store.define, Store.define, h.holder? hs, hholder]
  exact h.bind _ name v

theorem addFrame (parent : Option FrameId) (runtime : RuntimeId) :
    supply.Mirrors (s.addFrame parent runtime).2 (t.addFrame (parent.map ρ.frame) runtime).2 where
  frames f := by
    have hsize : ρ.frame s.frames.size = t.frames.size := h.newFrames 0
    have hnew : ρ.frame f = t.frames.size ↔ f = s.frames.size := by
      rw [← hsize, frame_eq_iff]
    rw [Store.frames_addFrame, Store.frames_addFrame, h.frames f]
    simp only [hnew]
    split <;> rfl
  newFrames n := by
    have hframe := h.newFrames (n + 1)
    simp only [Store.addFrame, Array.size_push]
    rwa [Nat.add_assoc, Nat.add_assoc, Nat.add_comm 1 n]
  vectors := h.vectors
  runtimes := h.runtimes
  identity := h.identity

theorem addVector (items : List Value) :
    supply.Mirrors (s.addVector items).2 (t.addVector (items.map ρ.value)).2 where
  frames := h.frames
  newFrames := h.newFrames
  vectors := by simp [Store.addVector, h.vectors]
  runtimes := h.runtimes
  identity := h.identity

theorem extendVector (i : VectorId) (items : List Value) :
    supply.Mirrors (s.extendVector i items) (t.extendVector i (items.map ρ.value)) where
  frames := h.frames
  newFrames := h.newFrames
  vectors := by
    refine Array.ext_getElem? fun j => ?_
    simp only [Store.extendVector, h.vectors, Array.getElem?_modify, Array.getElem?_map]
    split
    · cases s.vectors[j]? with
      | none => rfl
      | some xs =>
        have hitems : xs.map ρ.value ++ items.map ρ.value = (xs ++ items).map ρ.value :=
          Array.toList_inj.1 (by simp)
        simp [hitems]
    · rfl
  runtimes := h.runtimes
  identity := h.identity

/-- The next identity of one side is the other name of that of the other side. -/
theorem nextIdentity (hs : supply.Covers s.freshened) :
    t.nextIdentity = ρ.identity s.nextIdentity := by
  obtain ⟨k, hk, hk'⟩ := h.identity
  have hle := hs.identity
  rw [Store.freshened, hk] at hle
  rw [hk, hk', supply.identity_eq k]
  exact Nat.lt_of_add_lt_add_left (n := supply.source) hle

theorem freshened : supply.Mirrors s.freshened t.freshened where
  frames := h.frames
  newFrames := h.newFrames
  vectors := h.vectors
  runtimes := h.runtimes
  identity := by
    obtain ⟨k, hk, hk'⟩ := h.identity
    exact ⟨k + 1, congrArg (· + 1) hk, congrArg (· + 1) hk'⟩

theorem withRuntimes (runtimes : Array Runtime) :
    supply.Mirrors { s with runtimes } { t with runtimes } where
  frames := h.frames
  newFrames := h.newFrames
  vectors := h.vectors
  runtimes := rfl
  identity := h.identity

theorem enter (f : FrameId) :
    (t.enter (ρ.frame f)).1 = (s.enter f).1 ∧
      supply.Mirrors (s.enter f).2 (t.enter (ρ.frame f)).2 := by
  rcases s.runtime?_cases f with hnone | ⟨i, r, hi, hr⟩
  · rw [Store.enter_of_no_runtime hnone, Store.enter_of_no_runtime ((h.runtime? f).trans hnone)]
    exact ⟨rfl, h⟩
  · rw [Store.enter_of_runtime hi hr,
      Store.enter_of_runtime ((h.runtimeId? f).trans hi) (h.runtimes ▸ hr), h.runtimes]
    exact ⟨rfl, h.withRuntimes _⟩

theorem leave (f : FrameId) : supply.Mirrors (s.leave f) (t.leave (ρ.frame f)) := by
  unfold Store.leave
  rw [h.runtimeId?, h.runtimes]
  cases s.runtimeId? f with
  | none => exact h
  | some i => exact h.withRuntimes _

end Mirrors

end Supply

/-- A computation does what another one does, under other names: from a store that mirrors that of
the other one, as far as the supply of names goes, it comes to a store that mirrors the one that the
other one comes to, and its outcome is that of the other one under other names. -/
structure Carries (ρ : Relabelling) {α β : Type} (x : Eval α) (y : Eval β) (g : α → β) : Prop where
  grows : ∀ s : Store, s.Grows (x s).2
  mirrors : ∀ {supply : ρ.Supply} {s t : Store}, supply.Mirrors s t → supply.Covers (x s).2 →
    (y t).1 = (x s).1.map g ∧ supply.Mirrors (x s).2 (y t).2

namespace Carries

variable {α β γ δ : Type} {g : α → β} {h : γ → δ}

/-! ### Putting computations together -/

theorem pure {a : α} {b : β} (hb : b = g a) : ρ.Carries (Eval.pure a) (Eval.pure b) g where
  grows := .refl
  mirrors hmirrors _ := ⟨congrArg Except.ok hb, hmirrors⟩

theorem halt (reason : Halt) :
    ρ.Carries (fun s => (.error reason, s)) (fun s => (.error reason, s)) g where
  grows := .refl
  mirrors hmirrors _ := ⟨rfl, hmirrors⟩

theorem fail (e : EvalError) : ρ.Carries (Eval.fail e) (Eval.fail e) g := halt (.error e)

theorem ofExcept {x : Except EvalError α} {y : Except EvalError β} (hxy : y = x.map g) :
    ρ.Carries (Eval.ofExcept x) (Eval.ofExcept y) g := by
  subst hxy
  cases x with
  | ok a => exact pure rfl
  | error e => exact fail e

/-- A check of something that has no name. -/
theorem check {x y : Except EvalError α} (hxy : y = x) :
    ρ.Carries (Eval.ofExcept x) (Eval.ofExcept y) fun a => a := by
  refine ofExcept (hxy.trans ?_)
  cases x <;> rfl

theorem bind {x : Eval α} {y : Eval β} {f : α → Eval γ} {f' : β → Eval δ} (hx : ρ.Carries x y g)
    (hf : ∀ a, ρ.Carries (f a) (f' (g a)) h) : ρ.Carries (x.bind f) (y.bind f') h where
  grows s := by
    have hgrows := hx.grows s
    rcases hrun : x s with ⟨a | a, s'⟩
    · rw [Eval.bind_of_error hrun]
      rwa [hrun] at hgrows
    · rw [Eval.bind_of_ok hrun]
      rw [hrun] at hgrows
      exact hgrows.trans ((hf a).grows s')
  mirrors {supply s t} hmirrors hcovers := by
    rcases hrun : x s with ⟨a | a, s'⟩
    · rw [Eval.bind_of_error hrun] at hcovers ⊢
      obtain ⟨hresult, hstore⟩ := hx.mirrors hmirrors (hrun ▸ hcovers)
      rw [hrun] at hresult hstore
      rw [Eval.bind_of_error (Prod.ext hresult rfl)]
      exact ⟨rfl, hstore⟩
    · rw [Eval.bind_of_ok hrun] at hcovers ⊢
      have hcovers' := hcovers.of_grows _ ((hf a).grows s')
      obtain ⟨hresult, hstore⟩ := hx.mirrors hmirrors (hrun ▸ hcovers')
      rw [hrun] at hresult hstore
      rw [Eval.bind_of_ok (Prod.ext hresult rfl)]
      exact (hf a).mirrors hstore hcovers

/-- What comes after a check that succeeded. -/
theorem afterCheck {x : Except EvalError α} {y : Except EvalError β} {f : α → Eval γ}
    {f' : β → Eval δ} (hxy : y = x.map g) (hf : ∀ a, x = .ok a → ρ.Carries (f a) (f' (g a)) h) :
    ρ.Carries ((Eval.ofExcept x).bind f) ((Eval.ofExcept y).bind f') h := by
  subst hxy
  cases x with
  | ok a => exact hf a rfl
  | error e => exact fail e

/-! ### Operations on the store -/

theorem make {op : Store → α × Store} {op' : Store → β × Store} (hgrows : ∀ s : Store, s.Grows (op s).2)
    (hop : ∀ {supply : ρ.Supply} {s t : Store}, supply.Mirrors s t → supply.Covers (op s).2 →
      (op' t).1 = g (op s).1 ∧ supply.Mirrors (op s).2 (op' t).2) :
    ρ.Carries (Eval.make op) (Eval.make op') g where
  grows := hgrows
  mirrors hmirrors hcovers :=
    ⟨congrArg Except.ok (hop hmirrors hcovers).1, (hop hmirrors hcovers).2⟩

theorem read {p : Store → α} {p' : Store → β}
    (hp : ∀ {supply : ρ.Supply} {s t : Store}, supply.Mirrors s t → s.Rooted → p' t = g (p s)) :
    ρ.Carries (Eval.read p) (Eval.read p') g where
  grows := .refl
  mirrors hmirrors hcovers := ⟨congrArg Except.ok (hp hmirrors hcovers.rooted), hmirrors⟩

theorem update {p p' : Store → Store} (hgrows : ∀ s : Store, s.Grows (p s))
    (hp : ∀ {supply : ρ.Supply} {s t : Store}, supply.Mirrors s t → s.Rooted →
      supply.Mirrors (p s) (p' t)) :
    ρ.Carries (Eval.update p) (Eval.update p') fun u => u where
  grows := hgrows
  mirrors {_ s _} hmirrors hcovers := ⟨rfl, hp hmirrors (hcovers.rooted.of_grows (hgrows s))⟩

theorem freshIdentity : ρ.Carries Eval.freshIdentity Eval.freshIdentity ρ.identity where
  grows := Store.grows_freshened
  mirrors hmirrors hcovers :=
    ⟨congrArg Except.ok (hmirrors.nextIdentity hcovers), hmirrors.freshened⟩

theorem newList (items : List Value) :
    ρ.Carries (Eval.newList items) (Eval.newList (items.map ρ.value)) ρ.value where
  grows := Store.grows_freshened
  mirrors {_ s t} hmirrors hcovers := by
    have hlist : Value.list t.nextIdentity (items.map ρ.value) =
        ρ.value (.list s.nextIdentity items) := by
      rw [value_list, hmirrors.nextIdentity hcovers]
    exact ⟨congrArg Except.ok hlist, hmirrors.freshened⟩

theorem addFrame {parent : Option FrameId} {runtime runtime' : Store → RuntimeId}
    (hruntime : ∀ {supply : ρ.Supply} {s t : Store}, supply.Mirrors s t → runtime' t = runtime s) :
    ρ.Carries (Eval.make fun s => s.addFrame parent (runtime s))
      (Eval.make fun s => s.addFrame (parent.map ρ.frame) (runtime' s)) ρ.frame := by
  refine make (fun s => s.grows_addFrame parent _) fun hmirrors _ => ⟨?_, ?_⟩
  · exact (hmirrors.newFrames 0).symm
  · rw [hruntime hmirrors]
    exact hmirrors.addFrame parent _

theorem newChild (f : FrameId) : ρ.Carries (Eval.newChild f) (Eval.newChild (ρ.frame f)) ρ.frame :=
  addFrame fun hmirrors => by rw [hmirrors.runtimeId?]

theorem newDetached (f : FrameId) :
    ρ.Carries (Eval.newDetached f) (Eval.newDetached (ρ.frame f)) ρ.frame :=
  addFrame fun hmirrors => by rw [hmirrors.runtimeId?]

theorem bindAll (f : FrameId) (pairs : List (String × Value)) :
    ρ.Carries (Eval.update fun s => s.bindAll f pairs)
      (Eval.update fun s =>
        s.bindAll (ρ.frame f) (pairs.map fun pair => (pair.1, ρ.value pair.2))) fun u => u :=
  update (fun s => s.grows_bindAll f pairs) fun hmirrors _ => hmirrors.bindAll f pairs

theorem bindOne (f : FrameId) (name : String) (v : Value) :
    ρ.Carries (Eval.update fun s => s.bind f name v)
      (Eval.update fun s => s.bind (ρ.frame f) name (ρ.value v)) fun u => u :=
  update (fun s => s.grows_bind f name v) fun hmirrors _ => hmirrors.bind f name v

theorem define (f : FrameId) (name : String) (v : Value) :
    ρ.Carries (Eval.update fun s => s.define f name v)
      (Eval.update fun s => s.define (ρ.frame f) name (ρ.value v)) fun u => u :=
  update (fun s => s.grows_define f name v) fun hmirrors hs => hmirrors.define hs f name v

theorem within {x : Eval α} {y : Eval β} (f : FrameId) (hx : ρ.Carries x y g) :
    ρ.Carries (Eval.within f x) (Eval.within (ρ.frame f) y) g where
  grows s := by
    cases henter : (s.enter f).1 with
    | error e =>
      rw [Eval.within_of_error x henter]
      exact s.grows_enter f
    | ok u =>
      rw [Eval.within_of_ok x henter]
      exact (s.grows_enter f).trans ((hx.grows _).trans (Store.grows_leave _ f))
  mirrors {supply s t} hmirrors hcovers := by
    obtain ⟨hresult, hstore⟩ := hmirrors.enter f
    cases henter : (s.enter f).1 with
    | error e =>
      rw [Eval.within_of_error x henter, Eval.within_of_error y (hresult.trans henter)]
      exact ⟨rfl, hstore⟩
    | ok u =>
      rw [Eval.within_of_ok x henter] at hcovers ⊢
      rw [Eval.within_of_ok y (hresult.trans henter)]
      have hinside := hcovers.of_grows _ (Store.grows_leave _ f)
      obtain ⟨hresult', hstore'⟩ := hx.mirrors hstore hinside
      exact ⟨hresult', hstore'.leave f⟩

end Carries

end Relabelling

end ConfinedLisp
