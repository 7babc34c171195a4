import ConfinedLisp.Evaluation.Control
import ConfinedLisp.Json.Codec
import ConfinedLisp.Operation.Run
import ConfinedLisp.Proofs.Growth

/-!
# Other budgets

`Store.rebudget` gives a store other runtimes, and `Store.relimit` gives every runtime of a store
other limits. Only entering and leaving an application looks at a budget: everything else that
evaluation does to the store, or reads off it, is `Unbudgeted`, that is, it leaves the runtimes
alone and does the same whatever they are, as long as they offer the same for import.
-/

namespace ConfinedLisp

namespace Runtime

/-- A runtime with other limits. -/
def relimit (g : Limits → Limits) (r : Runtime) : Runtime := { r with limits := g r.limits }

/-- What one of some runtimes offers for import. -/
def registryOf (runtimes : Array Runtime) (i : RuntimeId) : Registry :=
  (runtimes[i]?.map (·.registry)).getD .empty

/-- Runtimes that offer the same for import. -/
def OfferSame (runtimes runtimes' : Array Runtime) : Prop :=
  ∀ i, registryOf runtimes' i = registryOf runtimes i

theorem offerSame_relimit (g : Limits → Limits) (runtimes : Array Runtime) :
    OfferSame runtimes (runtimes.map (relimit g)) := by
  intro i
  unfold registryOf
  rw [Array.getElem?_map]
  cases runtimes[i]? <;> rfl

end Runtime

namespace Store

/-- A store with other runtimes. -/
def rebudget (s : Store) (runtimes : Array Runtime) : Store := { s with runtimes }

/-- A store in which every runtime has other limits. -/
def relimit (g : Limits → Limits) (s : Store) : Store :=
  { s with runtimes := s.runtimes.map (Runtime.relimit g) }

end Store

/-- An operation on the store that neither changes a runtime nor looks at its budget. -/
structure Unbudgeted {α : Type} (op : Store → α × Store) : Prop where
  runtimes : ∀ s, (op s).2.runtimes = s.runtimes
  rebudget : ∀ (s : Store) (runtimes : Array Runtime), Runtime.OfferSame s.runtimes runtimes →
    op (s.rebudget runtimes) = ((op s).1, (op s).2.rebudget runtimes)

/-- An operation without regard to budgets does the same under other limits. -/
theorem Unbudgeted.relimit {α : Type} {op : Store → α × Store} (h : Unbudgeted op)
    (g : Limits → Limits) (s : Store) : op (s.relimit g) = ((op s).1, (op s).2.relimit g) := by
  refine (h.rebudget s _ (Runtime.offerSame_relimit g s.runtimes)).trans ?_
  rw [← h.runtimes s]
  rfl

namespace Store

variable {runtimes : Array Runtime}

@[simp] theorem frames_rebudget (s : Store) (runtimes : Array Runtime) :
    (s.rebudget runtimes).frames = s.frames := rfl

@[simp] theorem vectors_rebudget (s : Store) (runtimes : Array Runtime) :
    (s.rebudget runtimes).vectors = s.vectors := rfl

@[simp] theorem runtimeId?_rebudget (s : Store) (runtimes : Array Runtime) (f : FrameId) :
    (s.rebudget runtimes).runtimeId? f = s.runtimeId? f := rfl

@[simp] theorem runtimeId?_relimit (g : Limits → Limits) (s : Store) (f : FrameId) :
    (s.relimit g).runtimeId? f = s.runtimeId? f := rfl

theorem registry_eq_registryOf {s : Store} {f : FrameId} {i : RuntimeId}
    (h : s.runtimeId? f = some i) : s.registry f = Runtime.registryOf s.runtimes i := by
  unfold registry runtime? Runtime.registryOf
  rw [h, Option.bind_some]
  cases s.runtimes[i]? <;> rfl

@[simp] theorem registry_rebudget {s : Store} (h : Runtime.OfferSame s.runtimes runtimes)
    (f : FrameId) : (s.rebudget runtimes).registry f = s.registry f := by
  cases hi : s.runtimeId? f with
  | none => simp [registry, runtime?, hi]
  | some i =>
    rw [registry_eq_registryOf hi, registry_eq_registryOf ((runtimeId?_rebudget ..).trans hi)]
    exact h i

@[simp] theorem isCallable_rebudget {s : Store} (h : Runtime.OfferSame s.runtimes runtimes)
    (f : FrameId) (v : Value) : (s.rebudget runtimes).isCallable f v = s.isCallable f v := by
  cases v with
  | str name => simp [isCallable, h]
  | _ => rfl

theorem searchWithin_rebudget (s : Store) (runtimes : Array Runtime) (name : String) (fuel : Nat)
    (f : FrameId) :
    (s.rebudget runtimes).searchWithin name fuel f = s.searchWithin name fuel f := by
  induction fuel generalizing f with
  | zero => rfl
  | succ fuel ih => simp only [searchWithin, frames_rebudget, ih]

@[simp] theorem get_rebudget (s : Store) (runtimes : Array Runtime) (f : FrameId)
    (name : String) : (s.rebudget runtimes).get f name = s.get f name := by
  simp only [get, lookup?, searchWithin_rebudget]

@[simp] theorem vector_rebudget (s : Store) (runtimes : Array Runtime) (v : VectorId) :
    (s.rebudget runtimes).vector v = s.vector v :=
  rfl

theorem looseVectors_rebudget (s : Store) (runtimes : Array Runtime) (fuel : Nat) :
    (s.rebudget runtimes).looseVectors fuel = s.looseVectors fuel := by
  induction fuel with
  | zero => rfl
  | succ fuel ih =>
    funext v w
    simp only [looseVectors, vector_rebudget, ih]

@[simp] theorem looseEq_rebudget (s : Store) (runtimes : Array Runtime) (v w : Value) :
    (s.rebudget runtimes).looseEq v w = s.looseEq v w := by
  simp only [looseEq, vectors_rebudget, looseVectors_rebudget]

end Store

theorem Json.encodeVector_rebudget (s : Store) (runtimes : Array Runtime) (fuel : Nat) :
    Json.encodeVector (s.rebudget runtimes) fuel = Json.encodeVector s fuel := by
  induction fuel with
  | zero => rfl
  | succ fuel ih =>
    funext v
    simp only [Json.encodeVector, Store.vector_rebudget, ih]

@[simp] theorem Json.encode_rebudget (s : Store) (runtimes : Array Runtime) (v : Value) :
    Json.encode (s.rebudget runtimes) v = Json.encode s v := by
  simp only [Json.encode, Store.vectors_rebudget, Json.encodeVector_rebudget]

@[simp] theorem Logic.allLooseWith_rebudget (s : Store) (runtimes : Array Runtime) (first : Value)
    (others : List Value) :
    Logic.allLooseWith first (s.rebudget runtimes) others = Logic.allLooseWith first s others := by
  induction others with
  | nil => rfl
  | cons v rest ih => simp only [Logic.allLooseWith, Store.looseEq_rebudget, ih]

namespace Unbudgeted

/-- Reading what does not depend on budgets. -/
theorem read {α : Type} {f : Store → α}
    (hf : ∀ s runtimes, Runtime.OfferSame s.runtimes runtimes → f (s.rebudget runtimes) = f s) :
    Unbudgeted fun s => (f s, s) where
  runtimes _ := rfl
  rebudget s runtimes h := by simp only [hf s runtimes h]

theorem freshened : Unbudgeted fun s => (s.nextIdentity, s.freshened) where
  runtimes _ := rfl
  rebudget _ _ _ := rfl

theorem newList (items : List Value) :
    Unbudgeted fun s => (Value.list s.nextIdentity items, s.freshened) where
  runtimes _ := rfl
  rebudget _ _ _ := rfl

theorem addFrame {parent : Option FrameId} {runtime : Store → RuntimeId}
    (hruntime : ∀ s runtimes, runtime (s.rebudget runtimes) = runtime s) :
    Unbudgeted fun s => s.addFrame parent (runtime s) where
  runtimes _ := rfl
  rebudget s runtimes _ := by
    simp only [hruntime]
    rfl

theorem addVector (items : List Value) : Unbudgeted fun s => s.addVector items where
  runtimes _ := rfl
  rebudget _ _ _ := rfl

theorem extendVector (v : VectorId) (items : List Value) :
    Unbudgeted fun s => ((), s.extendVector v items) where
  runtimes _ := rfl
  rebudget _ _ _ := rfl

theorem bindAll (f : FrameId) (pairs : List (String × Value)) :
    Unbudgeted fun s => ((), s.bindAll f pairs) where
  runtimes s := by
    induction pairs generalizing s with
    | nil => rfl
    | cons pair rest ih => exact ih (s.bind f pair.1 pair.2)
  rebudget s runtimes h := by
    induction pairs generalizing s with
    | nil => rfl
    | cons pair rest ih => exact ih (s.bind f pair.1 pair.2) h

theorem define (f : FrameId) (name : String) (v : Value) :
    Unbudgeted fun s => ((), s.define f name v) where
  runtimes _ := rfl
  rebudget s runtimes _ := by
    simp only [Store.define, Store.holder?, Store.searchWithin_rebudget]
    rfl

end Unbudgeted

end ConfinedLisp
