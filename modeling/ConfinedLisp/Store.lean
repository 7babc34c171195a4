import ConfinedLisp.Limits
import ConfinedLisp.Value

/-!
# The store

Everything that evaluation can change: the frames of bindings, the budgets of the runtimes, the vectors
of the host, and a supply of fresh identities. Frames form a forest; a frame is made after its parent,
so the way to the root always goes to smaller references.

Reading a name goes up the chain of a frame (`Store.lookup?`). Writing it goes to the nearest frame of
the chain that has it (`Store.define`) or to the frame itself (`Store.bind`).
-/

namespace ConfinedLisp

/-- A reference to a runtime. -/
abbrev RuntimeId := Nat

/-- A frame of bindings. -/
structure Frame where
  bindings : List (String × Value)
  parent : Option FrameId
  runtime : RuntimeId

/-- What the frames of one sandbox share: what it may import, its limits, and what it has spent. -/
structure Runtime where
  registry : Registry
  limits : Limits
  /-- The number of applications in progress. -/
  depth : Nat
  /-- The number of applications so far. -/
  steps : Nat

/-- The state of evaluation. -/
structure Store where
  frames : Array Frame
  runtimes : Array Runtime
  vectors : Array (Array Value)
  /-- The next identity of a list or callable. -/
  nextIdentity : Identity

namespace Store

/-- The store in which nothing has been made. -/
def empty : Store := ⟨#[], #[], #[], 0⟩

instance : Inhabited Store := ⟨empty⟩

/-- Makes a runtime that has spent nothing. -/
def addRuntime (s : Store) (registry : Registry) (limits : Limits) : RuntimeId × Store :=
  (s.runtimes.size, { s with runtimes := s.runtimes.push ⟨registry, limits, 0, 0⟩ })

/-- Makes a frame without bindings. -/
def addFrame (s : Store) (parent : Option FrameId) (runtime : RuntimeId) : FrameId × Store :=
  (s.frames.size, { s with frames := s.frames.push ⟨[], parent, runtime⟩ })

/-- Makes a vector. -/
def addVector (s : Store) (items : List Value) : VectorId × Store :=
  (s.vectors.size, { s with vectors := s.vectors.push items.toArray })

/-- The items of a vector. -/
def vector (s : Store) (v : VectorId) : List Value :=
  match s.vectors[v]? with
  | some items => items.toList
  | none => []

/-- The number of items of a vector. -/
def vectorSize (s : Store) (v : VectorId) : Nat :=
  match s.vectors[v]? with
  | some items => items.size
  | none => 0

/-- Adds items at the end of a vector. -/
def extendVector (s : Store) (v : VectorId) (items : List Value) : Store :=
  { s with vectors := s.vectors.modify v (· ++ items) }

/-- The bindings of a frame. -/
def bindings (s : Store) (f : FrameId) : List (String × Value) :=
  match s.frames[f]? with
  | some frame => frame.bindings
  | none => []

/-- The parent of a frame. -/
def parent? (s : Store) (f : FrameId) : Option FrameId := s.frames[f]?.bind (·.parent)

/-- The runtime of a frame. -/
def runtimeId? (s : Store) (f : FrameId) : Option RuntimeId := s.frames[f]?.map (·.runtime)

/-- What the frames of a sandbox share, seen from one of them. -/
def runtime? (s : Store) (f : FrameId) : Option Runtime := (s.runtimeId? f).bind (s.runtimes[·]?)

/-- What a frame's programs may import. -/
def registry (s : Store) (f : FrameId) : Registry :=
  match s.runtime? f with
  | some runtime => runtime.registry
  | none => .empty

/-- The value of a name in one frame. -/
def localValue? (s : Store) (f : FrameId) (name : String) : Option Value :=
  Assoc.find? name (s.bindings f)

/-- Whether one frame binds a name. -/
def bindsLocally (s : Store) (f : FrameId) (name : String) : Bool := (s.localValue? f name).isSome

/-- A frame and at most `fuel - 1` of its ancestors, the nearest first. -/
def chainWithin (s : Store) : Nat → FrameId → List FrameId
  | 0, _ => []
  | fuel + 1, f =>
    match s.frames[f]? with
    | none => []
    | some frame =>
      f :: match frame.parent with
        | none => []
        | some p => chainWithin s fuel p

/-- A frame and its ancestors, the nearest first. References fall along the way, so there are at most
`f + 1` of them. -/
def chain (s : Store) (f : FrameId) : List FrameId := s.chainWithin (f + 1) f

/-- The number of ancestors of a frame. -/
def depthOf (s : Store) (f : FrameId) : Nat := (s.chain f).length - 1

/-- The nearest of a frame and at most `fuel - 1` of its ancestors that binds a name, with the value. -/
def searchWithin (s : Store) (name : String) : Nat → FrameId → Option (FrameId × Value)
  | 0, _ => none
  | fuel + 1, f =>
    match s.frames[f]? with
    | none => none
    | some frame =>
      match Assoc.find? name frame.bindings with
      | some v => some (f, v)
      | none =>
        match frame.parent with
        | none => none
        | some p => searchWithin s name fuel p

/-- The nearest frame of the chain that binds a name. -/
def holder? (s : Store) (f : FrameId) (name : String) : Option FrameId :=
  (s.searchWithin name (f + 1) f).map Prod.fst

/-- The value of a name, from the nearest frame that binds it. -/
def lookup? (s : Store) (f : FrameId) (name : String) : Option Value :=
  (s.searchWithin name (f + 1) f).map Prod.snd

/-- The value of a name, nil if it is not bound. -/
def get (s : Store) (f : FrameId) (name : String) : Value := (s.lookup? f name).getD .nil

/-- Binds a name in one frame. -/
def bind (s : Store) (f : FrameId) (name : String) (v : Value) : Store :=
  { s with frames := s.frames.modify f fun frame =>
      { frame with bindings := Assoc.put name v frame.bindings } }

/-- Gives a name a new value in the nearest frame that binds it, or binds it in `f` if none does. -/
def define (s : Store) (f : FrameId) (name : String) (v : Value) : Store :=
  s.bind ((s.holder? f name).getD f) name v

/-- Binds several names in one frame, in turn. -/
def bindAll (s : Store) (f : FrameId) (pairs : List (String × Value)) : Store :=
  pairs.foldl (fun s pair => s.bind f pair.1 pair.2) s

/-- Removes the bindings of one frame. -/
def clear (s : Store) (f : FrameId) : Store :=
  { s with frames := s.frames.modify f fun frame => { frame with bindings := [] } }

/-- The names that one frame binds, in order. -/
def localNames (s : Store) (f : FrameId) : List String := sortedTexts (Assoc.keys (s.bindings f))

/-- The number of names that one frame binds. -/
def localCount (s : Store) (f : FrameId) : Nat := (s.bindings f).length

/-- How many more applications may be nested, over all runtimes together. -/
def headroom (s : Store) : Nat :=
  s.runtimes.foldl (fun sum runtime => sum + (runtime.limits.maxDepth - runtime.depth)) 0

/-- A vector has as many items as it says. -/
@[simp] theorem length_vector (s : Store) (v : VectorId) : (s.vector v).length = s.vectorSize v := by
  unfold vector vectorSize
  split <;> simp

/-- The search goes along the chain. -/
theorem searchWithin_eq_findSome? (s : Store) (name : String) (fuel : Nat) (f : FrameId) :
    s.searchWithin name fuel f =
      (s.chainWithin fuel f).findSome? fun g => (s.localValue? g name).map fun v => (g, v) := by
  induction fuel generalizing f with
  | zero => rfl
  | succ fuel ih =>
    rw [searchWithin, chainWithin]
    cases hframe : s.frames[f]? with
    | none => rfl
    | some frame =>
      have hhere : s.localValue? f name = Assoc.find? name frame.bindings := by
        simp [localValue?, bindings, hframe]
      simp only [List.findSome?_cons, hhere]
      cases Assoc.find? name frame.bindings with
      | some v => rfl
      | none =>
        cases frame.parent with
        | none => rfl
        | some p => exact ih p

/-- A name is looked up in the frames of the chain, the nearest first. -/
theorem lookup?_eq_findSome? (s : Store) (f : FrameId) (name : String) :
    s.lookup? f name = (s.chain f).findSome? fun g => s.localValue? g name := by
  rw [lookup?, searchWithin_eq_findSome?, chain]
  induction s.chainWithin (f + 1) f with
  | nil => rfl
  | cons g gs ih =>
    rw [List.findSome?_cons, List.findSome?_cons]
    cases s.localValue? g name with
    | none => exact ih
    | some v => rfl

/-- The holder of a name is the first frame of the chain that binds it. -/
theorem holder?_eq_find? (s : Store) (f : FrameId) (name : String) :
    s.holder? f name = (s.chain f).find? fun g => s.bindsLocally g name := by
  rw [holder?, searchWithin_eq_findSome?, chain]
  induction s.chainWithin (f + 1) f with
  | nil => rfl
  | cons g gs ih =>
    rw [List.findSome?_cons, List.find?_cons, bindsLocally]
    cases s.localValue? g name with
    | none => exact ih
    | some v => rfl

end Store

end ConfinedLisp
