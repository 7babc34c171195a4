import ConfinedLisp.Proofs.Keeping
import ConfinedLisp.Proofs.Session

/-!
# What a host grants

A grant says which host functions and host types programs may get hold of. If a store holds only
what is granted, and its registries offer only what is granted, then evaluation leaves it so: a
program obtains host functions and types through imports alone, and host objects only from what
makes them.

## Main definitions

- `Grant`: the host functions, by name, and the host types that are granted.
- `Grant.Governs`: a store holds and offers only what is granted.
- `Grant.realm`: the realm of the stores that a grant governs.
-/

namespace ConfinedLisp

/-- The host functions, by their names, and the host types that programs may get hold of. -/
structure Grant where
  function : String → HostFunction → Prop
  type : HostType → Prop
  /-- With a type come its static methods. -/
  static : ∀ {t : HostType} {method : String × HostFunction}, type t → method ∈ t.statics →
    function (t.qualified method.1) method.2

namespace Grant

variable (G : Grant) {s t : Store}

/-- Something is granted that makes host objects. -/
def MakesObjects : Prop :=
  (∃ name, G.function name .vectorOf) ∨ ∃ t, G.type t ∧ t.construct = .plain .vectorOf

/-- A grant allows a value, what occurs in it aside. -/
def Allows : Value → Prop
  | .callable (.foreign _ name f) => G.function name f
  | .callable (.constructor _ t) => G.type t
  | .object _ => G.MakesObjects
  | _ => True

/-- A registry offers only what is granted. -/
structure Covers (registry : Registry) : Prop where
  function : ∀ {name f}, registry.function? name = some f → G.function name f
  type : ∀ {name t}, registry.type? name = some t → G.type t

theorem covers_empty : G.Covers .empty where
  function h := by cases h
  type h := by cases h

/-- A store holds and offers only what is granted. -/
structure Governs (s : Store) : Prop where
  holds : ∀ v, s.Holds v → v.All G.Allows
  covers : ∀ (i : RuntimeId) (r : Runtime), s.runtimes[i]? = some r → G.Covers r.registry

variable {G}

theorem allows_of_plain {v : Value} (hv : v.IsPlain) : G.Allows v := by
  cases v with
  | callable c =>
    cases c with
    | primitive p copy => trivial
    | _ => exact hv.elim
  | object i => exact hv.elim
  | _ => trivial

namespace Governs

theorem registry (h : G.Governs s) (f : FrameId) : G.Covers (s.registry f) := by
  unfold Store.registry
  split
  · next r hr =>
    obtain ⟨i, -, hr⟩ := Option.bind_eq_some_iff.1 hr
    exact h.covers i r hr
  · exact G.covers_empty

/-- A store that has grown is still governed if what is new in it is allowed. -/
theorem of_grows (h : G.Governs s) (hgrows : s.Grows t)
    (hholds : ∀ v, t.Holds v → s.Holds v ∨ v.All G.Allows) : G.Governs t where
  holds v hv := (hholds v hv).elim (h.holds v) id
  covers i r hr := by
    obtain ⟨r₀, hr₀, hext⟩ := hgrows.runtime_of hr
    rw [hext.registry]
    exact h.covers i r₀ hr₀

theorem freshened (h : G.Governs s) : G.Governs s.freshened :=
  h.of_grows s.grows_freshened fun _ => Or.inl

theorem bindAll {f : FrameId} {pairs : List (String × Value)} (h : G.Governs s)
    (hpairs : ∀ pair ∈ pairs, pair.2.All G.Allows) : G.Governs (s.bindAll f pairs) := by
  refine h.of_grows (s.grows_bindAll f pairs) fun v hv => (Store.holds_bindAll hv).imp_right ?_
  rintro ⟨pair, hpair, rfl⟩
  exact hpairs pair hpair

theorem define {f : FrameId} {name : String} {v : Value} (h : G.Governs s) (hv : v.All G.Allows) :
    G.Governs (s.define f name v) := by
  refine h.of_grows (s.grows_define f name v) fun w hw => (Store.holds_define hw).imp_right ?_
  rintro rfl
  exact hv

theorem addFrame {parent : Option FrameId} {runtime : RuntimeId} (h : G.Governs s) :
    G.Governs (s.addFrame parent runtime).2 :=
  h.of_grows (s.grows_addFrame parent runtime) fun _ hv => Or.inl (Store.holds_addFrame hv)

theorem addVector {items : List Value} (h : G.Governs s) (hitems : ∀ v ∈ items, v.All G.Allows) :
    G.Governs (s.addVector items).2 :=
  h.of_grows (s.grows_addVector items) fun v hv => (Store.holds_addVector hv).imp_right (hitems v)

theorem extendVector {i : VectorId} {items : List Value} (h : G.Governs s)
    (hitems : ∀ v ∈ items, v.All G.Allows) : G.Governs (s.extendVector i items) :=
  h.of_grows (s.grows_extendVector i items) fun v hv =>
    (Store.holds_extendVector hv).imp_right (hitems v)

theorem enter (h : G.Governs s) (f : FrameId) : G.Governs (s.enter f).2 :=
  h.of_grows (s.grows_enter f) fun _ hv =>
    Or.inl (hv.congr (s.frames_enter f) (s.vectors_enter f))

theorem leave (h : G.Governs s) (f : FrameId) : G.Governs (s.leave f) :=
  h.of_grows (s.grows_leave f) fun _ hv => Or.inl (hv.congr (s.frames_leave f) (s.vectors_leave f))

theorem get (h : G.Governs s) (f : FrameId) (name : String) : (s.get f name).All G.Allows := by
  rcases s.get_spec (P := fun _ => True) (fun _ _ _ _ => trivial) trivial name with
    hnil | ⟨g, -, hg⟩
  · rw [hnil]
    exact Value.all_of_plain (fun _ => allows_of_plain) trivial trivial
  · exact h.holds _ (Or.inl ⟨g, name, hg⟩)

/-- Making an engine over a registry that offers only what is granted. -/
theorem withEngine {registry : Registry} (h : G.Governs s) (hregistry : G.Covers registry)
    (limits : Limits) : G.Governs (s.withEngine registry limits) where
  holds v hv := by
    rcases Store.holds_bindAll hv with hv | ⟨pair, hpair, rfl⟩
    · exact h.holds v (Store.holds_addFrame hv)
    · exact Engine.all_of_mem_seed (fun _ => allows_of_plain) hpair
  covers i r hr := by
    rw [Store.runtimes_withEngine, Array.getElem?_push] at hr
    split at hr
    · cases hr
      exact hregistry
    · exact h.covers i r hr

theorem clear (h : G.Governs s) (f : FrameId) : G.Governs (s.clear f) where
  holds v hv := h.holds v (Store.holds_clear hv)
  covers := h.covers

end Governs

theorem governs_empty : G.Governs .empty where
  holds v hv := by
    rcases hv with ⟨f, name, h⟩ | ⟨i, h⟩
    · simp [Store.bindings, Store.empty] at h
    · simp [Store.vector, Store.empty] at h
  covers i r hr := by simp [Store.empty] at hr

variable (G)

/-- The realm of the stores that a grant governs. Every frame is a scope: what is granted is granted
everywhere. -/
def realm : Realm { s : Store // G.Governs s } where
  store := Subtype.val
  later w w' := w.1.Grows w'.1
  later_refl w := .refl w.1
  later_trans h h' := h.trans h'
  grows h := h
  part _ := G.Allows
  part_later _ h := h
  part_plain _ _ := allows_of_plain
  scope _ _ := True
  part_scope := Iff.rfl
  captured _ _ := True
  captured_of_scope h := h
  part_function := Iff.rfl
  part_operative := Iff.rfl
  runs _ f := f = .vectorOf → G.MakesObjects
  runs_foreign := by
    rintro w id name f hf rfl
    exact Or.inl ⟨name, hf⟩
  runs_constructor := by
    rintro w id t f ht hconstruct rfl
    exact Or.inr ⟨t, ht, hconstruct⟩
  part_foreign := fun {w f} _ _ _ _ hf => (w.2.registry f).function hf
  part_constructor := fun {w f} _ _ _ _ ht => (w.2.registry f).type ht
  part_static := fun {w f} _ _ _ _ _ ht hmethod => G.static ((w.2.registry f).type ht) hmethod
  get := fun {w f} name _ => w.2.get f name
  fresh := fun {w} _ _ => ⟨⟨_, w.2.freshened⟩, w.1.grows_freshened, rfl, trivial⟩
  bindAll := fun {w _ _} _ h => ⟨⟨_, w.2.bindAll h⟩, w.1.grows_bindAll _ _, rfl⟩
  define := fun {w _ _} _ _ h => ⟨⟨_, w.2.define h⟩, w.1.grows_define _ _ _, rfl⟩
  child := fun {w _} _ => ⟨⟨_, w.2.addFrame⟩, w.1.grows_addFrame _ _, rfl, trivial⟩
  detached := fun {w _} _ => ⟨⟨_, w.2.addFrame⟩, w.1.grows_addFrame _ _, rfl, trivial⟩
  vector := fun {w _} hruns h => ⟨⟨_, w.2.addVector h⟩, w.1.grows_addVector _, rfl, hruns rfl⟩
  extend := fun {w _ _} _ h => ⟨⟨_, w.2.extendVector h⟩, w.1.grows_extendVector _ _, rfl⟩
  items := fun {w i _} _ hx => w.2.holds _ (Or.inr ⟨i, hx⟩)
  enter := fun {w f} _ => ⟨⟨_, w.2.enter f⟩, w.1.grows_enter f, rfl⟩
  leave := fun {w f} _ => ⟨⟨_, w.2.leave f⟩, w.1.grows_leave f, rfl⟩

variable {G}

/-- What a computation leads to is governed, if it keeps the realm. -/
theorem Governs.of_runs {α : Type} {x : Eval α} {Q : { s : Store // G.Governs s } → α → Prop}
    (hs : G.Governs s) (h : G.realm.Runs ⟨s, hs⟩ x Q) : G.Governs (x s).2 := by
  obtain ⟨w, -, hstore, -⟩ := h
  exact hstore ▸ w.2

end Grant

end ConfinedLisp
