import ConfinedLisp.Proofs.Equivariance

/-!
# Names still to be given

No value that a host can have in hand, and none in a store that it can come to, has a name that is
still to be given there. Put in terms of other names: such a store and such values are the same under
other names if the names that have been given stay as they are. For whatever a host does gives the
same under other names, and at the beginning there is nothing.

## Main definitions

- `Relabelling.Fixes`: the names that have been given stay as they are.
- `Relabelling.Leaves`: a store and some values are the same under other names.

## Main results

- `Reachable.leaves`: a store that a host can come to, and the values that it can have in hand.
-/

namespace ConfinedLisp

/-- A table stays the same if all its values do. -/
theorem Table.map_eq_self {α : Type} {t : Table α} {g : α → α} (h : ∀ v ∈ t.values, g v = v) :
    t.map g = t := by
  obtain ⟨slots, positions, next⟩ := t
  have hslots : slots.map (fun slot => (slot.1, g slot.2)) = slots := by
    refine Array.toList_inj.1 (Array.toList_map.trans ?_)
    refine (List.map_inj_left.2 fun slot hslot => ?_).trans (List.map_id _)
    exact Prod.ext rfl (h slot.2 (List.mem_map.2 ⟨slot, hslot, rfl⟩))
  rw [Table.map, hslots]

namespace Relabelling

variable {ρ : Relabelling} {s t : Store} {given : List Value} {n m : Identity}

/-- Frames stay as they are, and so do the identities before one. -/
structure Fixes (ρ : Relabelling) (next : Identity) : Prop where
  frame : ∀ f, ρ.frame f = f
  identity : ∀ id < next, ρ.identity id = id

theorem Fixes.mono (h : ρ.Fixes m) (hnm : n ≤ m) : ρ.Fixes n :=
  ⟨h.frame, fun id hid => h.identity id (Nat.lt_of_lt_of_le hid hnm)⟩

/-- Identities that stay as they are, from one up to another one. -/
def Fixes.supply (h : ρ.Fixes m) (n : Identity) : ρ.Supply where
  source := n
  target := n
  length := m - n
  identity_eq k hk := h.identity (n + k) (Nat.add_lt_of_lt_sub' hk)

/-- A store and some values are the same under other names. -/
structure Leaves (ρ : Relabelling) (s : Store) (given : List Value) : Prop where
  frames : ∀ f : FrameId, s.frames[f]? = s.frames[f]?.map ρ.frameOf
  vectors : s.vectors = s.vectors.map fun items => items.map ρ.value
  given : ∀ v ∈ given, ρ.value v = v

namespace Leaves

theorem mirrors (h : ρ.Leaves s given) (hρ : ρ.Fixes n) :
    (hρ.supply s.nextIdentity).Mirrors s s where
  frames f := by
    rw [hρ.frame]
    exact h.frames f
  newFrames n := hρ.frame _
  vectors := h.vectors
  runtimes := rfl
  identity := ⟨0, rfl, rfl⟩

theorem of_mirrors {supply : ρ.Supply} (hmirrors : supply.Mirrors s s) (hρ : ρ.Fixes n)
    (hgiven : ∀ v ∈ given, ρ.value v = v) : ρ.Leaves s given where
  frames f := by
    have hframes := hmirrors.frames f
    rwa [hρ.frame] at hframes
  vectors := hmirrors.vectors
  given := hgiven

theorem cons {v : Value} (h : ρ.Leaves s given) (hv : ρ.value v = v) : ρ.Leaves s (v :: given) :=
  ⟨h.frames, h.vectors, List.forall_mem_cons.2 ⟨hv, h.given⟩⟩

theorem map_of_subset {vs : List Value} (h : ρ.Leaves s given) (hvs : vs ⊆ given) :
    vs.map ρ.value = vs :=
  (List.map_inj_left.2 fun v hv => h.given v (hvs hv)).trans (List.map_id vs)

/-- A change of the store that can be made under other names. -/
theorem step (h : ρ.Leaves s given) (hρ : ρ.Fixes s.nextIdentity)
    (hstep : ∀ {supply : ρ.Supply}, supply.Mirrors s s → supply.Mirrors t t) : ρ.Leaves t given :=
  of_mirrors (hstep (h.mirrors hρ)) hρ h.given

/-- A computation that does the same under other names. -/
theorem run {α : Type} {x : Eval α} {g : α → α} (h : ρ.Leaves s given) (hx : ρ.Carries x x g)
    (hρ : ρ.Fixes (x s).2.nextIdentity) (hrooted : (x s).2.Rooted) :
    (x s).1 = (x s).1.map g ∧ ρ.Leaves (x s).2 given := by
  have hcovers : (hρ.supply s.nextIdentity).Covers (x s).2 :=
    ⟨Nat.le_of_eq (Nat.add_sub_cancel' (hx.grows s).identity).symm, hrooted⟩
  obtain ⟨hresult, hstore⟩ := hx.mirrors (h.mirrors hρ) hcovers
  exact ⟨hresult, of_mirrors hstore hρ h.given⟩

/-- What such a computation hands to the host. -/
theorem handed {α : Type} {x : Eval α} {g : α → α} (values : α → List Value)
    (h : ρ.Leaves s given) (hx : ρ.Carries x x g) (hρ : ρ.Fixes (x s).2.nextIdentity)
    (hrooted : (x s).2.Rooted) (hvalues : ∀ a, values (g a) = (values a).map ρ.value) :
    ρ.Leaves (x s).2 (Eval.handed values (x s).1 ++ given) := by
  obtain ⟨hresult, hleaves⟩ := h.run hx hρ hrooted
  refine ⟨hleaves.frames, hleaves.vectors, List.forall_mem_append.2 ⟨?_, hleaves.given⟩⟩
  cases hr : (x s).1 with
  | error halt => exact nofun
  | ok a =>
    rw [hr] at hresult
    have hsame : (values a).map ρ.value = (values a).map id := by
      rw [← hvalues, ← Except.ok.inj hresult, List.map_id]
    exact List.map_inj_left.1 hsame

end Leaves

/-- Everything that occurs in a value is the same under other names if the value is. -/
theorem value_eq_of_occurs {part v : Value} (h : part.Occurs v) (hv : ρ.value v = v) :
    ρ.value part = part := by
  have hitem : ∀ {vs : List Value} {v : Value}, vs.map ρ.value = vs → v ∈ vs → ρ.value v = v :=
    fun hvs hmem => List.map_inj_left.1 (hvs.trans (List.map_id _).symm) _ hmem
  induction h with
  | self => exact hv
  | item hmem _ ih =>
    rw [value_list] at hv
    exact ih (hitem (Value.list.inj hv).2 hmem)
  | @entry table v hmem _ ih =>
    rw [value_array] at hv
    have hvalues := congrArg Table.values (Value.array.inj hv)
    rw [Table.values_map] at hvalues
    exact ih (hitem hvalues hmem)
  | functionBody hmem _ ih =>
    rw [value, callable_function] at hv
    exact ih (hitem (Callable.function.inj (Value.callable.inj hv)).2.2.2 hmem)
  | operativeBody hmem _ ih =>
    rw [value, callable_operative] at hv
    exact ih (hitem (Callable.operative.inj (Value.callable.inj hv)).2.2 hmem)

/-- A value that refers to nothing has no name, unless it is a copy of a primitive. -/
theorem value_of_plain {v : Value} (hplain : v.IsPlain) (hleaf : v.IsLeaf)
    (hcopy : ∀ p id, v ≠ .callable (.primitive p (some id))) : ρ.value v = v := by
  cases v with
  | callable c =>
    cases c with
    | primitive p copy =>
      cases copy with
      | none => rfl
      | some id => exact absurd rfl (hcopy p id)
    | _ => exact hplain.elim
  | list | scope | object => exact hplain.elim
  | array => exact hleaf.elim
  | _ => rfl

/-- A fresh sandbox binds no names. -/
theorem seed_map (ρ : Relabelling) :
    Engine.seed.map (fun pair => (pair.1, ρ.value pair.2)) = Engine.seed := by
  simp [Engine.seed, Engine.constants, value, callable, Function.comp_def]

namespace Leaves

theorem withEngine (h : ρ.Leaves s given) (hρ : ρ.Fixes s.nextIdentity) (registry : Registry)
    (limits : Limits) : ρ.Leaves (s.withEngine registry limits) given := by
  refine h.step hρ fun hmirrors => ?_
  have hruntime := hmirrors.withRuntimes (s.addRuntime registry limits).2.runtimes
  have hframe := hruntime.addFrame none s.runtimes.size
  have hbound := hframe.bindAll s.frames.size Engine.seed
  rw [seed_map, hρ.frame] at hbound
  exact hbound

theorem clear (h : ρ.Leaves s given) (f : FrameId) : ρ.Leaves (s.clear f) given where
  frames g := by
    have hframes := h.frames g
    simp only [Store.clear, Array.getElem?_modify]
    split
    · cases hframe : s.frames[g]? with
      | none => rfl
      | some frame =>
        rw [hframe] at hframes
        have hparent := congrArg Frame.parent (Option.some.inj hframes)
        simpa [frameOf] using hparent
    · exact hframes
  vectors := h.vectors
  given := h.given

end Leaves

end Relabelling

namespace Reachable

variable {s : Store} {given : List Value} {ρ : Relabelling}

/-- In a store that a host can come to every frame was made after its parent. -/
theorem rooted (h : Reachable s given) : s.Rooted := by
  obtain ⟨w, rfl, -⟩ := h.isRecorded
  exact w.rooted

open Relabelling in
/-- A store that a host can come to, and the values that it can have in hand, have no names that are
still to be given. -/
theorem leaves (h : Reachable s given) (hρ : ρ.Fixes s.nextIdentity) : ρ.Leaves s given := by
  induction h with
  | start => exact ⟨fun f => rfl, by simp [Store.empty], nofun⟩
  | @create s t given engine registry limits _ hcreate ih =>
    rw [Engine.create_eq] at hcreate
    cases hcreate
    have hgrows : (s.addRuntime registry limits).2.Grows (s.withEngine registry limits) :=
      (Store.grows_addFrame _ none _).trans (Store.grows_bindAll _ _ _)
    have hold := hρ.mono (n := s.nextIdentity) hgrows.identity
    refine ((ih hold).withEngine hold registry limits).cons ?_
    rw [value, hρ.frame]
  | drop _ _ ih => exact (ih hρ).clear _
  | read sourceName source hs ih =>
    have hx := ρ.carries_readForms sourceName source
    have hleaves := ih (hρ.mono (hx.grows _).identity)
    exact hleaves.handed _ hx hρ (hs.read sourceName source).rooted fun _ => rfl
  | @evaluated s given form scope hs hform hscope ih =>
    have hx := ρ.commutes_evaluate form scope
    have hleaves := ih (hρ.mono (hx.grows _).identity)
    rw [hleaves.given form hform, hρ.frame] at hx
    exact hleaves.handed _ hx hρ (hs.evaluated hform hscope).rooted fun _ => rfl
  | @called s given args callee scope hs hcallee hargs hscope ih =>
    have hx := ρ.carries_call scope callee args
    have hleaves := ih (hρ.mono (hx.grows _).identity)
    rw [hleaves.given callee hcallee, hρ.frame, hleaves.map_of_subset hargs] at hx
    exact hleaves.handed _ hx hρ (hs.called hcallee hargs hscope).rooted fun _ => rfl
  | @lookup s given f name hs _ ih =>
    have hleaves := ih hρ
    have hget := (hleaves.mirrors hρ).get hs.rooted f name
    rw [hρ.frame] at hget
    exact hleaves.cons hget.symm
  | @define s given f v name hs _ hv ih =>
    have hleaves := ih hρ
    refine hleaves.step hρ fun hmirrors => ?_
    have hdefine := hmirrors.define hs.rooted f name v
    rwa [hρ.frame, hleaves.given v hv] at hdefine
  | @bind s given f v name hs _ hv ih =>
    have hleaves := ih hρ
    refine hleaves.step hρ fun hmirrors => ?_
    have hbind := hmirrors.bind f name v
    rwa [hρ.frame, hleaves.given v hv] at hbind
  | @child s given f hs _ ih =>
    have hleaves := ih hρ
    refine (hleaves.step hρ fun hmirrors => ?_).cons (by rw [value, hρ.frame])
    have hframe := hmirrors.addFrame (some f) ((s.runtimeId? f).getD 0)
    rwa [Option.map_some, hρ.frame] at hframe
  | @detached s given f hs _ ih =>
    refine ((ih hρ).step hρ fun hmirrors => ?_).cons (by rw [value, hρ.frame])
    exact hmirrors.addFrame none ((s.runtimeId? f).getD 0)
  | @list s given items _ hitems ih =>
    have hold := hρ.mono (Nat.le_succ s.nextIdentity)
    have hleaves := ih hold
    refine (hleaves.step hold fun hmirrors => hmirrors.freshened).cons ?_
    rw [value_list, hρ.identity _ (Nat.lt_succ_self s.nextIdentity), hleaves.map_of_subset hitems]
  | table _ _ hvalues ih =>
    have hleaves := ih hρ
    refine hleaves.cons ?_
    rw [value_array, Table.map_eq_self fun v hv => hleaves.given v (hvalues hv)]
  | @copy s given p _ ih =>
    have hold := hρ.mono (Nat.le_succ s.nextIdentity)
    refine ((ih hold).step hold fun hmirrors => hmirrors.freshened).cons ?_
    rw [value, callable, Option.map_some, hρ.identity _ (Nat.lt_succ_self s.nextIdentity)]
  | plain _ hplain hleaf hcopy ih => exact (ih hρ).cons (value_of_plain hplain hleaf hcopy)
  | part _ hv hpart ih => exact (ih hρ).cons (value_eq_of_occurs hpart ((ih hρ).given _ hv))

end Reachable

end ConfinedLisp
