import ConfinedLisp.Proofs.Grant

/-!
# Confinement to the registry

A sandbox gets hold of host functions and host types only through its registry. Whatever texts a
fresh engine evaluates, and whether they succeed or fail, every host function that occurs anywhere
is one that the registry backs under that very name, and every host type is one that it offers.

## Main definitions

- `Registry.Backs`: a registry has a function under a name, or offers a type of which it is a static
  method.
- `Engine.Reaches`: the stores that a fresh engine comes to.

## Main results

- `Engine.confined_to_registry`: confinement, for every registry.
-/

namespace ConfinedLisp

namespace Registry

variable (registry : Registry)

/-- A type is one that programs may import. -/
def Offers (t : HostType) : Prop := ∃ name, registry.type? name = some t

/-- A function is the registered one of its name, or a static method of a registered type under its
qualified name. -/
def Backs (name : String) (f : HostFunction) : Prop :=
  registry.function? name = some f ∨
    ∃ t method, registry.Offers t ∧ (method, f) ∈ t.statics ∧ name = t.qualified method

theorem not_offers_empty (t : HostType) : ¬ empty.Offers t := by
  rintro ⟨name, h⟩
  cases h

theorem not_backs_empty (name : String) (f : HostFunction) : ¬ empty.Backs name f := by
  rintro (h | ⟨t, method, ht, -⟩)
  · cases h
  · exact not_offers_empty t ht

/-- What a registry grants. -/
def grant : Grant where
  function := registry.Backs
  type := registry.Offers
  static ht hmethod := Or.inr ⟨_, _, ht, hmethod, rfl⟩

theorem grant_covers : registry.grant.Covers registry where
  function h := Or.inl h
  type h := ⟨_, h⟩

end Registry

/-- A value of the host: a host function, a host type or a host object. -/
def Value.IsHost : Value → Prop
  | .callable (.foreign ..) | .callable (.constructor ..) | .object _ => True
  | _ => False

/-- The name and the code of a value that is a host function. -/
def Value.hostFunction? : Value → Option (String × HostFunction)
  | .callable (.foreign _ name f) => some (name, f)
  | _ => none

theorem Value.eq_of_hostFunction? {v : Value} {name : String} {f : HostFunction}
    (h : v.hostFunction? = some (name, f)) : ∃ id, v = .callable (.foreign id name f) := by
  unfold Value.hostFunction? at h
  split at h
  · next id name' f' =>
    cases h
    exact ⟨id, rfl⟩
  · cases h

/-- The empty registry grants no value of the host. -/
theorem Registry.not_isHost_of_allows {v : Value} (h : Registry.empty.grant.Allows v) :
    ¬ v.IsHost := by
  cases v with
  | callable c =>
    cases c with
    | foreign id name f => exact fun _ => Registry.not_backs_empty name f h
    | constructor id t => exact fun _ => Registry.not_offers_empty t h
    | _ => exact id
  | object i =>
    rcases h with ⟨name, h⟩ | ⟨t, ht, -⟩
    · exact fun _ => Registry.not_backs_empty name .vectorOf h
    · exact fun _ => Registry.not_offers_empty t ht
  | _ => exact id

namespace Engine

/-- The stores that a fresh engine comes to by evaluating texts. A text that fails leaves behind
what it did before. -/
inductive Reaches (registry : Registry) (limits : Limits) : Store → Prop where
  | fresh : Reaches registry limits (Engine.create registry limits .empty).2
  | eval {s : Store} (source : String) :
      Reaches registry limits s → Reaches registry limits (first.evalSource source s).2

variable {registry : Registry} {limits : Limits} {s : Store}

theorem Reaches.governs (h : Reaches registry limits s) : registry.grant.Governs s := by
  induction h with
  | fresh => exact Grant.governs_empty.withEngine registry.grant_covers limits
  | eval source _ ih => exact .of_runs ih (Realm.runs_evalNamed first _ source trivial)

/-- What a text gives is allowed, like what it leaves behind. -/
theorem Reaches.all_result (h : Reaches registry limits s) {source : String} {v : Value}
    (hv : (first.evalSource source s).1 = .ok v) : v.All registry.grant.Allows := by
  obtain ⟨w, -, -, -, hvalue⟩ := Realm.runs_evalNamed (R := registry.grant.realm)
    (w := ⟨s, h.governs⟩) first defaultSourceName source trivial
  exact hvalue v hv

/-- Confinement to the registry. In every store that a fresh engine comes to, and in whatever the
next text gives, every host function is backed by the registry under its name and every host type is
offered by it; with the empty registry there is no value of the host at all. -/
theorem confined_to_registry (hs : Reaches registry limits s) (source : String) {v part : Value}
    (hv : s.Holds v ∨ (first.evalSource source s).1 = .ok v) (hpart : part.Occurs v) :
    (∀ id name f, part = .callable (.foreign id name f) → registry.Backs name f) ∧
      (∀ id t, part = .callable (.constructor id t) → registry.Offers t) ∧
      (registry = .empty → ¬ part.IsHost) := by
  have hallows : registry.grant.Allows part := by
    rcases hv with hv | hv
    · exact hs.governs.holds v hv part hpart
    · exact hs.all_result hv part hpart
  refine ⟨?_, ?_, ?_⟩
  · rintro id name f rfl
    exact hallows
  · rintro id t rfl
    exact hallows
  · rintro rfl
    exact Registry.not_isHost_of_allows hallows

/-- An import binds a host function, which the registry has under its name. -/
theorem confined_to_registry_import :
    ∃ id, (first.evalSource "(use abs)" (Engine.create .standard {} .empty).2).2.get 0 "abs" =
        .callable (.foreign id "abs" .abs) ∧
      Registry.standard.Backs "abs" .abs := by
  let s := (first.evalSource "(use abs)" (Engine.create .standard {} .empty).2).2
  have hfunction : (s.get 0 "abs").hostFunction? = some ("abs", .abs) := by decide +kernel
  obtain ⟨id, hid⟩ := Value.eq_of_hostFunction? hfunction
  have hholds : s.Holds (s.get 0 "abs") := by
    rcases s.get_spec (P := fun _ => True) (fun _ _ _ _ => trivial) trivial "abs" with
      hnil | ⟨f, -, hbound⟩
    · rw [hnil] at hid
      cases hid
    · exact Or.inl ⟨f, "abs", hbound⟩
  have hconfined := confined_to_registry (.eval _ .fresh) "" (Or.inl hholds) .self
  exact ⟨id, hid, hconfined.1 id "abs" .abs hid⟩

end Engine

end ConfinedLisp
