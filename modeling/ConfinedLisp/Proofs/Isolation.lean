import ConfinedLisp.Proofs.Session
import ConfinedLisp.Proofs.Territory

/-!
# Isolation of engines

Engines share a store and nothing in it. Whatever an engine can get at from its root belongs to its
own runtime, so what another engine does leaves it alone.

## Main definitions

- `Store.LeadsTo`: what can be got at from a frame.
- `Session`: any number of engines that evaluate texts in any order.

## Main results

- `Session.isolated`: the engines of a session are isolated from each other.
-/

namespace ConfinedLisp

namespace Store

variable {s : Store} {owner : VectorId → RuntimeId} {r : RuntimeId}

/-- What can be got at from a frame: its ancestors, and whatever occurs in a value that is bound in
such a frame or is an item of such a vector. -/
inductive LeadsTo (s : Store) (root : FrameId) : Ref → Prop where
  | root : LeadsTo s root (.frame root)
  | parent {f p : FrameId} :
      LeadsTo s root (.frame f) → s.parent? f = some p → LeadsTo s root (.frame p)
  | bound {f : FrameId} {name : String} {v part : Value} {ref : Ref} :
      LeadsTo s root (.frame f) → (name, v) ∈ s.bindings f → part.Occurs v → part.ref? = some ref →
        LeadsTo s root ref
  | item {i : VectorId} {v part : Value} {ref : Ref} :
      LeadsTo s root (.vector i) → v ∈ s.vector i → part.Occurs v → part.ref? = some ref →
        LeadsTo s root ref

theorem Belongs.owns {v : Value} {ref : Ref} (h : s.Belongs owner r v) (href : v.ref? = some ref) :
    s.Owns owner r ref := by
  rw [Belongs, href] at h
  exact h

/-- A frame leads nowhere outside of the territory of its runtime. -/
theorem Partitioned.owns_of_leadsTo (h : s.Partitioned owner) {root : FrameId} {ref : Ref}
    (hroot : s.runtimeId? root = some r) (hleads : s.LeadsTo root ref) : s.Owns owner r ref := by
  induction hleads with
  | root => exact hroot
  | parent _ hp ih => exact h.parent ih hp
  | bound _ hv hpart href ih => exact (h.bound ih hv _ hpart).owns href
  | item _ hv hpart href ih =>
    have hbelongs := h.item hv _ hpart
    rw [ih.2] at hbelongs
    exact hbelongs.owns href

theorem Partitioned.withEngine (h : s.Partitioned owner) (registry : Registry) (limits : Limits) :
    (s.withEngine registry limits).Partitioned owner := by
  have hadded : (s.addRuntime registry limits).2.Partitioned owner := h.congr rfl rfl
  have hframe :
      ((s.addRuntime registry limits).2.addFrame none s.runtimes.size).2.Partitioned owner :=
    hadded.addFrame fun p hp => by cases hp
  refine hframe.bindAll (r := s.runtimes.size) ?_ fun pair hpair => ?_
  · simp [runtimeId?, frames_addFrame, addRuntime]
  · exact Engine.all_of_mem_seed (fun _ => belongs_of_plain) hpair

/-- A text stays in the territory of its engine. With the new vectors assigned to this engine, the
territories are still closed, and nothing outside of this one has changed. -/
theorem Partitioned.evalSource (h : s.Partitioned owner) {engine : Engine}
    (hroot : s.runtimeId? engine.root = some r) (source : String) :
    ∃ owner' : VectorId → RuntimeId, (∀ i, i < s.vectors.size → owner' i = owner i) ∧
      (engine.evalSource source s).2.Partitioned owner' ∧
      ChangesOnly owner' r s (engine.evalSource source s).2 := by
  let owner' : VectorId → RuntimeId := fun i => if i < s.vectors.size then owner i else r
  have hold : ∀ i, i < s.vectors.size → owner' i = owner i := fun i hi => if_pos hi
  have hnew : ∀ i, s.vectors.size ≤ i → owner' i = r := fun i hi => if_neg (Nat.not_lt.2 hi)
  obtain ⟨w, hchanges, hstore, -⟩ := Realm.runs_evalNamed (R := territory owner' r)
    (w := ⟨s, h.reassign hold, hnew⟩) engine Engine.defaultSourceName source hroot
  refine ⟨owner', hold, ?_, ?_⟩
  · exact hstore ▸ w.partitioned
  · exact hstore ▸ hchanges

end Store

/-- Any number of engines, each with its own registry and limits, evaluate texts in any order. -/
inductive Session : List Engine → Store → Prop where
  | start : Session [] .empty
  | create {engines : List Engine} {s t : Store} {engine : Engine} {registry : Registry}
      {limits : Limits} :
      Session engines s → Engine.create registry limits s = (.ok engine, t) →
        Session (engine :: engines) t
  | eval {engines : List Engine} {s : Store} {engine : Engine} (source : String) :
      Session engines s → engine ∈ engines → Session engines (engine.evalSource source s).2

namespace Session

variable {engines : List Engine} {s : Store}

/-- What every session keeps: territories are closed, and each engine has one of its own. -/
structure Settled (engines : List Engine) (s : Store) : Prop where
  partitioned : ∃ owner, s.Partitioned owner
  home : ∀ a ∈ engines, ∃ i, i < s.runtimes.size ∧ s.runtimeId? a.root = some i
  apart : ∀ a ∈ engines, ∀ b ∈ engines, a ≠ b → s.runtimeId? a.root ≠ s.runtimeId? b.root

theorem settled_empty : Settled [] .empty where
  partitioned := by
    refine ⟨fun _ => 0, ?_, ?_, ?_⟩
    · intro f p i hf
      simp [Store.runtimeId?, Store.empty] at hf
    · intro f i name v hf
      simp [Store.runtimeId?, Store.empty] at hf
    · intro j v hv
      simp [Store.vector, Store.empty] at hv
  home a ha := by cases ha
  apart a ha := by cases ha

theorem Settled.create (h : Settled engines s) (registry : Registry) (limits : Limits) :
    Settled (⟨s.frames.size⟩ :: engines) (s.withEngine registry limits) := by
  have hnew := s.runtimeId?_withEngine registry limits
  -- The runtime of the new engine comes after those of all the others.
  have hold : ∀ a ∈ engines, ∃ i, i < s.runtimes.size ∧ s.runtimeId? a.root = some i ∧
      (s.withEngine registry limits).runtimeId? a.root = some i := by
    intro a ha
    obtain ⟨i, hi, hroot⟩ := h.home a ha
    exact ⟨i, hi, hroot, Store.runtimeId?_withEngine_of hroot registry limits⟩
  refine ⟨h.partitioned.imp fun _ howner => howner.withEngine registry limits, ?_, ?_⟩
  · intro a ha
    rw [Store.runtimes_withEngine, Array.size_push]
    rcases List.mem_cons.1 ha with rfl | ha
    · exact ⟨_, Nat.lt_succ_self _, hnew⟩
    · obtain ⟨i, hi, -, hroot⟩ := hold a ha
      exact ⟨i, Nat.lt_succ_of_lt hi, hroot⟩
  · intro a ha b hb hne
    rcases List.mem_cons.1 ha with rfl | ha <;> rcases List.mem_cons.1 hb with rfl | hb
    · exact absurd rfl hne
    · obtain ⟨i, hi, -, hroot⟩ := hold b hb
      rw [hnew, hroot]
      exact fun heq => Nat.ne_of_gt hi (Option.some.inj heq)
    · obtain ⟨i, hi, -, hroot⟩ := hold a ha
      rw [hnew, hroot]
      exact fun heq => Nat.ne_of_lt hi (Option.some.inj heq)
    · obtain ⟨i, -, hi, hi'⟩ := hold a ha
      obtain ⟨j, -, hj, hj'⟩ := hold b hb
      rw [hi', hj', ← hi, ← hj]
      exact h.apart a ha b hb hne

theorem Settled.eval (h : Settled engines s) {engine : Engine} (hengine : engine ∈ engines)
    (source : String) : Settled engines (engine.evalSource source s).2 := by
  obtain ⟨owner, howner⟩ := h.partitioned
  obtain ⟨r, -, hr⟩ := h.home engine hengine
  obtain ⟨owner', -, hpartitioned, hchanges⟩ := howner.evalSource hr source
  have hgrows := hchanges.grows
  refine ⟨⟨owner', hpartitioned⟩, ?_, ?_⟩
  · intro a ha
    obtain ⟨i, hi, hroot⟩ := h.home a ha
    exact ⟨i, hgrows.runtimeCount ▸ hi, hgrows.runtimeId? hroot⟩
  · intro a ha b hb hne
    obtain ⟨i, -, hi⟩ := h.home a ha
    obtain ⟨j, -, hj⟩ := h.home b hb
    rw [hgrows.runtimeId? hi, hgrows.runtimeId? hj, ← hi, ← hj]
    exact h.apart a ha b hb hne

theorem settled (h : Session engines s) : Settled engines s := by
  induction h with
  | start => exact settled_empty
  | create _ hcreate ih =>
    rw [Engine.create_eq] at hcreate
    cases hcreate
    exact ih.create _ _
  | eval source _ hengine ih => exact ih.eval hengine source

/-- Engines are isolated. In every session, whatever an engine can get at is in its own runtime,
other engines have other runtimes, and a text that one engine evaluates changes no frame and no
vector that another one can get at, nor the depth or the steps of the other one. -/
theorem isolated (h : Session engines s) :
    (∀ a ∈ engines, ∃ i, i < s.runtimes.size ∧ s.runtimeId? a.root = some i ∧
      ∀ f, s.LeadsTo a.root (.frame f) → s.runtimeId? f = some i) ∧
    ∀ a ∈ engines, ∀ b ∈ engines, a ≠ b → s.runtimeId? a.root ≠ s.runtimeId? b.root ∧
      ∀ source,
        (∀ f, s.LeadsTo b.root (.frame f) →
          (a.evalSource source s).2.frames[f]? = s.frames[f]?) ∧
        (∀ i, s.LeadsTo b.root (.vector i) →
          (a.evalSource source s).2.vectors[i]? = s.vectors[i]?) ∧
        (a.evalSource source s).2.runtime? b.root = s.runtime? b.root := by
  have hsettled := h.settled
  obtain ⟨owner, howner⟩ := hsettled.partitioned
  refine ⟨fun a ha => ?_, fun a ha b hb hne => ?_⟩
  · obtain ⟨i, hi, hroot⟩ := hsettled.home a ha
    exact ⟨i, hi, hroot, fun f hf => howner.owns_of_leadsTo hroot hf⟩
  · have hapart := hsettled.apart a ha b hb hne
    obtain ⟨i, -, hi⟩ := hsettled.home a ha
    obtain ⟨j, -, hj⟩ := hsettled.home b hb
    have hij : j ≠ i := fun heq => hapart (by rw [hi, hj, heq])
    refine ⟨hapart, fun source => ?_⟩
    -- What `b` leads to is owned by the runtime of `b`, and only that of `a` changes.
    obtain ⟨owner', hold, -, hchanges⟩ := howner.evalSource hi source
    refine ⟨fun f hf => ?_, fun k hk => ?_, ?_⟩
    · exact hchanges.frames (howner.owns_of_leadsTo hj hf) hij
    · obtain ⟨hlt, hk⟩ := howner.owns_of_leadsTo hj hk
      exact hchanges.vectors hlt (by rw [hold k hlt, hk]; exact hij)
    · simp only [Store.runtime?, hj, hchanges.grows.runtimeId? hj, Option.bind_some]
      exact hchanges.runtimes hij

/-- Two engines define the same name, and the second definition does not reach the first one. -/
theorem isolated_two :
    let both := (Store.empty.withEngine .empty {}).withEngine .standard {}
    let s := (Engine.evalSource ⟨1⟩ "(define f (lambda (x) x))" both).2
    Session [⟨1⟩, ⟨0⟩] s ∧
      (Engine.evalSource ⟨0⟩ "(define f 1)" s).2.frames[1]? = s.frames[1]? := by
  intro both s
  have hsize : (Store.empty.withEngine .empty {}).frames.size = 1 := by decide +kernel
  have hsecond :
      Engine.create .standard {} (Store.empty.withEngine .empty {}) = (.ok ⟨1⟩, both) := by
    rw [Engine.create_eq, hsize]
  have hboth : Session [⟨1⟩, ⟨0⟩] both :=
    .create (.create .start (Engine.create_eq .empty {} .empty)) hsecond
  have hs : Session [⟨1⟩, ⟨0⟩] s := .eval _ hboth (by simp)
  have hother := ((isolated hs).2 ⟨0⟩ (by simp) ⟨1⟩ (by simp) (by simp)).2
  exact ⟨hs, (hother "(define f 1)").1 1 .root⟩

end Session

end ConfinedLisp
