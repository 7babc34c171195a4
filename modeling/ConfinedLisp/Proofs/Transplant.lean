import ConfinedLisp.Proofs.Freshness
import ConfinedLisp.Proofs.SpareDepth

/-!
# Evaluation in a larger store

A form that a host has in hand evaluates in a larger store as it does in the smaller one. The larger
store has further frames, has given away further identities and leaves more room; what the
evaluation makes has other names there, and nothing else is different.

## Main definitions

- `Store.Within`: a store is part of another one that leaves so many more places.
- `Relabelling.into`: the names in the larger store of what is still to be made.

## Main results

- `Reachable.evaluateWithin_into`: evaluation in a larger store.
-/

namespace ConfinedLisp

/-- Induction on values: what holds of a value if it holds of its items, its entries and the forms
of its body holds of every value. -/
theorem Value.dissect {P : Value → Prop}
    (h : ∀ v : Value, (∀ id items, v = .list id items → ∀ x ∈ items, P x) →
      (∀ t, v = .array t → ∀ x ∈ t.values, P x) →
      (∀ id f parameters body, v = .callable (.function id f parameters body) → ∀ x ∈ body, P x) →
      (∀ id f body, v = .callable (.operative id f body) → ∀ x ∈ body, P x) → P v) (v : Value) :
    P v := by
  refine h v (fun id items hv x hx => ?_) (fun t hv x hx => ?_)
    (fun id f parameters body hv x hx => ?_) fun id f body hv x hx => ?_
  · have hlt : sizeOf x < sizeOf v := by
      have := List.sizeOf_lt_of_mem hx
      rw [hv, Value.list.sizeOf_spec]
      omega
    exact Value.dissect h x
  · have hlt : sizeOf x < sizeOf v := hv ▸ Value.sizeOf_lt_of_mem_values hx
    exact Value.dissect h x
  · have hlt : sizeOf x < sizeOf v := by
      have := List.sizeOf_lt_of_mem hx
      rw [hv, Value.callable.sizeOf_spec, Callable.function.sizeOf_spec]
      omega
    exact Value.dissect h x
  · have hlt : sizeOf x < sizeOf v := by
      have := List.sizeOf_lt_of_mem hx
      rw [hv, Value.callable.sizeOf_spec, Callable.operative.sizeOf_spec]
      omega
    exact Value.dissect h x
termination_by sizeOf v

theorem Table.map_congr {α β : Type} {t : Table α} {g g' : α → β}
    (h : ∀ v ∈ t.values, g v = g' v) : t.map g = t.map g' := by
  obtain ⟨slots, positions, next⟩ := t
  have hslots : slots.map (fun slot => (slot.1, g slot.2)) =
      slots.map fun slot => (slot.1, g' slot.2) := by
    refine Array.map_congr_left fun slot hslot => ?_
    exact Prod.ext rfl (h slot.2 (List.mem_map.2 ⟨slot, Array.mem_toList_iff.2 hslot, rfl⟩))
  rw [Table.map, hslots, Table.map]

/-- A store is part of another one, which has no step limits and leaves so many more places. -/
structure Store.Within (spare : Nat) (s u : Store) : Prop where
  frames : ∀ f < s.frames.size, u.frames[f]? = s.frames[f]?
  frameCount : s.frames.size ≤ u.frames.size
  vectors : u.vectors = s.vectors
  identity : s.nextIdentity ≤ u.nextIdentity
  roomier : Runtime.AllRoomier spare s.runtimes u.runtimes

namespace Relabelling

/-- What two relabellings have to agree on to give a value the same names. -/
theorem value_congr {ρ σ : Relabelling} (hidentity : ∀ id, ρ.identity id = σ.identity id)
    {v : Value} (hv : v.All fun part => ∀ f, part.ref? = some (.frame f) → ρ.frame f = σ.frame f) :
    ρ.value v = σ.value v := by
  induction v using Value.dissect with
  | h v hitems hentries hfunction hoperative =>
    cases v with
    | list id items =>
      obtain ⟨-, hparts⟩ := Value.all_list.1 hv
      have hsame := List.map_congr_left fun x hx => hitems id items rfl x hx (hparts x hx)
      rw [value_list, value_list, hidentity, hsame]
    | array t =>
      obtain ⟨-, hparts⟩ := Value.all_array.1 hv
      rw [value_array, value_array, Table.map_congr fun x hx => hentries t rfl x hx (hparts x hx)]
    | scope f => rw [value, value, hv.self f rfl]
    | callable c =>
      cases c with
      | primitive p copy => simp [value, callable, funext hidentity]
      | function id f parameters body =>
        obtain ⟨hself, hparts⟩ := Value.all_function.1 hv
        have hsame := List.map_congr_left fun x hx =>
          hfunction id f parameters body rfl x hx (hparts x hx)
        rw [value, value, callable_function, callable_function, hidentity, hself f rfl, hsame]
      | operative id f body =>
        obtain ⟨hself, hparts⟩ := Value.all_operative.1 hv
        have hsame := List.map_congr_left fun x hx => hoperative id f body rfl x hx (hparts x hx)
        rw [value, value, callable_operative, callable_operative, hidentity, hself f rfl, hsame]
      | foreign id name f => rw [value, value, callable, callable, hidentity]
      | constructor id type => rw [value, value, callable, callable, hidentity]
    | _ => rfl

/-- Names from one on are moved up. -/
def moved (first count : Nat) (n : Nat) : Nat := if n < first then n else n + count

theorem moved_of_lt {first count n : Nat} (h : n < first) : moved first count n = n := if_pos h

theorem moved_add (first count n : Nat) : moved first count (first + n) = first + count + n := by
  unfold moved
  rw [if_neg (by omega)]
  omega

theorem moved_injective {first count n m : Nat} (h : moved first count n = moved first count m) :
    n = m := by
  unfold moved at h
  grind

theorem le_moved (first count n : Nat) : n ≤ moved first count n := by
  unfold moved
  split <;> omega

/-- The names in a larger store of what is still to be made in a smaller one. -/
def into (s u : Store) : Relabelling where
  frame := moved s.frames.size (u.frames.size - s.frames.size)
  identity := moved s.nextIdentity (u.nextIdentity - s.nextIdentity)
  frame_injective := moved_injective
  identity_injective := moved_injective
  le_frame := le_moved _ _

/-- The same names of identities, where frames keep theirs. -/
def framesKept (ρ : Relabelling) : Relabelling where
  frame f := f
  identity := ρ.identity
  frame_injective h := h
  identity_injective := ρ.identity_injective
  le_frame := Nat.le_refl

theorem fixes_framesKept (s u : Store) : (into s u).framesKept.Fixes s.nextIdentity where
  frame _ := rfl
  identity _ := moved_of_lt

/-- What is recorded has no names of frames that are still to be made. -/
theorem value_into_eq (s u : Store) {contents : Identity → Option (List Value)} {v : Value}
    (hv : v.All (Value.Recorded contents s.frames.size)) :
    (into s u).value v = (into s u).framesKept.value v := by
  refine value_congr (ρ := into s u) (σ := (into s u).framesKept) (fun _ => rfl)
    (hv.mono fun _ hpart f hf => ?_)
  exact moved_of_lt (hpart.2 f hf)

/-- A frame that was made before the smaller store ends. -/
theorem frameOf_into_eq (s u : Store) {contents : Identity → Option (List Value)} {frame : Frame}
    (hbindings : ∀ b ∈ frame.bindings, b.2.All (Value.Recorded contents s.frames.size))
    (hparent : ∀ p, frame.parent = some p → p < s.frames.size) :
    (into s u).frameOf frame = (into s u).framesKept.frameOf frame := by
  have hvalues := List.map_congr_left fun b hb =>
    congrArg (Prod.mk b.1) (value_into_eq s u (hbindings b hb))
  have hframe : frame.parent.map (into s u).frame = frame.parent.map id := by
    cases hp : frame.parent with
    | none => rfl
    | some p => exact congrArg some (moved_of_lt (hparent p hp))
  rw [frameOf, hvalues, hframe]
  rfl

section

variable {s u : Store} {spare : Nat} (hu : s.Within spare u)

/-- As many identities as one likes are still to be given. -/
def supplyInto (length : Nat) : (into s u).Supply where
  source := s.nextIdentity
  target := u.nextIdentity
  length := length
  identity_eq k _ := by
    refine (moved_add s.nextIdentity _ k).trans ?_
    rw [Nat.add_sub_cancel' hu.identity]

theorem Leaves.mirrors_into {given : List Value} (h : (into s u).Leaves s given) (length : Nat) :
    (supplyInto hu length).Mirrors (s.rebudget u.runtimes) u where
  frames f := by
    rcases Nat.lt_or_ge f s.frames.size with hf | hf
    · have hframe : (into s u).frame f = f := moved_of_lt hf
      rw [hframe, hu.frames f hf]
      exact h.frames f
    · obtain ⟨n, rfl⟩ := Nat.exists_eq_add_of_le hf
      have hframe : (into s u).frame (s.frames.size + n) =
          s.frames.size + (u.frames.size - s.frames.size) + n :=
        moved_add _ _ n
      have hcount := hu.frameCount
      rw [hframe, Array.getElem?_eq_none (by omega), Store.frames_rebudget,
        Array.getElem?_eq_none hf]
      rfl
  newFrames n := by
    refine (moved_add s.frames.size _ n).trans ?_
    rw [Nat.add_sub_cancel' hu.frameCount]
  vectors := hu.vectors.trans h.vectors
  runtimes := rfl
  identity := ⟨0, rfl, rfl⟩

end

end Relabelling

namespace Reachable

open Relabelling

variable {s t u : Store} {given : List Value}

/-- A store that a host can come to, and what it can have in hand, have the same names in a larger
store. -/
theorem leaves_into (h : Reachable s given) (u : Store) : (into s u).Leaves s given := by
  have hleaves := h.leaves (fixes_framesKept s u)
  obtain ⟨w, rfl, hgiven⟩ := h.isRecorded
  refine ⟨fun f => ?_, ?_, fun v hv => ?_⟩
  · cases hframe : w.store.frames[f]? with
    | none => rfl
    | some frame =>
      have hsame := hleaves.frames f
      rw [hframe] at hsame
      have hbindings : ∀ b ∈ frame.bindings, b.2.All w.part := by
        refine fun b hb => w.holds b.2 (Or.inl ⟨f, b.1, ?_⟩)
        rwa [Store.bindings, hframe]
      have hparent : ∀ p, frame.parent = some p → p < w.store.frames.size := by
        intro p hp
        have hlt : p < f := w.rooted f p (by rw [Store.parent?, hframe]; exact hp)
        exact Nat.lt_trans hlt (Array.getElem?_eq_some_iff.1 hframe).1
      rw [Option.map_some, frameOf_into_eq w.store u hbindings hparent]
      exact hsame
  · refine hleaves.vectors.trans (Array.ext_getElem? fun i => ?_)
    rw [Array.getElem?_map, Array.getElem?_map]
    cases hitems : w.store.vectors[i]? with
    | none => rfl
    | some items =>
      refine congrArg some (Array.map_congr_left fun v hv => ?_)
      refine (value_into_eq w.store u (w.holds v (Or.inr ⟨i, ?_⟩))).symm
      rw [Store.vector, hitems]
      exact Array.mem_toList_iff.2 hv
  · rw [value_into_eq w.store u (hgiven v hv), hleaves.given v hv]

/-- Evaluation in a larger store. -/
theorem evaluateWithin_into (h : Reachable s given) {form : Value} {scope : FrameId}
    {result : Except Halt Value} (hform : form ∈ given) (hscope : .scope scope ∈ given)
    (hrun : evaluate form scope s = (result, t))
    (hplaces : ∀ limit, result ≠ .error (.error (.recursionLimit limit))) (hu : s.Within 0 u)
    {fuel : Nat} (hfuel : s.headroom < fuel) :
    ∃ u', evaluateWithin fuel form scope u = (result.map (into s u).value, u') ∧
      (∀ f, u'.frames[(into s u).frame f]? = t.frames[f]?.map (into s u).frameOf) ∧
      u'.vectors = t.vectors.map fun items => items.map (into s u).value := by
  have hleaves := h.leaves_into u
  obtain ⟨rs, hroom, -⟩ := Store.evaluateWithin_of_room hrun hplaces hu.roomier hfuel
  have hlater := h.evaluated hform hscope
  have hgrows := (Relabelling.commutes_evaluate (into s u) form scope).grows s
  rw [hrun] at hlater hgrows
  have hcovers : (supplyInto hu (t.nextIdentity - s.nextIdentity)).Covers (t.rebudget rs) :=
    ⟨Nat.le_of_eq (Nat.add_sub_cancel' hgrows.identity).symm, hlater.rooted.congr fun _ => rfl⟩
  have hcommutes := ((into s u).commutes_evaluateWithin fuel form scope).mirrors
    (hleaves.mirrors_into hu _) (by rwa [hroom])
  have hframe : (into s u).frame scope = scope := Value.scope.inj (hleaves.given _ hscope)
  rw [hleaves.given form hform, hframe, hroom] at hcommutes
  obtain ⟨hresult, hmirrors⟩ := hcommutes
  exact ⟨_, Prod.ext hresult rfl, hmirrors.frames, hmirrors.vectors⟩

end Reachable

end ConfinedLisp
