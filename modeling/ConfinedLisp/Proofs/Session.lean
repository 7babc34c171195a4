import ConfinedLisp.Engine
import ConfinedLisp.Proofs.Relimit
import ConfinedLisp.Proofs.Results

/-!
# Engines in a store

What making an engine does to a store: there is one more runtime, which has spent nothing, and one
more frame, the root, which binds what a fresh sandbox binds.
-/

namespace ConfinedLisp

namespace Store

/-- The store after an engine has been made. -/
def withEngine (s : Store) (registry : Registry) (limits : Limits) : Store :=
  ((s.addRuntime registry limits).2.addFrame none s.runtimes.size).2.bindAll s.frames.size
    Engine.seed

theorem runtimes_withEngine (s : Store) (registry : Registry) (limits : Limits) :
    (s.withEngine registry limits).runtimes = s.runtimes.push ⟨registry, limits, 0, 0⟩ :=
  (Unbudgeted.bindAll s.frames.size Engine.seed).runtimes _

/-- The new root is in the new runtime. -/
theorem runtimeId?_withEngine (s : Store) (registry : Registry) (limits : Limits) :
    (s.withEngine registry limits).runtimeId? s.frames.size = some s.runtimes.size := by
  refine (grows_bindAll _ _ _).runtimeId? ?_
  simp [runtimeId?, addFrame, addRuntime]

/-- A frame stays in its runtime when an engine is made. -/
theorem runtimeId?_withEngine_of {s : Store} {f : FrameId} {i : RuntimeId}
    (h : s.runtimeId? f = some i) (registry : Registry) (limits : Limits) :
    (s.withEngine registry limits).runtimeId? f = some i := by
  have hadded : (s.addRuntime registry limits).2.runtimeId? f = some i := h
  exact ((grows_addFrame _ none s.runtimes.size).trans (grows_bindAll _ _ _)).runtimeId? hadded

end Store

/-- The engine that is made first. -/
def Engine.first : Engine := ⟨0⟩

/-- The root of a new engine is the next frame. -/
theorem Engine.create_eq (registry : Registry) (limits : Limits) (s : Store) :
    Engine.create registry limits s = (.ok ⟨s.frames.size⟩, s.withEngine registry limits) :=
  rfl

/-- A fresh sandbox binds primitives and constants only. -/
theorem Engine.all_of_mem_seed {p : Value → Prop} (hp : ∀ v, v.IsPlain → p v)
    {pair : String × Value} (h : pair ∈ Engine.seed) : pair.2.All p := by
  rcases List.mem_append.1 h with h | h
  · obtain ⟨⟨name, primitive⟩, -, rfl⟩ := List.mem_map.1 h
    exact Value.all_of_plain hp trivial trivial
  · simp only [Engine.constants, List.mem_cons, List.not_mem_nil, or_false] at h
    rcases h with rfl | rfl | rfl | rfl <;> exact Value.all_of_plain hp trivial trivial

end ConfinedLisp
