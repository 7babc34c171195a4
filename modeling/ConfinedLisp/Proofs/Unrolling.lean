import Mathlib

/-!
# Recursion over finitely many nodes

A recursion that has no measure is run for a bounded number of rounds. Each round makes its answers
from those of the round before, and where the rounds are used up there is no answer. If there are
finitely many nodes, one round more than nodes is enough: what has no answer then never has one, and
it has none because it comes back to where it was.

## Main definitions

- `Asking`: a computation that asks for answers one after the other, and has no answer exactly if it
  comes to a question that has none.
- `Unrolling`: a recursion whose rounds are such computations.

## Main results

- `Unrolling.step_limit`: the last round satisfies the equation of the recursion.
- `Unrolling.limit_eq_bottom_iff`: a node has no answer exactly if it leads to a node that leads back
  to itself.
-/

namespace ConfinedLisp

/-- A computation asks for answers. Which ones may depend on those it got before; it has no answer
exactly if one that it asks for is missing, and other answers do not matter. -/
structure Asking {α γ δ : Type} (bottom : γ) (bottom' : δ) (f : (α → γ) → δ)
    (asks : (α → γ) → α → Prop) : Prop where
  bottom_iff : ∀ g, f g = bottom' ↔ ∃ a, asks g a ∧ g a = bottom
  agree : ∀ {g h}, (∀ a, asks g a → h a = g a) → f h = f g ∧ ∀ a, asks h a → asks g a

namespace Asking

variable {α γ δ : Type} {bottom : γ} {bottom' : δ} {f : (α → γ) → δ} {asks : (α → γ) → α → Prop}
  {g h : α → γ}

/-- A computation that has an answer finds the same questions and the same answer where more answers
are given. -/
theorem of_more (hf : Asking bottom bottom' f asks) (hgh : ∀ a, g a ≠ bottom → h a = g a)
    (hanswer : f g ≠ bottom') : f h = f g ∧ ∀ a, asks h a → asks g a ∧ g a ≠ bottom := by
  have hasked : ∀ a, asks g a → g a ≠ bottom := fun a ha hbottom =>
    hanswer ((hf.bottom_iff g).2 ⟨a, ha, hbottom⟩)
  obtain ⟨hsame, hasks⟩ := hf.agree fun a ha => hgh a (hasked a ha)
  exact ⟨hsame, fun a ha => ⟨hasks a ha, hasked a (hasks a ha)⟩⟩

/-- A computation that asks for nothing. -/
theorem of_const {c : δ} (hf : ∀ g, f g = c) (hc : c ≠ bottom') (hasks : ∀ g a, ¬ asks g a) :
    Asking bottom bottom' f asks where
  bottom_iff g := ⟨fun h => absurd ((hf g).symm.trans h) hc, fun ⟨a, h, _⟩ => absurd h (hasks g a)⟩
  agree {g h} _ := ⟨(hf h).trans (hf g).symm, fun a ha => absurd ha (hasks h a)⟩

/-- A computation that asks for one answer and gives it. -/
theorem ask (a : α) : Asking bottom bottom (fun g : α → γ => g a) fun _ b => b = a where
  bottom_iff _ := ⟨fun h => ⟨a, rfl, h⟩, fun ⟨_, hb, h⟩ => hb ▸ h⟩
  agree h := ⟨h a rfl, fun _ hb => hb⟩

/-- One computation after the other, which is left out unless the first one passes. -/
theorem andThen {δ₁ δ₂ : Type} {bottom₁ : δ₁} {bottom₂ : δ₂} {f₁ : (α → γ) → δ₁}
    {f₂ : (α → γ) → δ₂} {asks₁ asks₂ : (α → γ) → α → Prop} (h₁ : Asking bottom bottom₁ f₁ asks₁)
    (h₂ : Asking bottom bottom₂ f₂ asks₂) (passes : δ₁ → Prop) (join : δ₁ → δ₂ → δ)
    (hstop : ¬ passes bottom₁) (hjoin : ∀ x y, passes x → (join x y = bottom' ↔ y = bottom₂))
    (hskip : ∀ x y y', ¬ passes x → join x y = join x y' ∧ (join x y = bottom' ↔ x = bottom₁)) :
    Asking bottom bottom' (fun g => join (f₁ g) (f₂ g))
      fun g a => asks₁ g a ∨ passes (f₁ g) ∧ asks₂ g a where
  bottom_iff g := by
    by_cases hpass : passes (f₁ g)
    · have hfirst : ∀ a, asks₁ g a → g a ≠ bottom := fun a ha hbottom =>
        hstop ((h₁.bottom_iff g).2 ⟨a, ha, hbottom⟩ ▸ hpass)
      rw [hjoin _ _ hpass, h₂.bottom_iff g]
      refine exists_congr fun a => ⟨fun h => ⟨Or.inr ⟨hpass, h.1⟩, h.2⟩, ?_⟩
      rintro ⟨ha | ha, hbottom⟩
      · exact absurd hbottom (hfirst a ha)
      · exact ⟨ha.2, hbottom⟩
    · rw [(hskip _ _ (f₂ g) hpass).2, h₁.bottom_iff g]
      exact exists_congr fun a => by simp [hpass]
  agree := by
    intro g h hgh
    obtain ⟨hsame₁, hasks₁⟩ := h₁.agree fun a ha => hgh a (Or.inl ha)
    by_cases hpass : passes (f₁ g)
    · obtain ⟨hsame₂, hasks₂⟩ := h₂.agree fun a ha => hgh a (Or.inr ⟨hpass, ha⟩)
      simp only [hsame₁, hsame₂]
      exact ⟨trivial, fun a ha => ha.imp (hasks₁ a) fun ha => ⟨ha.1, hasks₂ a ha.2⟩⟩
    · simp only [hsame₁]
      exact ⟨(hskip _ _ _ hpass).1, fun a ha => ha.imp (hasks₁ a) fun ha => absurd ha.1 hpass⟩

end Asking

/-- A recursion over nodes, of which all but finitely many have an answer of their own. -/
structure Unrolling (α γ : Type) where
  bottom : γ
  step : (α → γ) → α → γ
  asks : (α → γ) → α → α → Prop
  asking : ∀ a, Asking bottom bottom (fun g => step g a) fun g => asks g a
  nodes : Finset α
  outside : ∀ a, a ∉ nodes → step (fun _ => bottom) a ≠ bottom

namespace Unrolling

variable {α γ : Type}

/-- The answers after some rounds. -/
def rounds (U : Unrolling α γ) : Nat → α → γ
  | 0 => fun _ => U.bottom
  | n + 1 => U.step (rounds U n)

/-- The answers after one round more than there are nodes. -/
def limit (U : Unrolling α γ) : α → γ := U.rounds (U.nodes.card + 1)

variable {U : Unrolling α γ} {a b : α} {n m : Nat}

/-- An answer stays as it is in the next round. -/
theorem rounds_succ (h : U.rounds n a ≠ U.bottom) : U.rounds (n + 1) a = U.rounds n a := by
  induction n generalizing a with
  | zero => exact absurd rfl h
  | succ n ih => exact ((U.asking a).of_more (fun _ hc => ih hc) h).1

theorem rounds_of_le (hmn : n ≤ m) (h : U.rounds n a ≠ U.bottom) :
    U.rounds m a = U.rounds n a := by
  induction hmn with
  | refl => rfl
  | step _ ih => rw [rounds_succ (ih ▸ h), ih]

/-- One round changes nothing, or a node gets its answer. -/
theorem rounds_eq_or (U : Unrolling α γ) (n : Nat) : U.rounds (n + 1) = U.rounds n ∨
    ∃ a, U.rounds n a = U.bottom ∧ U.rounds (n + 1) a ≠ U.bottom := by
  by_contra hnot
  push Not at hnot
  obtain ⟨hne, hstill⟩ := hnot
  refine hne (funext fun a => ?_)
  by_cases h : U.rounds n a = U.bottom
  · rw [h, hstill a h]
  · exact rounds_succ h

open Classical in
/-- The nodes without answer after some rounds. -/
noncomputable def missing (U : Unrolling α γ) (n : Nat) : Finset α :=
  U.nodes.filter fun a => U.rounds n a = U.bottom

theorem mem_missing : a ∈ U.missing n ↔ a ∈ U.nodes ∧ U.rounds n a = U.bottom := by
  simp [missing]

/-- Where a round changes something, there are fewer nodes without answer after it. -/
theorem card_missing_lt (hbottom : U.rounds (n + 1) a = U.bottom)
    (hanswer : U.rounds (n + 1 + 1) a ≠ U.bottom) :
    (U.missing (n + 1 + 1)).card < (U.missing (n + 1)).card := by
  have hnode : a ∈ U.nodes := by
    by_contra hoff
    have hfirst : U.rounds 1 a ≠ U.bottom := U.outside a hoff
    exact hfirst ((rounds_of_le (by omega) hfirst).symm.trans hbottom)
  refine Finset.card_lt_card ((Finset.ssubset_iff_of_subset fun b hb => ?_).2 ⟨a, ?_, ?_⟩)
  · rw [mem_missing] at hb ⊢
    refine ⟨hb.1, ?_⟩
    by_contra hold
    exact hold ((rounds_succ hold).symm.trans hb.2)
  · exact mem_missing.2 ⟨hnode, hbottom⟩
  · exact fun h => hanswer (mem_missing.1 h).2

/-- After one round more than there are nodes, rounds change nothing. -/
theorem step_limit (U : Unrolling α γ) : U.step U.limit = U.limit := by
  -- As long as rounds change something, each of them leaves fewer nodes without answer.
  have hcount : ∀ n, U.rounds (n + 1 + 1) = U.rounds (n + 1) ∨
      (U.missing (n + 1)).card + n ≤ U.nodes.card := by
    intro n
    induction n with
    | zero => exact Or.inr (Finset.card_le_card fun a ha => (mem_missing.1 ha).1)
    | succ n ih =>
      rcases ih with hfixed | hle
      · exact Or.inl (congrArg U.step hfixed)
      · rcases U.rounds_eq_or (n + 1) with hfixed | ⟨a, hbottom, hanswer⟩
        · exact Or.inl (congrArg U.step hfixed)
        · have := card_missing_lt hbottom hanswer
          exact Or.inr (by omega)
  rcases hcount U.nodes.card with hfixed | hle
  · exact hfixed
  · rcases U.rounds_eq_or (U.nodes.card + 1) with hfixed | ⟨a, hbottom, hanswer⟩
    · exact hfixed
    · have := card_missing_lt hbottom hanswer
      omega

/-- An answer that a node has in any round is its answer in the end. -/
theorem limit_of_rounds (h : U.rounds n a ≠ U.bottom) : U.limit a = U.rounds n a := by
  have hlater : ∀ k, U.rounds (U.nodes.card + 1 + k) = U.limit := by
    intro k
    induction k with
    | zero => rfl
    | succ k ih => exact (congrArg U.step ih).trans U.step_limit
  rcases Nat.le_total n (U.nodes.card + 1) with hle | hge
  · exact rounds_of_le hle h
  · obtain ⟨k, rfl⟩ := Nat.exists_eq_add_of_le hge
    rw [hlater k]

/-- Whatever a node with an answer asks for had its answer a round earlier. -/
theorem rounds_of_asks (hasks : U.asks U.limit a b) (h : U.rounds (n + 1) a ≠ U.bottom) :
    U.rounds n b ≠ U.bottom :=
  (((U.asking a).of_more (fun _ => limit_of_rounds) h).2 b hasks).2

/-- A node with an answer leads only to nodes that had theirs earlier. -/
theorem rounds_of_transGen (hleads : Relation.TransGen (U.asks U.limit) a b)
    (h : U.rounds n a ≠ U.bottom) : ∃ m < n, U.rounds m b ≠ U.bottom := by
  have hasks : ∀ {c d n}, U.asks U.limit c d → U.rounds n c ≠ U.bottom →
      ∃ m < n, U.rounds m d ≠ U.bottom := by
    intro c d n hcd hc
    cases n with
    | zero => exact absurd rfl hc
    | succ n => exact ⟨n, Nat.lt_succ_self n, rounds_of_asks hcd hc⟩
  induction hleads with
  | single hab => exact hasks hab h
  | tail _ hbc ih =>
    obtain ⟨m, hm, hb⟩ := ih
    obtain ⟨k, hk, hc⟩ := hasks hbc hb
    exact ⟨k, hk.trans hm, hc⟩

/-- A node that leads back to itself has no answer in any round. -/
theorem rounds_of_loop (hloop : Relation.TransGen (U.asks U.limit) a a) (n : Nat) :
    U.rounds n a = U.bottom := by
  induction n using Nat.strongRecOn with
  | _ n ih =>
    by_contra h
    obtain ⟨m, hm, hearlier⟩ := rounds_of_transGen hloop h
    exact hearlier (ih m hm)

/-- A node has no answer exactly if it leads to one that leads back to itself. -/
theorem limit_eq_bottom_iff : U.limit a = U.bottom ↔
    ∃ b, Relation.ReflTransGen (U.asks U.limit) a b ∧ Relation.TransGen (U.asks U.limit) b b := by
  constructor
  · intro ha
    by_contra hnot
    push Not at hnot
    -- If it led to no such node, leading on would be well-founded on the nodes that it leads to.
    let Ahead := { b : α // b ∈ U.nodes ∧ Relation.ReflTransGen (U.asks U.limit) a b }
    have hfinite : Finite Ahead :=
      (U.nodes.finite_toSet.subset fun _ hb => hb.1).to_subtype
    let back : Ahead → Ahead → Prop := fun b c => Relation.TransGen (U.asks U.limit) c.1 b.1
    have htrans : IsTrans Ahead back := ⟨fun _ _ _ hbc hcd => hcd.trans hbc⟩
    have hirrefl : Std.Irrefl back := ⟨fun b hb => hnot b.1 b.2.2 hb⟩
    have hnode : ∀ b, U.limit b = U.bottom → b ∈ U.nodes := by
      intro b hb
      by_contra hoff
      have hfirst : U.rounds 1 b ≠ U.bottom := U.outside b hoff
      exact hfirst ((limit_of_rounds hfirst).symm.trans hb)
    have hanswer : ∀ b : Ahead, U.limit b.1 ≠ U.bottom := by
      intro b
      induction b using (Finite.wellFounded_of_trans_of_irrefl back).induction with
      | _ b ih =>
        intro hb
        have hstep : U.step U.limit b.1 = U.bottom := (congrFun U.step_limit b.1).trans hb
        obtain ⟨c, hbc, hc⟩ := ((U.asking b.1).bottom_iff U.limit).1 hstep
        exact ih ⟨c, hnode c hc, b.2.2.tail hbc⟩ (.single hbc) hc
    exact hanswer ⟨a, hnode a ha, .refl⟩ ha
  · rintro ⟨b, hab, hloop⟩
    by_contra ha
    rcases Relation.reflTransGen_iff_eq_or_transGen.1 hab with rfl | hab
    · exact ha (rounds_of_loop hloop _)
    · obtain ⟨m, -, hb⟩ := rounds_of_transGen hab ha
      exact hb (rounds_of_loop hloop m)

end Unrolling

end ConfinedLisp
