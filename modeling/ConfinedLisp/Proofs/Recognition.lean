import ConfinedLisp.Form.Peg
import ConfinedLisp.Proofs.GrammarExactness

/-!
# What parsing expressions recognise

Inside a token nothing is skipped, no pairs are left and no attempts are noted. So all that an
expression does there is to take some characters off the front of the text, or to fail. Which
characters these are depends on those that follow, since repetitions are greedy and choices are
ordered. The two together are a relation that is put together like the expression, and the tokens of
the grammar are found to be the numerals, symbols and strings.

## Main definitions

- `Peg.Runs`: an expression has an outcome, from some fuel on.
- `Peg.Recognises`: an expression takes characters off a text exactly if they are related to the
  characters that follow.
- `Peg.Repeated`: repetitions.

## Main results

- `Peg.Recognises.chain`, `Peg.Recognises.choice`, `Peg.Recognises.many`: the relations of compound
  expressions.
- `Peg.recognises_float`, `Peg.recognises_integer`, `Peg.recognises_symbol`,
  `Peg.recognises_stringBody`: the tokens.
-/

namespace ConfinedLisp

namespace Peg

/-! ### One step of matching -/

/-- An expression has an outcome, from some fuel on. -/
def Runs (e : Expr) (ctx : Context) (s : State) (o : Outcome) : Prop :=
  ∃ bound, ∀ fuel ≥ bound, run fuel e ctx s = some o

section Steps

variable {a b e : Expr} {ctx : Context} {s u v : State} {pairs pairs' : List Pair} {t : Attempts}
  {o o' : Outcome}

/-- There is one outcome at most. -/
theorem Runs.unique (h : Runs e ctx s o) (h' : Runs e ctx s o') : o = o' := by
  obtain ⟨n, hn⟩ := h
  obtain ⟨m, hm⟩ := h'
  have hfirst := hn (max n m) (Nat.le_max_left n m)
  rw [hm (max n m) (Nat.le_max_right n m)] at hfirst
  exact (Option.some.inj hfirst).symm

/-- The last step of matching takes one unit of fuel. -/
theorem Runs.of_step (bound : Nat) (h : ∀ fuel ≥ bound, run (fuel + 1) e ctx s = some o) :
    Runs e ctx s o := by
  refine ⟨bound + 1, fun fuel hfuel => ?_⟩
  cases fuel with
  | zero => omega
  | succ fuel => exact h fuel (Nat.le_of_succ_le_succ hfuel)

/-- A step that rests on one outcome. -/
theorem Runs.step {e' : Expr} {ctx' : Context} {s' : State} (h : Runs e' ctx' s' o')
    (hstep : ∀ fuel, run fuel e' ctx' s' = some o' → run (fuel + 1) e ctx s = some o) :
    Runs e ctx s o := by
  obtain ⟨n, hn⟩ := h
  exact .of_step n fun fuel hfuel => hstep fuel (hn fuel hfuel)

/-- A step that rests on two outcomes. -/
theorem Runs.step₂ {ctx' : Context} {s' : State} (ha : Runs a ctx' s' o') {o'' : Outcome}
    (hb : Runs b ctx u o'')
    (hstep : ∀ fuel, run fuel a ctx' s' = some o' → run fuel b ctx u = some o'' →
      run (fuel + 1) e ctx s = some o) : Runs e ctx s o := by
  obtain ⟨n, hn⟩ := ha
  obtain ⟨m, hm⟩ := hb
  exact .of_step (max n m) fun fuel hfuel => hstep fuel (hn fuel (by omega)) (hm fuel (by omega))

theorem runs_start (h : s.position = 0) : Runs .start ctx s (.matched [] s) :=
  .of_step 0 fun _ _ => by rw [run, if_pos h]

theorem runs_finish :
    Runs .finish ctx s (if s.rest.isEmpty then .matched [] s else .failed s.attempts) :=
  .of_step 0 fun _ _ => by rw [run]

theorem runs_text (cs : List Char) : Runs (.text cs) ctx s (s.expect cs) :=
  .of_step 0 fun _ _ => by rw [run]

theorem runs_char (test : Char → Bool) : Runs (.char test) ctx s (s.expectChar test) :=
  .of_step 0 fun _ _ => by rw [run]

theorem Runs.rule {rule : Rule} (h : Runs rule.body (ctx.inside rule) s o) :
    Runs (.rule rule) ctx s (o.ofRule rule ctx s) := by
  refine h.step fun fuel hbody => ?_
  rw [run, hbody]
  rfl

theorem Runs.chain (ha : Runs a ctx s (.matched pairs u)) (hb : Runs b ctx u (.matched pairs' v)) :
    Runs (.chain a b) ctx s (.matched (pairs ++ pairs') v) := by
  refine ha.step₂ hb fun fuel hfirst hsecond => ?_
  rw [run, hfirst]
  simp [hsecond]

theorem Runs.chain_failed (ha : Runs a ctx s (.failed t)) : Runs (.chain a b) ctx s (.failed t) := by
  refine ha.step fun fuel hfirst => ?_
  rw [run, hfirst]
  rfl

theorem Runs.chain_failed_right (ha : Runs a ctx s (.matched pairs u))
    (hb : Runs b ctx u (.failed t)) : Runs (.chain a b) ctx s (.failed t) := by
  refine ha.step₂ hb fun fuel hfirst hsecond => ?_
  rw [run, hfirst]
  simp [hsecond]

theorem Runs.skipping (hctx : ctx.atomicity = .skipping)
    (hskip : Runs skipped ctx s (.matched pairs u)) (h : Runs e ctx u o) :
    Runs (.skipping e) ctx s o := by
  refine hskip.step₂ h fun fuel hskipped hbody => ?_
  rw [run, if_pos hctx, hskipped]
  simp [hbody]

theorem Runs.skipping_of_ne (hctx : ctx.atomicity ≠ .skipping) (h : Runs e ctx s o) :
    Runs (.skipping e) ctx s o := by
  refine h.step fun fuel hbody => ?_
  rw [run, if_neg hctx, hbody]

theorem Runs.choice (ha : Runs a ctx s (.matched pairs u)) :
    Runs (.choice a b) ctx s (.matched pairs u) := by
  refine ha.step fun fuel hfirst => ?_
  rw [run, hfirst]
  rfl

theorem Runs.choice_right (ha : Runs a ctx s (.failed t))
    (hb : Runs b ctx { s with attempts := t } o) : Runs (.choice a b) ctx s o := by
  refine ha.step₂ hb fun fuel hfirst hsecond => ?_
  rw [run, hfirst]
  simp [hsecond]

theorem Runs.optional (h : Runs e ctx s (.matched pairs u)) :
    Runs (.optional e) ctx s (.matched pairs u) := by
  refine h.step fun fuel hbody => ?_
  rw [run, hbody]
  rfl

theorem Runs.optional_failed (h : Runs e ctx s (.failed t)) :
    Runs (.optional e) ctx s (.matched [] { s with attempts := t }) := by
  refine h.step fun fuel hbody => ?_
  rw [run, hbody]
  rfl

theorem Runs.many (h : Runs e ctx s (.matched pairs u))
    (hmany : Runs (.many e) ctx u (.matched pairs' v)) :
    Runs (.many e) ctx s (.matched (pairs ++ pairs') v) := by
  refine h.step₂ hmany fun fuel hfirst hmore => ?_
  rw [run, hfirst]
  simp [hmore]

theorem Runs.many_failed (h : Runs e ctx s (.failed t)) :
    Runs (.many e) ctx s (.matched [] { s with attempts := t }) := by
  refine h.step fun fuel hbody => ?_
  rw [run, hbody]
  rfl

theorem Runs.ahead (h : Runs e ctx.looking s (.matched pairs u)) :
    Runs (.ahead e) ctx s (.matched [] { s with attempts := u.attempts }) := by
  refine h.step fun fuel hbody => ?_
  rw [run, hbody]
  rfl

theorem Runs.ahead_failed (h : Runs e ctx.looking s (.failed t)) :
    Runs (.ahead e) ctx s (.failed t) := by
  refine h.step fun fuel hbody => ?_
  rw [run, hbody]
  rfl

theorem Runs.notAhead (h : Runs e ctx.notLooking s (.matched pairs u)) :
    Runs (.notAhead e) ctx s (.failed u.attempts) := by
  refine h.step fun fuel hbody => ?_
  rw [run, hbody]
  rfl

theorem Runs.notAhead_failed (h : Runs e ctx.notLooking s (.failed t)) :
    Runs (.notAhead e) ctx s (.matched [] { s with attempts := t }) := by
  refine h.step fun fuel hbody => ?_
  rw [run, hbody]
  rfl

end Steps

/-! ### Sizes -/

@[simp] theorem size_nil : size [] = 0 := rfl

theorem size_append (cs ds : List Char) : size (cs ++ ds) = size cs + size ds := by
  rw [size, String.ofList_append, String.utf8ByteSize_append]
  rfl

theorem size_cons (c : Char) (cs : List Char) : size (c :: cs) = c.utf8Size + size cs := by
  rw [size, String.ofList_cons, String.utf8ByteSize_append, String.utf8ByteSize_singleton]
  rfl

theorem expect_append (cs rest : List Char) (p : Nat) (t : Attempts) :
    State.expect ⟨cs ++ rest, p, t⟩ cs = .matched [] ⟨rest, p + size cs, t⟩ := by
  simp [State.expect]

theorem expect_of_ne {cs text : List Char} (h : ∀ rest, text ≠ cs ++ rest) (p : Nat) (t : Attempts) :
    State.expect ⟨text, p, t⟩ cs = .failed t := by
  have hprefix : cs.isPrefixOf text = false := by
    rw [Bool.eq_false_iff, Ne, List.isPrefixOf_iff_prefix]
    rintro ⟨rest, rfl⟩
    exact h rest rfl
  simp [State.expect, hprefix]

section

variable {rule : Rule} {ctx : Context}
  (h : rule.kind = .silent ∨ rule.kind = .hidden ∨ ctx.atomicity = .atomic)

include h

theorem ofRule_matched (s u : State) : Outcome.ofRule rule ctx s (.matched [] u) = .matched [] u := by
  rcases h with h | h | h <;> simp [Outcome.ofRule, h]

theorem ofRule_failed (s : State) (t : Attempts) :
    Outcome.ofRule rule ctx s (.failed t) = .failed t := by
  rcases h with h | h | h <;> simp [Outcome.ofRule, h]

end

/-! ### Recognising -/

/-- An expression takes characters off a text if they are related to the characters that follow, and
fails if no characters at the front of the text are. -/
structure Recognises (ctx : Context) (e : Expr) (L : List Char → List Char → Prop) : Prop where
  matched : ∀ {ds rest : List Char}, L ds rest → ∀ (p : Nat) (t : Attempts),
    Runs e ctx ⟨ds ++ rest, p, t⟩ (.matched [] ⟨rest, p + size ds, t⟩)
  failed : ∀ {cs : List Char}, (∀ ds rest, cs = ds ++ rest → ¬ L ds rest) →
    ∀ (p : Nat) (t : Attempts), Runs e ctx ⟨cs, p, t⟩ (.failed t)

/-- Characters at the front of a text that are related to those that follow. -/
def Starts (L : List Char → List Char → Prop) (cs : List Char) : Prop :=
  ∃ ds rest, cs = ds ++ rest ∧ L ds rest

/-- Repetitions: one match after the other, until there is no further one. -/
inductive Repeated (L : List Char → List Char → Prop) : List Char → List Char → Prop where
  | nil {rest : List Char} : ¬ Starts L rest → Repeated L [] rest
  | cons {d ds rest : List Char} : L d (ds ++ rest) → Repeated L ds rest → Repeated L (d ++ ds) rest

theorem Repeated.not_starts {L : List Char → List Char → Prop} {ds rest : List Char}
    (h : Repeated L ds rest) : ¬ Starts L rest := by
  induction h with
  | nil hstarts => exact hstarts
  | cons _ _ ih => exact ih

/-- Every text starts with repetitions of something that takes characters off it. -/
theorem exists_repeated {L : List Char → List Char → Prop} (hL : ∀ {d r}, L d r → d ≠ [])
    (cs : List Char) : Starts (Repeated L) cs := by
  induction hn : cs.length using Nat.strongRecOn generalizing cs with
  | _ n ih =>
    by_cases h : Starts L cs
    · obtain ⟨d, r, rfl, hd⟩ := h
      have hlength := List.length_pos_iff.2 (hL hd)
      rw [List.length_append] at hn
      obtain ⟨ds, rest, rfl, hds⟩ := ih r.length (by omega) r rfl
      exact ⟨d ++ ds, rest, (List.append_assoc ..).symm, .cons hd hds⟩
    · exact ⟨[], cs, rfl, .nil h⟩

/-- One character that passes a test. -/
def Single (test : Char → Bool) (ds _rest : List Char) : Prop := ∃ c, test c = true ∧ ds = [c]

theorem starts_single {test : Char → Bool} {c : Char} {cs : List Char} :
    Starts (Single test) (c :: cs) ↔ test c = true := by
  constructor
  · rintro ⟨_, rest, heq, d, hd, rfl⟩
    cases heq
    exact hd
  · exact fun hc => ⟨[c], cs, rfl, c, hc, rfl⟩

theorem not_starts_single {test : Char → Bool} {cs : List Char} :
    ¬ Starts (Single test) cs ↔ ∀ c ∈ cs.head?, test c = false := by
  cases cs with
  | nil => simp [Starts, Single]
  | cons c cs => simp [starts_single]

theorem repeated_single {test : Char → Bool} {ds rest : List Char} :
    Repeated (Single test) ds rest ↔
      (∀ d ∈ ds, test d = true) ∧ ∀ c ∈ rest.head?, test c = false := by
  constructor
  · intro h
    induction h with
    | nil hstarts => exact ⟨nofun, not_starts_single.1 hstarts⟩
    | cons hd _ ih =>
      obtain ⟨c, hc, rfl⟩ := hd
      exact ⟨List.forall_mem_cons.2 ⟨hc, ih.1⟩, ih.2⟩
  · rintro ⟨hds, hrest⟩
    induction ds with
    | nil => exact .nil (not_starts_single.2 hrest)
    | cons d ds ih =>
      obtain ⟨hd, hds⟩ := List.forall_mem_cons.1 hds
      exact .cons (d := [d]) ⟨d, hd, rfl⟩ (ih hds)

namespace Recognises

variable {ctx : Context} {a b e : Expr} {K L M : List Char → List Char → Prop}

theorem failed_of_not_starts (h : Recognises ctx e L) {cs : List Char} (hcs : ¬ Starts L cs) (p : Nat)
    (t : Attempts) : Runs e ctx ⟨cs, p, t⟩ (.failed t) :=
  h.failed (fun ds rest heq hL => hcs ⟨ds, rest, heq, hL⟩) p t

/-- There is one way at most to take characters off a text. -/
theorem unique (h : Recognises ctx e L) {ds rest ds' rest' : List Char} (hL : L ds rest)
    (hL' : L ds' rest') (heq : ds ++ rest = ds' ++ rest') : ds = ds' ∧ rest = rest' := by
  have hrun := h.matched hL 0 .none
  rw [heq] at hrun
  have houtcome := hrun.unique (h.matched hL' 0 .none)
  obtain rfl : rest = rest' := by
    simp only [Outcome.matched.injEq, State.mk.injEq] at houtcome
    exact houtcome.2.1
  exact ⟨List.append_cancel_right heq, rfl⟩

theorem congr (h : Recognises ctx e L) (hLM : ∀ ds rest, L ds rest ↔ M ds rest) :
    Recognises ctx e M where
  matched hM := h.matched ((hLM _ _).2 hM)
  failed hcs := h.failed fun ds rest heq hL => hcs ds rest heq ((hLM _ _).1 hL)

theorem text (cs : List Char) : Recognises ctx (.text cs) fun ds _ => ds = cs where
  matched := by
    rintro ds rest rfl p t
    exact expect_append ds rest p t ▸ runs_text ds
  failed hcs p t := expect_of_ne (fun rest heq => hcs cs rest heq rfl) p t ▸ runs_text cs

theorem literal (c : Char) : Recognises ctx (.literal c) (Single fun d => decide (d = c)) :=
  (text [c]).congr fun ds rest => by simp [Single]

theorem char (test : Char → Bool) : Recognises ctx (.char test) (Single test) where
  matched := by
    rintro _ rest ⟨c, hc, rfl⟩ p t
    have hchar : State.expectChar ⟨[c] ++ rest, p, t⟩ test =
        .matched [] ⟨rest, p + size [c], t⟩ := by
      simp [State.expectChar, hc, size_cons]
    exact hchar ▸ runs_char test
  failed := by
    intro cs hcs p t
    have hchar : State.expectChar ⟨cs, p, t⟩ test = .failed t := by
      cases cs with
      | nil => rfl
      | cons c cs =>
        have hc : ¬ test c = true := fun hc => hcs [c] cs rfl ⟨c, hc, rfl⟩
        simp [State.expectChar, hc]
    exact hchar ▸ runs_char test

theorem finish : Recognises ctx .finish fun ds rest => ds = [] ∧ rest = [] where
  matched := by
    rintro _ _ ⟨rfl, rfl⟩ p t
    exact runs_finish
  failed := by
    intro cs hcs p t
    cases cs with
    | nil => exact absurd ⟨rfl, rfl⟩ (hcs [] [] rfl)
    | cons => exact runs_finish

/-- One after the other. -/
theorem chain (ha : Recognises ctx a L) (hb : Recognises ctx b M) :
    Recognises ctx (.chain a b) fun ds rest =>
      ∃ d d', ds = d ++ d' ∧ L d (d' ++ rest) ∧ M d' rest where
  matched := by
    rintro _ rest ⟨d, d', rfl, hd, hd'⟩ p t
    rw [List.append_assoc, size_append, ← Nat.add_assoc]
    exact (ha.matched hd p t).chain (hb.matched hd' _ t)
  failed := by
    intro cs hcs p t
    by_cases hstarts : Starts L cs
    · obtain ⟨d, r, rfl, hd⟩ := hstarts
      refine (ha.matched hd p t).chain_failed_right (hb.failed ?_ _ t)
      rintro d' rest rfl hd'
      exact hcs (d ++ d') rest (List.append_assoc ..).symm ⟨d, d', rfl, hd, hd'⟩
    · exact (ha.failed_of_not_starts hstarts p t).chain_failed

theorem skipping (hctx : ctx.atomicity ≠ .skipping) (h : Recognises ctx e L) :
    Recognises ctx (.skipping e) L where
  matched hL p t := (h.matched hL p t).skipping_of_ne hctx
  failed hcs p t := (h.failed hcs p t).skipping_of_ne hctx

/-- A sequence, where nothing is skipped. -/
theorem seq (hctx : ctx.atomicity ≠ .skipping) (ha : Recognises ctx a L) (hb : Recognises ctx b M) :
    Recognises ctx (.seq a b) fun ds rest => ∃ d d', ds = d ++ d' ∧ L d (d' ++ rest) ∧ M d' rest :=
  ha.chain (hb.skipping hctx)

/-- The second expression counts where the first one fails. -/
theorem choice (ha : Recognises ctx a L) (hb : Recognises ctx b M) :
    Recognises ctx (.choice a b) fun ds rest =>
      L ds rest ∨ M ds rest ∧ ¬ Starts L (ds ++ rest) where
  matched := by
    rintro ds rest (hL | ⟨hM, hstarts⟩) p t
    · exact (ha.matched hL p t).choice
    · exact (ha.failed_of_not_starts hstarts p t).choice_right (hb.matched hM p t)
  failed := by
    intro cs hcs p t
    have hstarts : ¬ Starts L cs := fun ⟨ds, rest, heq, hL⟩ => hcs ds rest heq (.inl hL)
    refine (ha.failed_of_not_starts hstarts p t).choice_right (hb.failed ?_ p t)
    exact fun ds rest heq hM => hcs ds rest heq (.inr ⟨hM, heq ▸ hstarts⟩)

/-- Expressions that never match at the same place can be tried in any order. -/
theorem choice_disjoint (ha : Recognises ctx a L) (hb : Recognises ctx b M)
    (hdisjoint : ∀ ds rest, M ds rest → ¬ Starts L (ds ++ rest)) :
    Recognises ctx (.choice a b) fun ds rest => L ds rest ∨ M ds rest :=
  (ha.choice hb).congr fun ds rest =>
    or_congr_right (and_iff_left_of_imp (hdisjoint ds rest))

theorem optional (h : Recognises ctx e L) :
    Recognises ctx (.optional e) fun ds rest => L ds rest ∨ ds = [] ∧ ¬ Starts L rest where
  matched := by
    rintro ds rest (hL | ⟨rfl, hstarts⟩) p t
    · exact (h.matched hL p t).optional
    · exact (h.failed_of_not_starts hstarts p t).optional_failed
  failed := by
    intro cs hcs p t
    have hstarts : Starts L cs :=
      Classical.byContradiction fun hstarts => hcs [] cs rfl (.inr ⟨rfl, hstarts⟩)
    obtain ⟨ds, rest, heq, hL⟩ := hstarts
    exact absurd (.inl hL) (hcs ds rest heq)

theorem many (h : Recognises ctx e L) (hL : ∀ {d r}, L d r → d ≠ []) :
    Recognises ctx (.many e) (Repeated L) where
  matched := by
    intro ds rest hds
    induction hds with
    | nil hstarts =>
      intro p t
      exact (h.failed_of_not_starts hstarts p t).many_failed
    | cons hd _ ih =>
      intro p t
      rw [List.append_assoc, size_append, ← Nat.add_assoc]
      exact (h.matched hd p t).many (ih _ t)
  failed := by
    intro cs hcs
    obtain ⟨ds, rest, heq, hds⟩ := exists_repeated hL cs
    exact absurd hds (hcs ds rest heq)

/-- Repetitions in a row, where nothing is skipped. -/
theorem star (hctx : ctx.atomicity ≠ .skipping) (h : Recognises ctx e L)
    (hL : ∀ {d r}, L d r → d ≠ []) : Recognises ctx (.star e) (Repeated L) := by
  refine (h.chain ((h.skipping hctx).many hL)).optional.congr fun ds rest => ⟨?_, fun hds => ?_⟩
  · rintro (⟨d, d', rfl, hd, hd'⟩ | ⟨rfl, hstarts⟩)
    · exact .cons hd hd'
    · refine .nil fun ⟨d, r, heq, hd⟩ => hstarts ?_
      obtain ⟨d', rest', rfl, hd'⟩ : Starts (Repeated L) r := exists_repeated hL r
      exact ⟨d ++ d', rest', heq.trans (List.append_assoc ..).symm, d, d', rfl, hd, hd'⟩
  · cases hds with
    | nil hstarts =>
      refine .inr ⟨rfl, fun ⟨ds, rest', heq, d, d', hds, hd, _⟩ => hstarts ⟨d, d' ++ rest', ?_, hd⟩⟩
      rw [heq, hds, List.append_assoc]
    | cons hd hds => exact .inl ⟨_, _, rfl, hd, hds⟩

theorem ahead (h : Recognises ctx.looking e L) :
    Recognises ctx (.ahead e) fun ds rest => ds = [] ∧ Starts L rest where
  matched := by
    rintro _ _ ⟨rfl, ds, rest, rfl, hL⟩ p t
    exact (h.matched hL p t).ahead
  failed := by
    intro cs hcs p t
    exact (h.failed_of_not_starts (fun hcs' => hcs [] cs rfl ⟨rfl, hcs'⟩) p t).ahead_failed

theorem notAhead (h : Recognises ctx.notLooking e L) :
    Recognises ctx (.notAhead e) fun ds rest => ds = [] ∧ ¬ Starts L rest where
  matched := by
    rintro _ rest ⟨rfl, hstarts⟩ p t
    exact (h.failed_of_not_starts hstarts p t).notAhead_failed
  failed := by
    intro cs hcs p t
    have hstarts : Starts L cs :=
      Classical.byContradiction fun hstarts => hcs [] cs rfl ⟨rfl, hstarts⟩
    obtain ⟨ds, rest, rfl, hL⟩ := hstarts
    exact (h.matched hL p t).notAhead

/-- A rule that leaves no pair and notes no attempt matches what its body matches. -/
theorem rule {rule : Rule} (hrule : rule.kind = .silent ∨ rule.kind = .hidden ∨ ctx.atomicity = .atomic)
    (h : Recognises (ctx.inside rule) rule.body L) : Recognises ctx (.rule rule) L where
  matched hL p t := ofRule_matched hrule _ _ ▸ (h.matched hL p t).rule
  failed hcs p t := ofRule_failed hrule _ t ▸ (h.failed hcs p t).rule

/-! ### Characters -/

variable {test test' : Char → Bool}

theorem choice_single (ha : Recognises ctx a (Single test)) (hb : Recognises ctx b (Single test')) :
    Recognises ctx (.choice a b) (Single fun c => test c || test' c) := by
  refine (ha.choice hb).congr fun ds rest => ⟨?_, ?_⟩
  · rintro (⟨c, hc, rfl⟩ | ⟨⟨c, hc, rfl⟩, -⟩)
    · exact ⟨c, by simp [hc], rfl⟩
    · exact ⟨c, by simp [hc], rfl⟩
  · rintro ⟨c, hc, rfl⟩
    by_cases htest : test c = true
    · exact .inl ⟨c, htest, rfl⟩
    · refine .inr ⟨⟨c, by simpa [htest] using hc, rfl⟩, fun hstarts => htest ?_⟩
      exact starts_single.1 hstarts

/-- One of several characters. -/
theorem oneOf_literal (h : Recognises ctx e (Single test)) (chars : List Char) :
    Recognises ctx (.oneOf e (chars.map .literal)) (Single fun c => test c || chars.contains c) := by
  induction chars generalizing e test with
  | nil => simpa [Expr.oneOf] using h
  | cons c chars ih => simpa [Expr.oneOf, Bool.or_assoc] using ih (h.choice_single (literal c))

/-- Any character that does not start something else. -/
theorem except (hctx : ctx.atomicity ≠ .skipping) (h : Recognises ctx.notLooking e L)
    (hL : ∀ c cs, Starts L (c :: cs) ↔ test c = true) :
    Recognises ctx (.seq (.notAhead e) .any) (Single fun c => !test c) := by
  refine (h.notAhead.seq hctx (char _)).congr fun ds rest => ⟨?_, ?_⟩
  · rintro ⟨_, _, rfl, ⟨rfl, hstarts⟩, c, -, rfl⟩
    exact ⟨c, by simpa [hL] using hstarts, rfl⟩
  · rintro ⟨c, hc, rfl⟩
    exact ⟨[], [c], rfl, ⟨rfl, by simpa [hL] using hc⟩, c, rfl, rfl⟩

theorem star_single (hctx : ctx.atomicity ≠ .skipping) (h : Recognises ctx e (Single test)) :
    Recognises ctx (.star e) fun ds rest =>
      (∀ d ∈ ds, test d = true) ∧ ∀ c ∈ rest.head?, test c = false :=
  (h.star hctx fun ⟨_, _, hd⟩ => hd ▸ List.cons_ne_nil _ _).congr fun _ _ => repeated_single

theorem plus_single (hctx : ctx.atomicity ≠ .skipping) (h : Recognises ctx e (Single test)) :
    Recognises ctx (.plus e) fun ds rest =>
      (ds ≠ [] ∧ ∀ d ∈ ds, test d = true) ∧ ∀ c ∈ rest.head?, test c = false := by
  refine (h.seq hctx (h.star_single hctx)).congr fun ds rest => ⟨?_, ?_⟩
  · rintro ⟨_, ds, rfl, ⟨c, hc, rfl⟩, hds, hrest⟩
    exact ⟨⟨List.cons_ne_nil _ _, List.forall_mem_cons.2 ⟨hc, hds⟩⟩, hrest⟩
  · rintro ⟨⟨hne, hds⟩, hrest⟩
    cases ds with
    | nil => exact absurd rfl hne
    | cons d ds =>
      obtain ⟨hd, hds⟩ := List.forall_mem_cons.1 hds
      exact ⟨[d], ds, rfl, ⟨d, hd, rfl⟩, hds, hrest⟩

end Recognises

/-! ### Tokens -/

section Tokens

open Literal Reading

variable {ctx : Context}

/-- No atom goes on at the front of a text. -/
def Ends (cs : List Char) : Prop := ∀ c ∈ cs.head?, isDelimiter c = true

/-- The delimiters that are not blank. -/
def marks : List Char := ['(', ')', '[', ']', '\x7b', '\x7d', '"', ';', '\'']

theorem isDelimiter_eq (c : Char) : isDelimiter c = (Text.isBlank c || marks.contains c) := by
  have hopening : (Bracket.ofOpening? c).isSome = ['(', '[', '\x7b'].contains c := by
    grind [Bracket.ofOpening?]
  have hclosing : (Bracket.ofClosing? c).isSome = [')', ']', '\x7d'].contains c := by
    grind [Bracket.ofClosing?]
  rw [isDelimiter, hopening, hclosing]
  grind [marks]

theorem recognises_delimiter : Recognises ctx (.rule .delimiter) (Single isDelimiter) := by
  rw [show isDelimiter = _ from funext isDelimiter_eq]
  exact .rule (.inl rfl) ((Recognises.char Text.isBlank).oneOf_literal marks)

/-- The lookahead after a number. -/
theorem recognises_ends (hctx : ctx.atomicity = .atomic) :
    Recognises ctx (.ahead (.choice (.rule .delimiter) (.rule .endOfInput))) fun ds rest =>
      ds = [] ∧ Ends rest := by
  have hend : Recognises ctx.looking (.rule .endOfInput) fun ds rest => ds = [] ∧ rest = [] :=
    .rule (.inr (.inr hctx)) .finish
  refine (recognises_delimiter.choice hend).ahead.congr fun ds rest => and_congr_right fun _ => ?_
  cases rest with
  | nil => exact ⟨fun _ => nofun, fun _ => ⟨[], [], rfl, .inr ⟨⟨rfl, rfl⟩, by simp [Starts, Single]⟩⟩⟩
  | cons c rest =>
    constructor
    · rintro ⟨_, _, heq, ⟨d, hd, rfl⟩ | ⟨⟨rfl, rfl⟩, -⟩⟩
      · cases heq
        rintro _ ⟨⟩
        exact hd
      · cases heq
    · intro hc
      exact ⟨[c], rest, rfl, .inl ⟨c, hc c rfl, rfl⟩⟩

/-- A run of characters without delimiters. -/
def IsAtom (ds : List Char) : Prop := ds ≠ [] ∧ ∀ d ∈ ds, isDelimiter d = false

theorem recognises_symbol (hctx : ctx.atomicity = .atomic) :
    Recognises ctx Rule.symbol.body fun ds rest => IsAtom ds ∧ Ends rest := by
  have hne : ctx.atomicity ≠ .skipping := hctx ▸ nofun
  have hchar := recognises_delimiter.except hne fun c cs => starts_single
  exact (hchar.plus_single hne).congr fun ds rest => by simp [IsAtom, Ends]

theorem recognises_digits (hne : ctx.atomicity ≠ .skipping) :
    Recognises ctx (.plus .digit) fun ds rest => Digits ds ∧ NoDigit rest :=
  (Recognises.char _).plus_single hne

/-- A minus sign that may be missing is recognised before digits. -/
theorem recognises_sign :
    Recognises ctx (.optional (.literal '-')) fun ds rest =>
      ∃ negative, ds = sign negative ∧ (negative = false → rest.head? ≠ some '-') := by
  refine (Recognises.literal '-').optional.congr fun ds rest => ⟨?_, ?_⟩
  · rintro (⟨c, hc, rfl⟩ | ⟨rfl, hstarts⟩)
    · exact ⟨true, by simpa [sign] using hc, nofun⟩
    · refine ⟨false, rfl, fun _ hhead => ?_⟩
      exact absurd (not_starts_single.1 hstarts '-' hhead) (by decide)
  · rintro ⟨negative, rfl, hhead⟩
    cases negative with
    | true => exact .inl ⟨'-', by decide, rfl⟩
    | false =>
      refine .inr ⟨rfl, not_starts_single.2 fun c hc => ?_⟩
      exact decide_eq_false fun heq => hhead rfl (heq ▸ hc)

theorem Digits.head_ne {ds rest : List Char} (h : Digits ds) {c : Char}
    (hc : Integer.isDigit c = false) : (ds ++ rest).head? ≠ some c := by
  obtain ⟨d, ds, rfl, hd, -⟩ := h.exists_cons
  rintro ⟨⟩
  rw [hc] at hd
  cases hd

theorem Ends.noDigit {rest : List Char} (h : Ends rest) : NoDigit rest := by
  intro c hc
  cases hdigit : Integer.isDigit c with
  | false => rfl
  | true => exact absurd (h c hc) (by simp [Grammar.isDelimiter_of_isDigit hdigit])

theorem recognises_integer (hctx : ctx.atomicity = .atomic) :
    Recognises ctx Rule.integer.body fun ds rest => (∃ n, Whole ds n) ∧ Ends rest := by
  have hne : ctx.atomicity ≠ .skipping := hctx ▸ nofun
  refine (recognises_sign.seq hne ((recognises_digits hne).seq hne (recognises_ends hctx))).congr
    fun ds rest => ⟨?_, ?_⟩
  · rintro ⟨_, _, rfl, ⟨negative, rfl, -⟩, ds, _, rfl, ⟨hds, -⟩, rfl, hrest⟩
    exact ⟨⟨_, negative, ds, hds, by rw [List.append_nil], rfl⟩, hrest⟩
  · rintro ⟨⟨n, negative, ds, hds, rfl, -⟩, hrest⟩
    refine ⟨sign negative, ds, rfl, ⟨negative, rfl, fun _ => Digits.head_ne hds rfl⟩, ds, [], ?_⟩
    exact ⟨(List.append_nil ds).symm, ⟨hds, hrest.noDigit⟩, rfl, hrest⟩

/-- An exponent is recognised up to the last of its digits. -/
def Marked (ds rest : List Char) : Prop := ds ≠ [] ∧ Exponent ds ∧ NoDigit rest

theorem recognises_exponent (hne : ctx.atomicity ≠ .skipping) :
    Recognises ctx (.rule .exponent) Marked := by
  refine .rule (.inl rfl) (.congr ((Recognises.char _).seq hne
    (((Recognises.literal '+').choice_single (.literal '-')).optional.seq hne
      (recognises_digits hne))) fun ds rest => ⟨?_, ?_⟩)
  · rintro ⟨_, _, rfl, ⟨mark, hmark, rfl⟩, sign, ds, rfl, hsign, hds, hrest⟩
    have hmark : mark = 'e' ∨ mark = 'E' := by simpa using hmark
    have hsign : sign = [] ∨ sign = ['+'] ∨ sign = ['-'] := by
      rcases hsign with ⟨c, hc, rfl⟩ | ⟨rfl, -⟩
      · simpa using hc
      · exact .inl rfl
    have hexponent : Exponent (mark :: (sign ++ ds)) := .marked hmark hsign hds
    exact ⟨List.cons_ne_nil _ _, hexponent, hrest⟩
  · rintro ⟨hmore, hexponent, hrest⟩
    cases hexponent with
    | missing => exact absurd rfl hmore
    | @marked mark sign ds hmark hsign hds =>
      refine ⟨[mark], sign ++ ds, rfl, ⟨mark, by simpa using hmark, rfl⟩, sign, ds, rfl, ?_, hds,
        hrest⟩
      rcases hsign with rfl | rfl | rfl
      · refine .inr ⟨rfl, not_starts_single.2 ?_⟩
        obtain ⟨d, ds, rfl, -, hplus, hminus⟩ := hds.exists_cons
        rintro _ ⟨⟩
        simp [hplus, hminus]
      · exact .inl ⟨'+', by decide, rfl⟩
      · exact .inl ⟨'-', by decide, rfl⟩

theorem Ends.not_starts_marked {rest : List Char} (h : Ends rest) : ¬ Starts Marked rest := by
  rintro ⟨ds, _, rfl, hds, hexponent, -⟩
  cases hexponent with
  | missing => exact hds rfl
  | marked hmark =>
    have hdelimiter := h _ rfl
    rcases hmark with rfl | rfl <;> exact absurd hdelimiter (by decide)

/-- The fraction of a decimal, with the exponent behind it. -/
theorem recognises_fraction (hne : ctx.atomicity ≠ .skipping) :
    Recognises ctx (.seq (.literal '.') (.seq (.plus .digit) (.optional (.rule .exponent))))
      fun ds rest => ∃ places exponent, ds = '.' :: (places ++ exponent) ∧ Digits places ∧
        Exponent exponent ∧ NoDigit (exponent ++ rest) ∧
        (Marked exponent rest ∨ exponent = [] ∧ ¬ Starts Marked rest) := by
  refine ((Recognises.literal '.').seq hne ((recognises_digits hne).seq hne
    (recognises_exponent hne).optional)).congr fun ds rest => ⟨?_, ?_⟩
  · rintro ⟨_, _, rfl, ⟨c, hc, rfl⟩, places, exponent, rfl, ⟨hplaces, hdigit⟩, hexponent⟩
    obtain rfl : c = '.' := of_decide_eq_true hc
    refine ⟨places, exponent, rfl, hplaces, ?_, hdigit, hexponent⟩
    rcases hexponent with hmarked | ⟨rfl, -⟩
    · exact hmarked.2.1
    · exact .missing
  · rintro ⟨places, exponent, rfl, hplaces, -, hdigit, hexponent⟩
    exact ⟨['.'], _, rfl, ⟨'.', by decide, rfl⟩, places, exponent, rfl, ⟨hplaces, hdigit⟩, hexponent⟩

theorem noDigit_append {cs rest : List Char} (hcs : NoDigit cs) (hrest : NoDigit rest) :
    NoDigit (cs ++ rest) := by
  cases cs with
  | nil => exact hrest
  | cons => exact hcs

theorem recognises_float (hctx : ctx.atomicity = .atomic) :
    Recognises ctx Rule.float.body fun ds rest => IsDecimal ds ∧ Ends rest := by
  have hne : ctx.atomicity ≠ .skipping := hctx ▸ nofun
  refine (recognises_sign.seq hne ((recognises_digits hne).seq hne
    (((recognises_fraction hne).choice (recognises_exponent hne)).seq hne
      (recognises_ends hctx)))).congr fun ds rest => ⟨?_, ?_⟩
  · rintro ⟨_, _, rfl, ⟨negative, rfl, -⟩, whole, _, rfl, ⟨hwhole, -⟩, tail, _, rfl, htail, rfl, hrest⟩
    rw [List.append_nil]
    refine ⟨?_, hrest⟩
    rcases htail with ⟨places, exponent, rfl, hplaces, hexponent, -⟩ | ⟨⟨hmore, hexponent, -⟩, -⟩
    · exact ⟨negative, whole, '.' :: places, some places, exponent, hwhole, .point hplaces, hexponent,
        List.cons_ne_nil _ _, rfl⟩
    · exact ⟨negative, whole, [], none, tail, hwhole, .missing, hexponent, hmore, rfl⟩
  · rintro ⟨⟨negative, whole, fraction, places, exponent, hwhole, hfraction, hexponent, hmore, rfl⟩,
      hrest⟩
    refine ⟨sign negative, _, rfl, ⟨negative, rfl, fun _ => ?_⟩, whole, _, rfl, ⟨hwhole, ?_⟩,
      fraction ++ exponent, [], (List.append_nil _).symm, ?_, rfl, hrest⟩
    · rw [List.append_assoc]
      exact Digits.head_ne hwhole rfl
    · exact noDigit_append (hfraction.noDigit hexponent) hrest.noDigit
    · cases hfraction with
      | missing =>
        refine .inr ⟨⟨hmore, hexponent, hrest.noDigit⟩, ?_⟩
        -- What begins with the mark of an exponent does not begin with a point.
        rintro ⟨_, _, heq, places, _, rfl, -⟩
        cases hexponent with
        | missing => exact hmore rfl
        | marked hmark =>
          obtain ⟨rfl, -⟩ := List.cons.inj heq
          rcases hmark with h | h <;> cases h
      | @point places hplaces =>
        refine .inl ⟨places, exponent, rfl, hplaces, hexponent,
          noDigit_append hexponent.noDigit hrest.noDigit, ?_⟩
        by_cases hmissing : exponent = []
        · exact .inr ⟨hmissing, hrest.not_starts_marked⟩
        · exact .inl ⟨hmissing, hexponent, hrest.noDigit⟩

/-! ### Strings -/

open Grammar

/-- One character of a string, or two for an escape. -/
def Piece (ds _rest : List Char) : Prop :=
  (∃ c d, (c, d) ∈ escapes ∧ ds = ['\\', c]) ∨ ∃ c, c ≠ '"' ∧ c ≠ '\\' ∧ ds = [c]

theorem recognises_escape (hctx : ctx.atomicity = .atomic) :
    Recognises ctx (.rule .escape) fun ds _ => ∃ c d, (c, d) ∈ escapes ∧ ds = ['\\', c] := by
  have hne : (ctx.inside .escape).atomicity ≠ .skipping := nofun
  refine .rule (.inr (.inr hctx)) (.congr ((Recognises.literal '\\').seq hne
    ((Recognises.literal '"').oneOf_literal ['\\', 'n', 't', 'r', '0'])) fun ds rest => ⟨?_, ?_⟩)
  · rintro ⟨_, _, rfl, ⟨b, hb, rfl⟩, c, hc, rfl⟩
    obtain rfl : b = '\\' := of_decide_eq_true hb
    have hc : c ∈ escapes.map Prod.fst := by simpa [escapes] using hc
    obtain ⟨⟨c, d⟩, hescape, rfl⟩ := List.mem_map.1 hc
    exact ⟨c, d, hescape, rfl⟩
  · rintro ⟨c, d, hescape, rfl⟩
    have hc : c ∈ escapes.map Prod.fst := List.mem_map.2 ⟨(c, d), hescape, rfl⟩
    exact ⟨['\\'], [c], rfl, ⟨'\\', by decide, rfl⟩, c, by simpa [escapes] using hc, rfl⟩

theorem Piece.ne_nil {ds rest : List Char} (h : Piece ds rest) : ds ≠ [] := by
  rcases h with ⟨_, _, -, rfl⟩ | ⟨_, -, -, rfl⟩ <;> exact List.cons_ne_nil _ _

theorem recognises_stringBody (hctx : ctx.atomicity = .atomic) :
    Recognises ctx Rule.stringBody.body (Repeated Piece) := by
  have hne : ctx.atomicity ≠ .skipping := hctx ▸ nofun
  have hplain := ((Recognises.literal '"').choice_single (.literal '\\')).except hne
    fun c cs => starts_single
  have hpiece := ((recognises_escape hctx).choice_disjoint hplain ?_).congr (M := Piece) ?_
  · exact hpiece.star hne Piece.ne_nil
  · rintro _ rest ⟨c, hc, rfl⟩ ⟨_, _, heq, _, _, -, rfl⟩
    obtain ⟨rfl, -⟩ := List.cons.inj heq
    exact absurd hc (by decide)
  · intro ds rest
    simp [Piece, Single, and_assoc]

/-- Pieces in a row are the body of a string. -/
theorem stringBody_of_repeated {body rest : List Char} (h : Repeated Piece body rest) :
    StringBody body (unescape body) := by
  induction h with
  | nil => exact .nil
  | @cons _ body rest hd _ ih =>
    rcases hd with ⟨c, d, hescape, rfl⟩ | ⟨c, hquote, hbackslash, rfl⟩
    · have hunescape : unescape ('\\' :: c :: body) = d :: unescape body := by
        rw [unescape]
        revert hescape
        simp only [escapes, List.mem_cons, Prod.mk.injEq, List.not_mem_nil, or_false]
        rintro (⟨rfl, rfl⟩ | ⟨rfl, rfl⟩ | ⟨rfl, rfl⟩ | ⟨rfl, rfl⟩ | ⟨rfl, rfl⟩ | ⟨rfl, rfl⟩) <;> rfl
      rw [List.cons_append, List.cons_append, List.nil_append, hunescape]
      exact .escape hescape ih
    · have hunescape : unescape (c :: body) = c :: unescape body := by
        rw [unescape]
        all_goals simp [hbackslash]
      rw [List.cons_append, List.nil_append, hunescape]
      exact .plain hquote hbackslash ih

/-! ### Blanks and comments -/

theorem recognises_whitespace : Recognises ctx (.rule .whitespace) (Single Text.isBlank) :=
  .rule (.inr (.inl rfl)) (.char _)

/-- A comment is recognised up to the end of its line. -/
def Remark (ds rest : List Char) : Prop := Comment ds ∧ ∀ c ∈ rest.head?, EndsLine c

theorem starts_text {cs text : List Char} : Starts (fun ds _ => ds = cs) text ↔ cs <+: text := by
  constructor
  · rintro ⟨_, rest, rfl, rfl⟩
    exact List.prefix_append _ _
  · rintro ⟨rest, rfl⟩
    exact ⟨cs, rest, rfl, rfl⟩

theorem starts_choice {L M : List Char → List Char → Prop} {cs : List Char} :
    Starts (fun ds rest => L ds rest ∨ M ds rest ∧ ¬ Starts L (ds ++ rest)) cs ↔
      Starts L cs ∨ Starts M cs := by
  constructor
  · rintro ⟨ds, rest, rfl, hL | ⟨hM, -⟩⟩
    · exact .inl ⟨ds, rest, rfl, hL⟩
    · exact .inr ⟨ds, rest, rfl, hM⟩
  · intro h
    by_cases hstarts : Starts L cs
    · obtain ⟨ds, rest, rfl, hL⟩ := hstarts
      exact ⟨ds, rest, rfl, .inl hL⟩
    · obtain ⟨ds, rest, rfl, hM⟩ := h.resolve_left hstarts
      exact ⟨ds, rest, rfl, .inr ⟨hM, hstarts⟩⟩

/-- Whether a character can stand in a comment. -/
def inLine (c : Char) : Bool := !(decide (c = '\n') || decide (c = '\r'))

theorem inLine_eq_true {c : Char} : inLine c = true ↔ ¬ EndsLine c := by simp [inLine, EndsLine]

theorem inLine_eq_false {c : Char} : inLine c = false ↔ EndsLine c := by
  simp [inLine, EndsLine, Decidable.or_iff_not_imp_left]

theorem recognises_inLine (hne : ctx.atomicity ≠ .skipping) :
    Recognises ctx (.seq (.notAhead .newline) .any) (Single inLine) := by
  refine (((Recognises.text ['\n']).choice (.text ['\r', '\n'])).choice (.text ['\r'])).except hne
    fun c cs => ?_
  rw [starts_choice, starts_choice, starts_text, starts_text, starts_text]
  simp only [List.cons_prefix_cons, List.nil_prefix, and_true, Bool.or_eq_true, decide_eq_true_eq]
  grind

theorem recognises_comment : Recognises ctx (.rule .comment) Remark := by
  have hne : (ctx.inside .comment).atomicity ≠ .skipping := nofun
  refine .rule (.inr (.inl rfl)) (((Recognises.literal ';').seq hne
    ((recognises_inLine hne).star_single hne)).congr fun ds rest => ?_)
  simp only [inLine_eq_true, inLine_eq_false]
  constructor
  · rintro ⟨_, body, rfl, ⟨c, hc, rfl⟩, hbody, hrest⟩
    obtain rfl : c = ';' := of_decide_eq_true hc
    exact ⟨⟨body, rfl, hbody⟩, hrest⟩
  · rintro ⟨⟨body, rfl, hbody⟩, hrest⟩
    exact ⟨[';'], body, rfl, ⟨';', by decide, rfl⟩, hbody, hrest⟩

/-- A comment with the blanks behind it. -/
def RemarkLine (ds rest : List Char) : Prop :=
  ∃ comment blanks, ds = comment ++ blanks ∧ Remark comment (blanks ++ rest) ∧
    Repeated (Single Text.isBlank) blanks rest

/-- Blanks, and comments with the blanks behind them. -/
def Skipped (ds rest : List Char) : Prop :=
  ∃ blanks remarks, ds = blanks ++ remarks ∧
    Repeated (Single Text.isBlank) blanks (remarks ++ rest) ∧ Repeated RemarkLine remarks rest

/-- Nothing is skipped at the front of a text. -/
def Clear (cs : List Char) : Prop := ∀ c ∈ cs.head?, Text.isBlank c = false ∧ c ≠ ';'

theorem Single.ne_nil {test : Char → Bool} {ds rest : List Char} (h : Single test ds rest) :
    ds ≠ [] := by
  obtain ⟨c, -, rfl⟩ := h
  exact List.cons_ne_nil c []

theorem RemarkLine.ne_nil {ds rest : List Char} (h : RemarkLine ds rest) : ds ≠ [] := by
  obtain ⟨_, blanks, rfl, ⟨⟨body, rfl, -⟩, -⟩, -⟩ := h
  exact List.cons_ne_nil ';' _

theorem recognises_skipped : Recognises ctx skipped Skipped := by
  have hblanks : Recognises ctx _ _ := recognises_whitespace.many Single.ne_nil
  exact hblanks.chain ((recognises_comment.chain hblanks).many RemarkLine.ne_nil)

theorem exists_skipped (cs : List Char) : Starts Skipped cs := by
  obtain ⟨blanks, cs, rfl, hblanks⟩ := exists_repeated (L := Single Text.isBlank) Single.ne_nil cs
  obtain ⟨remarks, rest, rfl, hremarks⟩ := exists_repeated (L := RemarkLine) RemarkLine.ne_nil cs
  exact ⟨blanks ++ remarks, rest, (List.append_assoc ..).symm, blanks, remarks, rfl, hblanks, hremarks⟩

theorem starts_remarkLine (cs : List Char) : Starts RemarkLine (';' :: cs) := by
  obtain ⟨body, cs, rfl, hbody⟩ := exists_repeated (L := Single inLine) Single.ne_nil cs
  obtain ⟨blanks, rest, rfl, hblanks⟩ := exists_repeated (L := Single Text.isBlank) Single.ne_nil cs
  simp only [repeated_single, inLine_eq_true, inLine_eq_false] at hbody
  have hremark : Remark (';' :: body) (blanks ++ rest) := ⟨⟨body, rfl, hbody.1⟩, hbody.2⟩
  exact ⟨';' :: (body ++ blanks), rest, by simp, ';' :: body, blanks, rfl, hremark, hblanks⟩

/-- Skipping goes on until nothing is skipped. -/
theorem Skipped.clear {ds rest : List Char} (h : Skipped ds rest) : Clear rest := by
  obtain ⟨blanks, remarks, rfl, hblanks, hremarks⟩ := h
  have hhead := (repeated_single.1 hblanks).2
  clear hblanks
  induction hremarks with
  | nil hstarts =>
    intro c hc
    refine ⟨hhead c hc, ?_⟩
    rintro rfl
    obtain ⟨cs, hcs⟩ := List.head?_eq_some_iff.1 hc
    exact hstarts (hcs ▸ starts_remarkLine cs)
  | cons hremark _ ih =>
    obtain ⟨_, _, -, -, hblanks⟩ := hremark
    exact ih (repeated_single.1 hblanks).2

theorem Clear.skipped {cs : List Char} (h : Clear cs) : Skipped [] cs := by
  refine ⟨[], [], rfl, .nil (not_starts_single.2 fun c hc => (h c hc).1), .nil ?_⟩
  rintro ⟨_, rest, rfl, _, blanks, rfl, ⟨⟨body, rfl, -⟩, -⟩, -⟩
  exact (h ';' rfl).2 rfl

end Tokens

end Peg

end ConfinedLisp
