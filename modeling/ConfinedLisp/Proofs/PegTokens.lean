import ConfinedLisp.Proofs.Recognition

/-!
# Tokens are matched as they are read

Where a form can begin, the rules of the tokens are tried one after the other, and each that fails is
noted. An atom is matched by the rule of its shape and built as it is read; a string is matched if
reading it does not fail; what is skipped is what reading passes over.

## Main definitions

- `Form.datum`: the datum of a form.
- `Peg.Attempts.note`: the attempts after rules have failed at a position.
- `Peg.Attempts.Fresh`: nothing has been tried at a position.

## Main results

- `Peg.runs_atom`, `Peg.runs_atom_of_ends`: an atom is matched, and what is none is tried in vain.
- `Peg.runs_string`, `Peg.outcome_unclosed`: a string is matched, or reading it fails.
- `Peg.Skipped.outcome`: what is skipped is passed over.
-/

namespace ConfinedLisp

/-- The datum of a form. -/
def Form.datum : Form → Peg.Datum
  | .int n => .int n
  | .float x => .float x
  | .str s => .str s
  | .sym name => .sym name
  | .list items => .list (items.map datum)

namespace Peg

open Grammar Literal Reading

/-! ### Attempts -/

namespace Attempts

/-- The attempts after rules have failed at a position, one after the other. -/
def note (t : Attempts) (p : Nat) (rules : List Rule) : Attempts :=
  rules.foldl (fun t rule => t.track t p rule false) t

/-- Nothing has been tried at a position or behind it. -/
def Fresh (t : Attempts) (p : Nat) : Prop := t.position < p ∨ t = ⟨p, [], []⟩

variable {t now : Attempts} {p q : Nat}

/-- What is tried before the furthest position is not noted. -/
theorem track_of_lt (h : p < now.position) (before : Attempts) (rule : Rule) (matched : Bool) :
    now.track before p rule matched = now := by
  have hne : now.position ≠ p := Nat.ne_of_gt h
  have hle : ¬ now.position < p := Nat.not_lt.2 (Nat.le_of_lt h)
  simp [track, restrict, add, hne, hle]

theorem track_self (p : Nat) (rules : List Rule) (rule : Rule) :
    track ⟨p, rules, []⟩ ⟨p, rules, []⟩ p rule false = ⟨p, rules ++ [rule], []⟩ := by
  simp [track, restrict, add]

theorem Fresh.track (h : t.Fresh p) (rule : Rule) : t.track t p rule false = ⟨p, [rule], []⟩ := by
  rcases h with h | rfl
  · have hne : t.position ≠ p := Nat.ne_of_lt h
    simp [Attempts.track, countAt, restrict, add, hne, h]
  · exact track_self p [] rule

theorem Fresh.mono (h : t.Fresh p) (hle : p ≤ q) : t.Fresh q := by
  rcases Nat.eq_or_lt_of_le hle with rfl | hlt
  · exact h
  · rcases h with h | rfl
    · exact .inl (Nat.lt_trans h hlt)
    · exact .inl hlt

theorem note_note (t : Attempts) (p : Nat) (rules more : List Rule) :
    (t.note p rules).note p more = t.note p (rules ++ more) :=
  List.foldl_append.symm

theorem note_at (p : Nat) (rules more : List Rule) :
    note ⟨p, rules, []⟩ p more = ⟨p, rules ++ more, []⟩ := by
  induction more generalizing rules with
  | nil => rw [List.append_nil]; rfl
  | cons rule more ih =>
    have hfirst : note ⟨p, rules, []⟩ p (rule :: more) = note ⟨p, rules ++ [rule], []⟩ p more := by
      rw [note, List.foldl_cons, track_self]
      rfl
    rw [hfirst, ih, List.append_assoc]
    rfl

theorem Fresh.note (h : t.Fresh p) (rule : Rule) (more : List Rule) :
    t.note p (rule :: more) = ⟨p, rule :: more, []⟩ := by
  rw [Attempts.note, List.foldl_cons, h.track]
  exact note_at p [rule] more

theorem note_of_lt (h : p < t.position) (rules : List Rule) : t.note p rules = t := by
  induction rules with
  | nil => rfl
  | cons rule more ih =>
    rw [note, List.foldl_cons, track_of_lt h]
    exact ih

end Attempts

/-! ### Rules -/

theorem Runs.silent {rule : Rule} (hkind : rule.kind = .silent) {ctx : Context} {s : State}
    {o : Outcome} (h : Runs rule.body ctx s o) : Runs (.rule rule) ctx s o := by
  have hctx : ctx.inside rule = ctx := by simp [Context.inside, hkind]
  rw [← hctx] at h
  have hrule := h.rule
  cases o <;> simpa [Outcome.ofRule, hkind] using hrule

theorem upTo_append (ds rest : List Char) (p q : Nat) (t u : Attempts) :
    State.upTo ⟨ds ++ rest, p, t⟩ ⟨rest, q, u⟩ = ds := by
  simp [State.upTo]

/-- A token leaves a pair with its text. -/
theorem runs_token (ctx : Context) (rule : Rule) (hkind : rule.kind = .atomic)
    (hlook : ctx.lookahead = .none) (hctx : ctx.atomicity ≠ .atomic)
    {L : List Char → List Char → Prop} (h : Recognises (ctx.inside rule) rule.body L)
    {ds rest : List Char} (hL : L ds rest) (p : Nat) (t : Attempts) :
    Runs (.rule rule) ctx ⟨ds ++ rest, p, t⟩
      (.matched [.node rule p ds []] ⟨rest, p + size ds, t⟩) := by
  have hrule := (h.matched hL p t).rule
  rw [Outcome.ofRule, upTo_append] at hrule
  simpa [hkind, hlook, hctx] using hrule

/-- A rule leaves a pair with its text and the pairs inside. -/
theorem Runs.pair (rule : Rule) (hkind : rule.kind ≠ .silent ∧ rule.kind ≠ .hidden) {s u : State}
    {pairs : List Pair} (h : Runs rule.body (Context.top.inside rule) s (.matched pairs u)) :
    Runs (.rule rule) .top s (.matched [.node rule s.position (s.upTo u) pairs] u) := by
  have hrule := h.rule
  rw [Outcome.ofRule] at hrule
  simpa [hkind, Context.top] using hrule

/-- A rule that fails is noted. -/
theorem Runs.failing (rule : Rule) (hkind : rule.kind ≠ .silent ∧ rule.kind ≠ .hidden) {s : State}
    {t : Attempts} (h : Runs rule.body (Context.top.inside rule) s (.failed t)) :
    Runs (.rule rule) .top s (.failed (t.track s.attempts s.position rule false)) := by
  have hrule := h.rule
  rw [Outcome.ofRule] at hrule
  simpa [hkind, Context.top] using hrule

/-- A rule that fails behind its own position is not noted. -/
theorem Runs.failing_later (rule : Rule) (hkind : rule.kind ≠ .silent ∧ rule.kind ≠ .hidden)
    {s : State} {t : Attempts} (h : Runs rule.body (Context.top.inside rule) s (.failed t))
    (hlt : s.position < t.position) : Runs (.rule rule) .top s (.failed t) :=
  Attempts.track_of_lt hlt s.attempts rule false ▸ h.failing rule hkind

/-! ### Atoms -/

theorem isAtom_append {cs ds : List Char} (hcs : IsAtom cs) (hds : ∀ d ∈ ds, isDelimiter d = false) :
    IsAtom (cs ++ ds) :=
  ⟨List.append_ne_nil_of_left_ne_nil hcs.1 ds, List.forall_mem_append.2 ⟨hcs.2, hds⟩⟩

theorem isAtom_digits {ds : List Char} (h : Digits ds) : IsAtom ds :=
  ⟨h.1, fun d hd => isDelimiter_of_isDigit (h.2 d hd)⟩

theorem isAtom_sign_append {ds : List Char} (h : IsAtom ds) (negative : Bool) :
    IsAtom (sign negative ++ ds) := by
  cases negative with
  | false => exact h
  | true => exact ⟨List.cons_ne_nil _ _, List.forall_mem_cons.2 ⟨rfl, h.2⟩⟩

theorem isAtom_whole {ds : List Char} {n : Int} (h : Whole ds n) : IsAtom ds := by
  obtain ⟨negative, digits, hdigits, rfl, -⟩ := h
  exact isAtom_sign_append (isAtom_digits hdigits) negative

theorem isAtom_decimal {ds : List Char} (h : IsDecimal ds) : IsAtom ds := by
  obtain ⟨negative, whole, fraction, places, exponent, hwhole, hfraction, hexponent, -, rfl⟩ := h
  have hfraction : ∀ d ∈ fraction, isDelimiter d = false := by
    cases hfraction with
    | missing => exact nofun
    | point hds => exact List.forall_mem_cons.2 ⟨rfl, (isAtom_digits hds).2⟩
  have hexponent : ∀ d ∈ exponent, isDelimiter d = false := by
    cases hexponent with
    | missing => exact nofun
    | marked hmark hsign hds =>
      refine List.forall_mem_cons.2 ⟨?_, List.forall_mem_append.2 ⟨?_, (isAtom_digits hds).2⟩⟩
      · rcases hmark with rfl | rfl <;> rfl
      · rcases hsign with rfl | rfl | rfl
        · exact nofun
        · exact List.forall_mem_singleton.2 rfl
        · exact List.forall_mem_singleton.2 rfl
  refine isAtom_sign_append (isAtom_append (isAtom_digits hwhole) ?_) negative
  exact List.forall_mem_append.2 ⟨hfraction, hexponent⟩

theorem ends_cons {c : Char} (hc : isDelimiter c = true) (cs : List Char) : Ends (c :: cs) := by
  rintro _ ⟨⟩
  exact hc

theorem head?_cons_ne {c d : Char} (h : c ≠ d) (cs : List Char) : (c :: cs).head? ≠ some d :=
  fun heq => h (Option.some.inj heq)

/-- An atom does not begin with a delimiter. -/
theorem IsAtom.head?_ne {ds : List Char} (h : IsAtom ds) {c : Char} (hc : isDelimiter c = true)
    (rest : List Char) : (ds ++ rest).head? ≠ some c := by
  obtain ⟨hne, hds⟩ := h
  cases ds with
  | nil => exact absurd rfl hne
  | cons d ds =>
    refine head?_cons_ne (fun heq => ?_) (ds ++ rest)
    rw [← heq, hds d (by simp)] at hc
    cases hc

/-- An atom ends where the first delimiter is. -/
theorem IsAtom.eq_of_append {ds rest ds' rest' : List Char} (hds : IsAtom ds) (hrest : Ends rest)
    (hds' : IsAtom ds') (hrest' : Ends rest') (heq : ds ++ rest = ds' ++ rest') : ds = ds' := by
  have hsymbol : Recognises ⟨.atomic, .none⟩ Rule.symbol.body _ := recognises_symbol rfl
  exact (hsymbol.unique ⟨hds, hrest⟩ ⟨hds', hrest'⟩ heq).1

/-- Where no atom begins, none of its shapes is found. -/
theorem Ends.not_starts {cs : List Char} (h : Ends cs) {shape : List Char → Prop}
    (hshape : ∀ ds, shape ds → IsAtom ds) : ¬ Starts (fun ds rest => shape ds ∧ Ends rest) cs := by
  rintro ⟨ds, rest, rfl, hds, -⟩
  obtain ⟨hne, hds⟩ := hshape ds hds
  cases ds with
  | nil => exact hne rfl
  | cons d ds =>
    have hd := h d rfl
    rw [hds d (by simp)] at hd
    cases hd

/-- Where an atom begins, a shape is found only if the atom has it. -/
theorem IsAtom.not_starts {ds rest : List Char} (hds : IsAtom ds) (hrest : Ends rest)
    {shape : List Char → Prop} (hshape : ∀ ds, shape ds → IsAtom ds) (hnot : ¬ shape ds) :
    ¬ Starts (fun ds rest => shape ds ∧ Ends rest) (ds ++ rest) := by
  rintro ⟨ds', rest', heq, hds', hrest'⟩
  exact hnot (hds.eq_of_append hrest (hshape ds' hds') hrest' heq ▸ hds')

section

variable {cs : List Char} (p : Nat) (t : Attempts)

theorem runs_float_of_not_starts (h : ¬ Starts (fun ds rest => IsDecimal ds ∧ Ends rest) cs) :
    Runs (.rule .float) .top ⟨cs, p, t⟩ (.failed (t.note p [.float])) :=
  Runs.failing .float (by decide) ((recognises_float rfl).failed_of_not_starts h p t)

theorem runs_integer_of_not_starts
    (h : ¬ Starts (fun ds rest => (∃ n, Whole ds n) ∧ Ends rest) cs) :
    Runs (.rule .integer) .top ⟨cs, p, t⟩ (.failed (t.note p [.integer])) :=
  Runs.failing .integer (by decide) ((recognises_integer rfl).failed_of_not_starts h p t)

theorem runs_symbol_of_not_starts (h : ¬ Starts (fun ds rest => IsAtom ds ∧ Ends rest) cs) :
    Runs (.rule .symbol) .top ⟨cs, p, t⟩ (.failed (t.note p [.symbol])) :=
  Runs.failing .symbol (by decide) ((recognises_symbol rfl).failed_of_not_starts h p t)

/-- A literal fails where another character stands. -/
theorem runs_literal_of_ne {ctx : Context} {c : Char} (h : cs.head? ≠ some c) :
    Runs (.literal c) ctx ⟨cs, p, t⟩ (.failed t) := by
  refine (Recognises.literal c).failed_of_not_starts (not_starts_single.2 fun d hd => ?_) p t
  exact decide_eq_false fun heq => h (heq ▸ hd)

theorem runs_literal {ctx : Context} (c : Char) (cs : List Char) :
    Runs (.literal c) ctx ⟨c :: cs, p, t⟩ (.matched [] ⟨cs, p + c.utf8Size, t⟩) := by
  have hmatched : Runs (.literal c) ctx ⟨[c] ++ cs, p, t⟩ _ :=
    (Recognises.literal c).matched ⟨c, decide_eq_true rfl, rfl⟩ p t
  rwa [size_cons] at hmatched

theorem runs_string_of_ne (h : cs.head? ≠ some '"') :
    Runs (.rule .string) .top ⟨cs, p, t⟩ (.failed (t.note p [.string])) :=
  Runs.failing .string (by decide) (runs_literal_of_ne p t h).chain_failed

/-- What is no atom and no string is tried in vain. -/
theorem runs_atom_of_ends (h : Ends cs) (hquote : cs.head? ≠ some '"') :
    Runs (.rule .atom) .top ⟨cs, p, t⟩
      (.failed (t.note p [.float, .integer, .string, .symbol])) := by
  have hfloat := runs_float_of_not_starts p t (h.not_starts fun ds => isAtom_decimal)
  have hinteger := runs_integer_of_not_starts p (t.note p [.float])
    (h.not_starts fun ds ⟨_, hn⟩ => isAtom_whole hn)
  have hstring := runs_string_of_ne p (t.note p [.float, .integer]) hquote
  have hsymbol := runs_symbol_of_not_starts p (t.note p [.float, .integer, .string])
    (h.not_starts fun ds => id)
  rw [Attempts.note_note] at hinteger hstring hsymbol
  exact .silent rfl (((hfloat.choice_right hinteger).choice_right hstring).choice_right hsymbol)

end

theorem whole_ofText? {ds : List Char} {n : Int} (h : Whole ds n) :
    Integer.ofText? ds = Integer.ofInt? n := by
  obtain ⟨negative, digits, hdigits, rfl, rfl⟩ := h
  have haccepted := hdigits.accepted
  cases negative with
  | true => simp [Integer.ofText?, sign, haccepted]
  | false =>
    obtain ⟨d, ds, rfl, -, hplus, hminus⟩ := hdigits.exists_cons
    have hsplit : Integer.ofText? (d :: ds) =
        if (d :: ds).isEmpty || !(d :: ds).all Integer.isDigit then none
        else Integer.ofInt? (Integer.ofDigits (d :: ds)) := by
      simp [Integer.ofText?, hplus, hminus]
    exact hsplit.trans (if_neg (by rw [haccepted]; exact Bool.false_ne_true))

/-- An integer is built as it is read. -/
theorem build_integer {ds : List Char} {n : Int} (h : Whole ds n) (p : Nat) (inner : List Pair) :
    Pair.build (.node .integer p ds inner) = .ok (Form.ofAtom ds).datum := by
  obtain ⟨hint, x, htext, hfloat⟩ := h.ofAtom
  rw [Pair.build, whole_ofText? h]
  cases hi : Integer.ofInt? n with
  | some i => simp [hint i (ofInt?_eq_some_iff_toInt.1 hi), Form.datum]
  | none =>
    have hlarge : ∀ i : Int64, i.toInt ≠ n := fun i hn => by
      rw [ofInt?_eq_some_iff_toInt.2 hn] at hi
      cases hi
    simp [htext, hfloat hlarge, Form.datum]

/-- An atom is matched by the rule of its shape. -/
theorem runs_atom {ds rest : List Char} (hds : IsAtom ds) (hrest : Ends rest) (p : Nat)
    (rules : List Rule) :
    ∃ rule more, Runs (.rule .atom) .top ⟨ds ++ rest, p, ⟨p, rules, []⟩⟩
        (.matched [.node rule p ds []] ⟨rest, p + size ds, ⟨p, more, []⟩⟩) ∧
      rule ≠ .endOfInput ∧ Pair.build (.node rule p ds []) = .ok (Form.ofAtom ds).datum := by
  by_cases hdecimal : IsDecimal ds
  · obtain ⟨x, htext, hatom⟩ := hdecimal.ofAtom
    have hfloat := runs_token .top .float rfl rfl (by decide) (recognises_float rfl)
      ⟨hdecimal, hrest⟩ p ⟨p, rules, []⟩
    refine ⟨.float, rules, .silent rfl hfloat.choice.choice.choice, by decide, ?_⟩
    simp [Pair.build, htext, hatom, Form.datum]
  have hfloat := runs_float_of_not_starts p ⟨p, rules, []⟩
    (hds.not_starts hrest (fun ds => isAtom_decimal) hdecimal)
  rw [Attempts.note_at] at hfloat
  by_cases hwhole : ∃ n, Whole ds n
  · have hinteger := runs_token .top .integer rfl rfl (by decide)
      (recognises_integer rfl) ⟨hwhole, hrest⟩ p ⟨p, rules ++ [.float], []⟩
    obtain ⟨n, hn⟩ := hwhole
    exact ⟨.integer, _, .silent rfl (hfloat.choice_right hinteger).choice.choice, by decide,
      build_integer hn p []⟩
  have hinteger := runs_integer_of_not_starts p ⟨p, rules ++ [.float], []⟩
    (hds.not_starts hrest (fun ds ⟨_, hn⟩ => isAtom_whole hn) hwhole)
  rw [Attempts.note_at] at hinteger
  have hstring := runs_string_of_ne p ⟨p, rules ++ [.float] ++ [.integer], []⟩ (hds.head?_ne rfl rest)
  rw [Attempts.note_at] at hstring
  have hsymbol := runs_token .top .symbol rfl rfl (by decide)
    (recognises_symbol rfl) ⟨hds, hrest⟩ p ⟨p, rules ++ [.float] ++ [.integer] ++ [.string], []⟩
  refine ⟨.symbol, _, .silent rfl (((hfloat.choice_right hinteger).choice_right
    hstring).choice_right hsymbol), by decide, ?_⟩
  have hatom := ofAtom_of_no_number (fun n hn => hwhole ⟨n, hn⟩) hdecimal
  simp [Pair.build, hatom, Form.datum]

/-! ### Strings -/

/-- A string is matched up to its closing quote. -/
theorem runs_string {body rest : List Char} (hbody : Repeated Piece body ('"' :: rest)) (p : Nat)
    (t : Attempts) :
    Runs (.rule .string) .top ⟨'"' :: (body ++ '"' :: rest), p, t⟩
      (.matched [.node .string p ('"' :: (body ++ ['"'])) [.node .stringBody (p + 1) body []]]
        ⟨rest, p + 1 + size body + 1, t⟩) := by
  have hne : (Context.top.inside .string).atomicity ≠ .skipping := nofun
  have hinner := runs_token (Context.top.inside .string) .stringBody rfl rfl nofun
    (recognises_stringBody rfl) hbody (p + 1) t
  have hclose : Runs (.skipping (.literal '"')) (Context.top.inside .string)
      ⟨'"' :: rest, p + 1 + size body, t⟩ _ :=
    (runs_literal _ t '"' rest).skipping_of_ne hne
  have hbody : Runs Rule.string.body (Context.top.inside .string)
      ⟨'"' :: (body ++ '"' :: rest), p, t⟩ _ :=
    (runs_literal p t '"' _).chain ((hinner.chain hclose).skipping_of_ne hne)
  have htext : '"' :: (body ++ '"' :: rest) = '"' :: (body ++ ['"']) ++ rest := by simp
  have hpair := hbody.pair .string (by decide)
  rw [htext, upTo_append] at hpair
  rw [htext]
  exact hpair

theorem runs_string_of_unclosed {body rest : List Char} (hbody : Repeated Piece body rest)
    (hrest : rest.head? ≠ some '"') (p : Nat) (t : Attempts) :
    Runs (.rule .string) .top ⟨'"' :: (body ++ rest), p, t⟩
      (.failed (t.note p [.string])) := by
  have hne : (Context.top.inside .string).atomicity ≠ .skipping := nofun
  have hinner := runs_token (Context.top.inside .string) .stringBody rfl rfl nofun
    (recognises_stringBody rfl) hbody (p + 1) t
  have hclose : Runs (.skipping (.literal '"')) (Context.top.inside .string)
      ⟨rest, p + 1 + size body, t⟩ _ :=
    (runs_literal_of_ne _ t hrest).skipping_of_ne hne
  exact .failing .string (by decide)
    ((runs_literal p t '"' _).chain_failed_right ((hinner.chain_failed_right hclose).skipping_of_ne hne))

/-- A string that is not closed, or that has a backslash before a wrong character, is no form. -/
theorem outcome_unclosed {body cs rest : List Char} (hbody : StringBody body cs)
    (hrest : ¬ Starts Piece rest) (hquote : rest.head? ≠ some '"') (offset : Nat)
    (state : List Pending × List Form) :
    (between offset state).outcome ('"' :: (body ++ rest)) =
      .error ⟨wantedAt offset state.1, offset, 1⟩ := by
  rw [outcome_of_step (step_string offset state),
    (hbody.reaches (offset + 1) offset [] state).outcome]
  cases rest with
  | nil => rfl
  | cons c rest =>
    have hc : c ≠ '"' := fun h => hquote (h ▸ rfl)
    -- A character that is neither a quote nor a backslash would go on with the string.
    obtain rfl : c = '\\' := Classical.byContradiction fun hbackslash =>
      hrest ⟨[c], rest, rfl, .inr ⟨c, hc, hbackslash, rfl⟩⟩
    refine (outcome_of_step rfl rest).trans ?_
    cases rest with
    | nil => rfl
    | cons d rest =>
      have hd : unescape? d = none := Option.eq_none_iff_forall_ne_some.2 fun e he =>
        hrest ⟨['\\', d], rest, rfl, .inl ⟨d, e, unescape?_eq_some_iff.1 he, rfl⟩⟩
      refine outcome_of_step_error ?_ rest
      simp [step, stepMode, hd, faultAt]

/-! ### Blanks and comments -/

theorem reaches_blanks {blanks : List Char} (h : ∀ c ∈ blanks, Text.isBlank c = true) (offset : Nat)
    (state : List Pending × List Form) : (between offset state).Reaches blanks .gap state := by
  induction blanks generalizing offset with
  | nil => exact ⟨offset, rfl⟩
  | cons c blanks ih =>
    obtain ⟨hc, hblanks⟩ := List.forall_mem_cons.1 h
    exact .cons (step_blank offset state hc) (ih hblanks _)

/-- A comment is passed over up to the end of its line. -/
theorem Remark.outcome {comment rest : List Char} (h : Remark comment rest) (offset : Nat)
    (state : List Pending × List Form) :
    (between offset state).outcome (comment ++ rest) =
      (between (offset + size comment) state).outcome rest := by
  rw [(h.1.reaches offset state).outcome]
  refine outcome_congr (fun _ => rfl) fun c hc => ?_
  have hblank : Text.isBlank c = true := by
    rcases h.2 c hc with rfl | rfl <;> decide
  rw [step_endsLine (h.2 c hc), step_blank _ _ hblank]
  rfl

/-- What is skipped is passed over. -/
theorem Skipped.outcome {ds rest : List Char} (h : Skipped ds rest) (offset : Nat)
    (state : List Pending × List Form) :
    (between offset state).outcome (ds ++ rest) =
      (between (offset + size ds) state).outcome rest := by
  have hblanks : ∀ {blanks rest : List Char}, Repeated (Single Text.isBlank) blanks rest →
      ∀ offset, (between offset state).outcome (blanks ++ rest) =
        (between (offset + size blanks) state).outcome rest :=
    fun h offset => (reaches_blanks (repeated_single.1 h).1 offset state).outcome _
  obtain ⟨blanks, remarks, rfl, hfirst, hremarks⟩ := h
  rw [List.append_assoc, hblanks hfirst, size_append, ← Nat.add_assoc]
  generalize offset + size blanks = offset
  clear hfirst
  induction hremarks generalizing offset with
  | nil => rfl
  | cons hremark _ ih =>
    obtain ⟨comment, blanks, rfl, hcomment, hmore⟩ := hremark
    rw [List.append_assoc, List.append_assoc, hcomment.outcome, hblanks hmore, ih]
    simp only [size_append, Nat.add_assoc]

theorem Runs.afterSkipped {gap rest : List Char} (hgap : Skipped gap rest) {e : Expr} {p : Nat}
    {t : Attempts} {o : Outcome} (h : Runs e .top ⟨rest, p + size gap, t⟩ o) :
    Runs (.skipping e) .top ⟨gap ++ rest, p, t⟩ o :=
  .skipping rfl (recognises_skipped.matched hgap p t) h

end Peg

end ConfinedLisp
