import ConfinedLisp.Proofs.PegTokens

/-!
# Reading by the grammar

A text that is matched against the rules of the grammar gives the forms, or the error, that reading it
character by character gives. Matching a form takes the same characters off a text as reading does, and
where no form is matched, the furthest position at which rules were tried is the one where reading
fails. So the pairs of a matched text can always be built.

## Main definitions

- `Peg.Formed`, `Peg.Stuck`: a form has been matched, or none can be.
- `Peg.Items`: forms in a row.

## Main results

- `Peg.readsForm`: a form is matched as it is read.
- `Peg.runs_items_then`: so are forms in a row.
- `Peg.read_eq`: a text is read alike by the grammar and character by character.
-/

namespace ConfinedLisp

namespace Peg

open Grammar Literal Reading

/-! ### Forms -/

/-- The rules that are tried where a form can begin. -/
def starters : List Rule := [.quote, .list, .float, .integer, .string, .symbol]

/-- No form is matched at the front of a text: it is at its end, a bracket is closed, or reading fails
at the furthest position at which rules were tried. -/
inductive Stuck (p : Nat) : List Char → Attempts → Prop where
  | finished : Stuck p [] ⟨p, starters, []⟩
  | closing (b : Bracket) (rest : List Char) : Stuck p (b.closing :: rest) ⟨p, starters, []⟩
  | fault {c : Char} {rest : List Char} {q length : Nat} (hc : ∀ b : Bracket, c ≠ b.closing)
      (hle : p ≤ q) (hspan : q + length = min (q + 1) (p + size (c :: rest)))
      (hread : ∀ state, (between p state).outcome (c :: rest) =
        .error ⟨if q = p then wantedAt p state.1 else .form, q, length⟩) :
      Stuck p (c :: rest) ⟨q, starters, []⟩

/-- A form is matched at the front of a text as it is read. -/
structure Formed (p : Nat) (cs : List Char) (pair : Pair) (s : State) : Prop where
  shorter : s.rest.length < cs.length
  later : p < s.position
  bytes : s.position + size s.rest = p + size cs
  attempts : s.attempts.position < s.position
  rule : pair.rule ≠ .endOfInput
  form : ∃ f : Form, pair.build = .ok f.datum ∧ ∀ state, (between p state).outcome cs =
    (between s.position (give state f)).outcome s.rest

/-- What can come of matching a form. -/
inductive Tried (p : Nat) (cs : List Char) : Outcome → Prop where
  | formed {pair : Pair} {s : State} (h : Formed p cs pair s) : Tried p cs (.matched [pair] s)
  | stuck {t : Attempts} (h : Stuck p cs t) : Tried p cs (.failed t)

/-- A form at the front of a text is matched as it is read. -/
def ReadsForm (cs : List Char) : Prop :=
  Clear cs → ∀ (p : Nat) (t : Attempts), t.Fresh p →
    ∃ o, Runs (.rule .form) .top ⟨cs, p, t⟩ o ∧ Tried p cs o

section

variable {cs : List Char} (p : Nat) (t : Attempts)

theorem runs_quote_of_ne (h : cs.head? ≠ some '\'') :
    Runs (.rule .quote) .top ⟨cs, p, t⟩ (.failed (t.note p [.quote])) :=
  Runs.failing .quote (by decide) (runs_literal_of_ne p t h).chain_failed

/-- A list in brackets of one kind. -/
def bracketed (b : Bracket) : Expr :=
  .seq (.literal b.opening) (.seq (.star (.rule .form)) (.literal b.closing))

theorem runs_bracketed_of_ne {b : Bracket} (h : cs.head? ≠ some b.opening) :
    Runs (bracketed b) .top ⟨cs, p, t⟩ (.failed t) :=
  (runs_literal_of_ne p t h).chain_failed

theorem runs_list_of_ne (h : ∀ b : Bracket, cs.head? ≠ some b.opening) :
    Runs (.rule .list) .top ⟨cs, p, t⟩ (.failed (t.note p [.list])) := by
  have hfailed : Runs Rule.list.body .top ⟨cs, p, t⟩ (.failed t) :=
    ((runs_bracketed_of_ne p t (h .round)).choice_right
      (runs_bracketed_of_ne p t (h .square))).choice_right (runs_bracketed_of_ne p t (h .curly))
  exact hfailed.failing .list (by decide)

/-- Of the three kinds of lists the one counts whose bracket is opened. -/
theorem runs_list_body {b : Bracket} {o : Outcome}
    (h : Runs (bracketed b) .top ⟨b.opening :: cs, p, t⟩ o) :
    Runs Rule.list.body .top ⟨b.opening :: cs, p, t⟩ o := by
  have hother : ∀ b' : Bracket, b.opening ≠ b'.opening → ∀ t,
      Runs (bracketed b') .top ⟨b.opening :: cs, p, t⟩ (.failed t) :=
    fun b' hne t => runs_bracketed_of_ne p t fun heq => hne (Option.some.inj heq)
  cases b with
  | round =>
    have hsquare := hother .square (by decide)
    have hcurly := hother .curly (by decide)
    cases o with
    | matched => exact h.choice.choice
    | failed t' => exact (h.choice_right (hsquare t')).choice_right (hcurly t')
  | square =>
    have hround := hother .round (by decide)
    have hcurly := hother .curly (by decide)
    have hfirst := (hround t).choice_right h
    cases o with
    | matched => exact hfirst.choice
    | failed t' => exact hfirst.choice_right (hcurly t')
  | curly =>
    have hround := hother .round (by decide)
    have hsquare := hother .square (by decide)
    exact ((hround t).choice_right (hsquare t)).choice_right h

/-- What begins neither with a quote mark nor with a bracket is tried as an atom. -/
theorem runs_form_of_ne (hquote : cs.head? ≠ some '\'')
    (hopening : ∀ b : Bracket, cs.head? ≠ some b.opening) (hfresh : t.Fresh p) {o : Outcome}
    (h : Runs (.rule .atom) .top ⟨cs, p, ⟨p, [.quote, .list], []⟩⟩ o) :
    Runs (.rule .form) .top ⟨cs, p, t⟩ o := by
  have hfirst := runs_quote_of_ne p t hquote
  have hsecond := runs_list_of_ne p ⟨p, [.quote], []⟩ hopening
  rw [hfresh.note] at hfirst
  rw [Attempts.note_at] at hsecond
  exact .silent rfl ((hfirst.choice_right hsecond).choice_right h)

end

/-- Where no form begins, all that can begin one is tried. -/
theorem runs_form_of_none {cs : List Char} (hends : Ends cs) (hstring : cs.head? ≠ some '"')
    (hquote : cs.head? ≠ some '\'') (hopening : ∀ b : Bracket, cs.head? ≠ some b.opening) {p : Nat}
    {t : Attempts} (hfresh : t.Fresh p) :
    Runs (.rule .form) .top ⟨cs, p, t⟩ (.failed ⟨p, starters, []⟩) := by
  have hatom := runs_atom_of_ends p ⟨p, [.quote, .list], []⟩ hends hstring
  rw [Attempts.note_at] at hatom
  exact runs_form_of_ne p t hquote hopening hfresh hatom

theorem readsForm_nil : ReadsForm [] := by
  intro _ p t hfresh
  have hends : Ends [] := fun _ h => nomatch h
  exact ⟨_, runs_form_of_none hends nofun nofun (fun _ => nofun) hfresh, .stuck .finished⟩

theorem readsForm_closing (b : Bracket) (cs : List Char) : ReadsForm (b.closing :: cs) := by
  intro _ p t hfresh
  have hends := ends_cons (isDelimiter_closing b) cs
  have hne : b.closing ≠ '"' ∧ b.closing ≠ '\'' ∧ ∀ b' : Bracket, b.closing ≠ b'.opening := by
    refine ⟨?_, ?_, fun b' => ?_⟩
    · cases b <;> decide
    · cases b <;> decide
    · cases b <;> cases b' <;> decide
  exact ⟨_, runs_form_of_none hends (head?_cons_ne hne.1 cs) (head?_cons_ne hne.2.1 cs)
    (fun b' => head?_cons_ne (hne.2.2 b') cs) hfresh, .stuck (.closing b cs)⟩

theorem size_pos {cs : List Char} (h : cs ≠ []) : 0 < size cs := by
  cases cs with
  | nil => exact absurd rfl h
  | cons c cs =>
    rw [size_cons]
    exact Nat.add_pos_left c.utf8Size_pos _

/-- An atom is matched as it is read. -/
theorem readsForm_atom {ds rest : List Char} (hds : IsAtom ds) (hrest : Ends rest) :
    ReadsForm (ds ++ rest) := by
  intro _ p t hfresh
  obtain ⟨rule, more, hatom, hrule, hbuild⟩ := runs_atom hds hrest p [.quote, .list]
  have hform := runs_form_of_ne p t (hds.head?_ne rfl rest)
    (fun b => hds.head?_ne (isDelimiter_opening b) rest) hfresh hatom
  have hpos := size_pos hds.1
  refine ⟨_, hform, .formed ⟨?_, ?_, ?_, ?_, hrule, Form.ofAtom ds, hbuild, ?_⟩⟩
  · simpa [List.length_pos_iff] using hds.1
  · exact Nat.lt_add_of_pos_right hpos
  · rw [size_append, Nat.add_assoc]
  · exact Nat.lt_add_of_pos_right hpos
  · exact fun state => outcome_run hds.1 hds.2 hrest p state

/-- A string is matched as it is read. -/
theorem readsForm_string (cs : List Char) : ReadsForm ('"' :: cs) := by
  intro _ p t hfresh
  obtain ⟨body, rest, rfl, hpieces⟩ := exists_repeated (L := Piece) Piece.ne_nil cs
  have hbody := stringBody_of_repeated hpieces
  have hends : Ends ('"' :: (body ++ rest)) := ends_cons rfl _
  have hopening : ∀ b : Bracket, '"' ≠ b.opening := fun b => by cases b <;> decide
  have hfloat := runs_float_of_not_starts p ⟨p, [.quote, .list], []⟩
    (hends.not_starts fun ds => isAtom_decimal)
  have hinteger := runs_integer_of_not_starts p ⟨p, [.quote, .list, .float], []⟩
    (hends.not_starts fun ds ⟨_, hn⟩ => isAtom_whole hn)
  rw [Attempts.note_at] at hfloat hinteger
  have hnumbers := hfloat.choice_right hinteger
  have hatom : ∀ {o}, _ → Runs (.rule .form) .top ⟨'"' :: (body ++ rest), p, t⟩ o :=
    runs_form_of_ne p t (head?_cons_ne (by decide) _) (fun b => head?_cons_ne (hopening b) _) hfresh
  by_cases hquote : rest.head? = some '"'
  · obtain ⟨rest, rfl⟩ := List.head?_eq_some_iff.1 hquote
    refine ⟨_, hatom (.silent rfl (hnumbers.choice_right (runs_string hpieces p _)).choice),
      .formed ⟨?_, ?_, ?_, ?_, nofun, ?_⟩⟩
    · simp only [List.length_cons, List.length_append]
      omega
    · simp only
      omega
    · have hone : '"'.utf8Size = 1 := rfl
      simp only [size_cons, size_append]
      omega
    · simp only
      omega
    · exact ⟨.str (String.ofList (unescape body)), by simp [Pair.build, Form.datum],
        fun state => hbody.outcome p state rest⟩
  · have hstring := runs_string_of_unclosed hpieces hquote p
      ⟨p, [.quote, .list, .float, .integer], []⟩
    have hsymbol := runs_symbol_of_not_starts p ⟨p, [.quote, .list, .float, .integer, .string], []⟩
      (hends.not_starts fun ds => id)
    rw [Attempts.note_at] at hstring hsymbol
    have hspan : p + 1 = min (p + 1) (p + size ('"' :: (body ++ rest))) := by
      have hsize := size_pos (List.cons_ne_nil '"' (body ++ rest))
      exact (Nat.min_eq_left (Nat.add_le_add_left hsize p)).symm
    refine ⟨_, hatom (.silent rfl ((hnumbers.choice_right hstring).choice_right hsymbol)),
      .stuck (.fault (fun b => by cases b <;> decide) (Nat.le_refl p) hspan fun state => ?_)⟩
    rw [outcome_unclosed hbody hpieces.not_starts hquote, if_pos rfl]

/-! ### Forms inside forms -/

theorem step_closing_of_none {b : Bracket} {offset : Nat} {state : List Pending × List Form}
    (h : (between offset state).close? b = none) :
    (between offset state).step b.closing = .error ⟨wantedAt offset state.1, offset, 1⟩ := by
  have hblank : Text.isBlank b.closing = false := by cases b <;> rfl
  have hmarks : b.closing ≠ ';' ∧ b.closing ≠ '"' ∧ b.closing ≠ '\'' := by cases b <;> decide
  have hopening : Bracket.ofOpening? b.closing = none := by cases b <;> rfl
  have hclosing : Bracket.ofClosing? b.closing = some b := by cases b <;> rfl
  have hmode : (between offset state).stepMode b.closing =
      .error ⟨wantedAt offset state.1, offset, 1⟩ := by
    show (between offset state).stepGap b.closing = _
    simp only [stepGap, hblank, hmarks, hopening, hclosing, h, if_false, Bool.false_eq_true]
    rfl
  rw [step, hmode]

theorem Stuck.le {p : Nat} {cs : List Char} {t : Attempts} (h : Stuck p cs t) : p ≤ t.position := by
  cases h with
  | finished => exact Nat.le_refl p
  | closing => exact Nat.le_refl p
  | fault _ hle => exact hle

theorem Stuck.position_of_closing {p : Nat} {cs : List Char} {t : Attempts} (h : Stuck p cs t)
    {b : Bracket} (hclosing : cs.head? = some b.closing) : t.position = p := by
  cases h with
  | finished => rfl
  | closing => rfl
  | fault hc => exact absurd (Option.some.inj hclosing) (hc b)

/-- Where a form is missing inside of another one, reading fails. -/
theorem Stuck.outcome_pending {p : Nat} {cs : List Char} {t : Attempts} (h : Stuck p cs t)
    (hp : 0 < p) :
    ∃ q length, t = ⟨q, starters, []⟩ ∧ p ≤ q ∧ q + length = min (q + 1) (p + size cs) ∧
      ∀ pending more forms, (∀ b items, pending = .list b items → cs.head? ≠ some b.closing) →
        (between p (pending :: more, forms)).outcome cs = .error ⟨.form, q, length⟩ := by
  have hwanted : ∀ pending more, wantedAt p (pending :: more) = .form :=
    fun pending more => by simp [wantedAt, Nat.ne_of_gt hp]
  cases h with
  | finished =>
    refine ⟨p, 0, rfl, Nat.le_refl p, by simp, fun pending more forms _ => ?_⟩
    rw [← hwanted pending more]
    rfl
  | closing b rest =>
    refine ⟨p, 1, rfl, Nat.le_refl p, ?_, fun pending more forms hclosing => ?_⟩
    · have hsize := size_pos (List.cons_ne_nil b.closing rest)
      exact (Nat.min_eq_left (Nat.add_le_add_left hsize p)).symm
    · have hclose : (between p (pending :: more, forms)).close? b = none := by
        cases pending with
        | quoted => rfl
        | list opened items =>
          have hne : opened ≠ b := fun heq => hclosing opened items rfl (heq ▸ rfl)
          simp [close?, between, hne]
      rw [outcome_of_step_error (step_closing_of_none hclose), hwanted]
  | @fault c rest q length hc hle hspan hread =>
    refine ⟨q, length, rfl, hle, hspan, fun pending more forms _ => ?_⟩
    rw [hread, hwanted, ite_self]

/-- Forms in a row are matched as they are read. -/
structure Items (p : Nat) (cs : List Char) (pairs : List Pair) (s : State) : Prop where
  shorter : s.rest.length ≤ cs.length
  later : p ≤ s.position
  bytes : s.position + size s.rest = p + size cs
  rules : ∀ pair ∈ pairs, pair.rule ≠ .endOfInput
  forms : ∃ fs : List Form, Pair.buildAll pairs = .ok (fs.map Form.datum) ∧
    ∀ state, (between p state).outcome cs =
      (between s.position (fs.foldl give state)).outcome s.rest

theorem Items.nil (s : State) : Items s.position s.rest [] s :=
  ⟨Nat.le_refl _, Nat.le_refl _, rfl, nofun, [], rfl, fun _ => rfl⟩

theorem Items.cons {p : Nat} {cs : List Char} {pair : Pair} {pairs : List Pair} {s u : State}
    (hfirst : Formed p cs pair s) (h : Items s.position s.rest pairs u) :
    Items p cs (pair :: pairs) u := by
  have hlater := hfirst.later
  have hshorter := hfirst.shorter
  obtain ⟨f, hbuild, hread⟩ := hfirst.form
  obtain ⟨fs, hbuilds, hreads⟩ := h.forms
  refine ⟨Nat.le_trans h.shorter (by omega), Nat.le_trans (by omega) h.later,
    h.bytes.trans hfirst.bytes, List.forall_mem_cons.2 ⟨hfirst.rule, h.rules⟩, f :: fs, ?_, ?_⟩
  · rw [Pair.buildAll, hbuild, hbuilds]
    rfl
  · intro state
    rw [hread, hreads]
    rfl

/-- A gap before forms is passed over. -/
theorem Items.afterGap {p : Nat} {gap cs : List Char} {pairs : List Pair} {s : State}
    (hgap : Skipped gap cs) (h : Items (p + size gap) cs pairs s) : Items p (gap ++ cs) pairs s := by
  have hlater := h.later
  have hshorter := h.shorter
  obtain ⟨fs, hbuilds, hreads⟩ := h.forms
  refine ⟨?_, by omega, ?_, h.rules, fs, hbuilds, fun state => (hgap.outcome p state).trans (hreads _)⟩
  · rw [List.length_append]
    omega
  · rw [h.bytes, size_append, Nat.add_assoc]

/-- A gap behind forms is passed over. -/
theorem Items.beforeGap {p : Nat} {cs gap rest : List Char} {pairs : List Pair} {q : Nat}
    {t : Attempts} (h : Items p cs pairs ⟨gap ++ rest, q, t⟩) (hgap : Skipped gap rest) :
    Items p cs pairs ⟨rest, q + size gap, t⟩ := by
  have hlater := h.later
  have hshorter := h.shorter
  have hbytes := h.bytes
  obtain ⟨fs, hbuilds, hreads⟩ := h.forms
  simp only [List.length_append, size_append] at hlater hshorter hbytes
  refine ⟨?_, ?_, ?_, h.rules, fs, hbuilds, fun state => (hreads state).trans (hgap.outcome q _)⟩
  all_goals
    simp only
    omega

/-- If forms are matched as they are read, so are forms in a row, up to where none is matched. -/
theorem runs_items (cs : List Char) (hforms : ∀ ds : List Char, ds.length ≤ cs.length → ReadsForm ds)
    (p : Nat) (t : Attempts) (hfresh : t.Fresh p) :
    ∃ pairs gap rest q t', Runs (.many (.skipping (.rule .form))) .top ⟨cs, p, t⟩
        (.matched pairs ⟨gap ++ rest, q, t'⟩) ∧
      Items p cs pairs ⟨gap ++ rest, q, t'⟩ ∧ Skipped gap rest ∧ Stuck (q + size gap) rest t' := by
  induction hn : cs.length using Nat.strongRecOn generalizing cs p t with
  | _ n ih =>
    obtain ⟨gap, rest, rfl, hgap⟩ := exists_skipped cs
    have hlength : rest.length ≤ (gap ++ rest).length := by simp
    obtain ⟨o, hrun, htried⟩ := hforms rest hlength hgap.clear (p + size gap) t
      (hfresh.mono (Nat.le_add_right p _))
    have hrun := hrun.afterSkipped hgap
    cases htried with
    | @stuck t' hstuck =>
      exact ⟨[], gap, rest, p, t', hrun.many_failed, .nil ⟨gap ++ rest, p, t'⟩, hgap, hstuck⟩
    | @formed pair u hformed =>
      have hshorter : u.rest.length < n := Nat.lt_of_lt_of_le hformed.shorter (hn ▸ hlength)
      obtain ⟨pairs, gap', rest', q, t', hmore, hitems, htail⟩ := ih u.rest.length hshorter u.rest
        (fun ds hds => hforms ds (by omega)) u.position u.attempts (.inl hformed.attempts) rfl
      exact ⟨pair :: pairs, gap', rest', q, t', hrun.many hmore,
        .afterGap hgap (.cons hformed hitems), htail⟩

/-- The same for forms in a row that may be missing. -/
theorem runs_star_items {cs : List Char} (hclear : Clear cs)
    (hforms : ∀ ds : List Char, ds.length ≤ cs.length → ReadsForm ds) (p : Nat) (t : Attempts)
    (hfresh : t.Fresh p) :
    ∃ pairs gap rest q t', Runs (.star (.rule .form)) .top ⟨cs, p, t⟩
        (.matched pairs ⟨gap ++ rest, q, t'⟩) ∧
      Items p cs pairs ⟨gap ++ rest, q, t'⟩ ∧ Skipped gap rest ∧ Stuck (q + size gap) rest t' := by
  obtain ⟨o, hrun, htried⟩ := hforms cs (Nat.le_refl _) hclear p t hfresh
  cases htried with
  | @stuck t' hstuck =>
    exact ⟨[], [], cs, p, t', hrun.chain_failed.optional_failed, .nil ⟨cs, p, t'⟩, hclear.skipped,
      hstuck⟩
  | @formed pair u hformed =>
    obtain ⟨pairs, gap, rest, q, t', hmore, hitems, htail⟩ := runs_items u.rest
      (fun ds hds => hforms ds (Nat.le_trans hds (Nat.le_of_lt hformed.shorter))) u.position
      u.attempts (.inl hformed.attempts)
    exact ⟨pair :: pairs, gap, rest, q, t', (hrun.chain hmore).optional, .cons hformed hitems, htail⟩

/-- Forms in a row and what follows them are matched one after the other. -/
theorem runs_items_then (cs : List Char)
    (hforms : ∀ ds : List Char, ds.length ≤ cs.length → ReadsForm ds) (p : Nat) (t : Attempts)
    (hfresh : t.Fresh p) :
    ∃ pairs s, Items p cs pairs s ∧ Stuck s.position s.rest s.attempts ∧
      (∀ e more u, Runs e .top s (.matched more u) →
        Runs (.skipping (.seq (.star (.rule .form)) e)) .top ⟨cs, p, t⟩
          (.matched (pairs ++ more) u)) ∧
      (∀ e u, Runs e .top s (.failed u) →
        Runs (.skipping (.seq (.star (.rule .form)) e)) .top ⟨cs, p, t⟩ (.failed u)) := by
  obtain ⟨gap, inner, rfl, hgap⟩ := exists_skipped cs
  obtain ⟨pairs, gap', rest, q, t', hstar, hitems, hgap', hstuck⟩ := runs_star_items hgap.clear
    (fun ds hds => hforms ds (Nat.le_trans hds (by simp))) (p + size gap) t
    (hfresh.mono (Nat.le_add_right p _))
  refine ⟨pairs, ⟨rest, q + size gap', t'⟩, (hitems.beforeGap hgap').afterGap hgap, hstuck, ?_, ?_⟩
  · intro e more u h
    exact (hstar.chain (h.afterSkipped hgap')).afterSkipped hgap
  · intro e u h
    exact (hstar.chain_failed_right (h.afterSkipped hgap')).afterSkipped hgap

/-- A form that fails inside fails as a whole. -/
theorem runs_form_of_failed_later {cs : List Char} {p : Nat} {t t' : Attempts} (hends : Ends cs)
    (hstring : cs.head? ≠ some '"')
    (h : Runs (.choice (.rule .quote) (.rule .list)) .top ⟨cs, p, t⟩ (.failed t'))
    (hlt : p < t'.position) : Runs (.rule .form) .top ⟨cs, p, t⟩ (.failed t') := by
  have hatom := runs_atom_of_ends p t' hends hstring
  rw [Attempts.note_of_lt hlt] at hatom
  exact .silent rfl (h.choice_right hatom)

/-- Where no form is matched inside of a form, that form is not matched either. -/
theorem Stuck.outside {p p' : Nat} {c : Char} {cs rest : List Char} {t : Attempts}
    (h : Stuck p' rest t) (hlt : p < p') (hc : ∀ b : Bracket, c ≠ b.closing)
    (hbytes : p' + size rest = p + size (c :: cs))
    (hopen : ∀ state, ∃ pending more forms,
      (∀ b items, pending = .list b items → rest.head? ≠ some b.closing) ∧
      (between p state).outcome (c :: cs) = (between p' (pending :: more, forms)).outcome rest) :
    Stuck p (c :: cs) t := by
  obtain ⟨q, length, rfl, hle, hspan, hread⟩ := h.outcome_pending (by omega)
  rw [hbytes] at hspan
  refine .fault hc (by omega) hspan fun state => ?_
  obtain ⟨pending, more, forms, hclosing, hstate⟩ := hopen state
  rw [hstate, hread pending more forms hclosing, if_neg (by omega)]

/-- A quotation is matched as it is read. -/
theorem readsForm_quote (cs : List Char)
    (hforms : ∀ ds : List Char, ds.length ≤ cs.length → ReadsForm ds) : ReadsForm ('\'' :: cs) := by
  intro _ p t hfresh
  obtain ⟨gap, rest, rfl, hgap⟩ := exists_skipped cs
  have hfresh' : t.Fresh (p + 1 + size gap) := hfresh.mono (by omega)
  obtain ⟨o, hrun, htried⟩ := hforms rest (by simp) hgap.clear (p + 1 + size gap) t hfresh'
  have hrun := hrun.afterSkipped hgap
  have hmark : Runs (.literal '\'') .top ⟨'\'' :: (gap ++ rest), p, t⟩
      (.matched [] ⟨gap ++ rest, p + 1, t⟩) := runs_literal p t '\'' _
  -- After the mark, a form is read with the quotation open.
  have hopen : ∀ state : List Pending × List Form, (between p state).outcome ('\'' :: (gap ++ rest)) =
      (between (p + 1 + size gap) (.quoted :: state.1, state.2)).outcome rest := fun state => by
    rw [outcome_of_step (step_quote p state), hgap.outcome]
  have hbytes : p + 1 + size gap + size rest = p + size ('\'' :: (gap ++ rest)) := by
    rw [size_cons, size_append, ← Nat.add_assoc, ← Nat.add_assoc]
    rfl
  cases htried with
  | @formed pair u hformed =>
    have hquote : Runs (.rule .quote) .top ⟨'\'' :: (gap ++ rest), p, t⟩ _ :=
      (hmark.chain hrun).pair .quote (by decide)
    obtain ⟨f, hbuild, hread⟩ := hformed.form
    refine ⟨_, .silent rfl hquote.choice.choice, .formed ⟨?_, ?_, ?_, hformed.attempts, nofun,
      f.quoted, ?_, fun state => ?_⟩⟩
    · have hshorter := hformed.shorter
      simp only [List.length_cons, List.length_append]
      omega
    · have hlater := hformed.later
      omega
    · exact hformed.bytes.trans hbytes
    · simp [Pair.build, hbuild, Form.quoted, Form.datum, Except.map]
    · rw [hopen, hread]
      rfl
  | @stuck t' hstuck =>
    have hlt : p < t'.position := Nat.lt_of_lt_of_le (by omega) hstuck.le
    have hquote : Runs (.rule .quote) .top ⟨'\'' :: (gap ++ rest), p, t⟩ (.failed t') :=
      (hmark.chain_failed_right hrun).failing_later .quote (by decide) hlt
    have hlist : Runs (.rule .list) .top ⟨'\'' :: (gap ++ rest), p, t'⟩ _ :=
      runs_list_of_ne p t' fun b => head?_cons_ne (by cases b <;> decide) _
    rw [Attempts.note_of_lt hlt] at hlist
    refine ⟨_, runs_form_of_failed_later (ends_cons rfl _) (head?_cons_ne (by decide) _)
      (hquote.choice_right hlist) hlt, .stuck ?_⟩
    refine hstuck.outside (by omega) (fun b => by cases b <;> decide) hbytes fun state => ?_
    exact ⟨.quoted, _, _, (fun _ _ h => by cases h), hopen state⟩

theorem utf8Size_opening (b : Bracket) : b.opening.utf8Size = 1 := by cases b <;> rfl

theorem utf8Size_closing (b : Bracket) : b.closing.utf8Size = 1 := by cases b <;> rfl

/-- A list is matched as it is read. -/
theorem readsForm_list (b : Bracket) (cs : List Char)
    (hforms : ∀ ds : List Char, ds.length ≤ cs.length → ReadsForm ds) :
    ReadsForm (b.opening :: cs) := by
  intro _ p t hfresh
  have hne : b.opening ≠ '\'' := by cases b <;> decide
  have hquote := runs_quote_of_ne p t (head?_cons_ne hne cs)
  rw [hfresh.note] at hquote
  have hopening : Runs (.literal b.opening) .top ⟨b.opening :: cs, p, ⟨p, [.quote], []⟩⟩ _ :=
    runs_literal p _ b.opening cs
  rw [utf8Size_opening] at hopening
  obtain ⟨pairs, s, hitems, hstuck, hmatched, hfailed⟩ := runs_items_then cs hforms (p + 1)
    ⟨p, [.quote], []⟩ (.inl (Nat.lt_succ_self p))
  obtain ⟨fs, hbuild, hread⟩ := hitems.forms
  have hlater := hitems.later
  have hbytes : s.position + size s.rest = p + size (b.opening :: cs) := by
    rw [hitems.bytes, size_cons, utf8Size_opening, Nat.add_assoc]
  -- After the bracket, the items are read with the list open.
  have hopen : ∀ state : List Pending × List Form, (between p state).outcome (b.opening :: cs) =
      (between s.position (.list b fs.reverse :: state.1, state.2)).outcome s.rest := fun state => by
    rw [outcome_of_step (step_opening p state b), hread, foldl_give_list, List.append_nil]
  by_cases hclosing : s.rest.head? = some b.closing
  · have hposition := hstuck.position_of_closing hclosing
    have hshorter := hitems.shorter
    obtain ⟨rest, q, u⟩ := s
    obtain ⟨rest, rfl⟩ := List.head?_eq_some_iff.1 hclosing
    have hend : Runs (.literal b.closing) .top ⟨b.closing :: rest, q, u⟩ _ :=
      runs_literal q u b.closing rest
    rw [utf8Size_closing] at hend
    have hlist : Runs (.rule .list) .top ⟨b.opening :: cs, p, ⟨p, [.quote], []⟩⟩ _ :=
      (runs_list_body p _ (hopening.chain (hmatched _ _ _ hend))).pair .list (by decide)
    refine ⟨_, .silent rfl (hquote.choice_right hlist).choice, .formed ⟨?_, ?_, ?_, ?_, nofun,
      .list fs, ?_, fun state => ?_⟩⟩
    · simp only [List.length_cons] at hshorter ⊢
      omega
    · simp only at hlater ⊢
      omega
    · rw [← hbytes, size_cons, utf8Size_closing, Nat.add_assoc]
    · simp only at hposition ⊢
      omega
    · simp [Pair.build, hbuild, Form.datum, Except.map]
    · rw [hopen, outcome_of_step (step_closing q state b _), List.reverse_reverse]
  · have hlt : p < s.attempts.position := Nat.lt_of_lt_of_le (by omega) hstuck.le
    have hbody := runs_list_body p _ (hopening.chain_failed_right
      (hfailed _ _ (runs_literal_of_ne s.position s.attempts hclosing)))
    have hlist : Runs (.rule .list) .top ⟨b.opening :: cs, p, ⟨p, [.quote], []⟩⟩ _ :=
      hbody.failing_later .list (by decide) hlt
    refine ⟨_, runs_form_of_failed_later (ends_cons (isDelimiter_opening b) cs)
      (head?_cons_ne (by cases b <;> decide) cs) (hquote.choice_right hlist) hlt,
      .stuck ?_⟩
    refine hstuck.outside (by omega) (fun b' => by cases b <;> cases b' <;> decide) hbytes
      fun state => ⟨.list b fs.reverse, _, _, ?_, hopen state⟩
    rintro _ _ ⟨⟩
    exact hclosing

theorem exists_isAtom {c : Char} (hc : isDelimiter c = false) (cs : List Char) :
    ∃ ds rest, c :: cs = ds ++ rest ∧ IsAtom ds ∧ Ends rest := by
  obtain ⟨ds, rest, heq, hds⟩ := exists_repeated (L := Single fun c => !isDelimiter c) Single.ne_nil
    (c :: cs)
  obtain ⟨hds, hrest⟩ := repeated_single.1 hds
  refine ⟨ds, rest, heq, ⟨?_, by simpa using hds⟩, by simpa [Ends] using hrest⟩
  rintro rfl
  cases heq
  simp [hc] at hrest

/-- A form at the front of any text is matched as it is read. -/
theorem readsForm (cs : List Char) : ReadsForm cs := by
  induction hn : cs.length using Nat.strongRecOn generalizing cs with
  | _ n ih =>
    cases cs with
    | nil => exact readsForm_nil
    | cons c cs =>
      have hforms : ∀ ds : List Char, ds.length ≤ cs.length → ReadsForm ds :=
        fun ds hds => ih ds.length (by rw [← hn]; exact Nat.lt_succ_of_le hds) ds rfl
      intro hclear
      obtain ⟨hblank, hsemicolon⟩ := hclear c rfl
      revert hclear
      by_cases hc : isDelimiter c = false
      · obtain ⟨ds, rest, heq, hds, hrest⟩ := exists_isAtom hc cs
        exact heq ▸ readsForm_atom hds hrest
      have hcases : (∃ b, Bracket.ofOpening? c = some b) ∨ (∃ b, Bracket.ofClosing? c = some b) ∨
          c = '"' ∨ c = '\'' := by
        rw [Bool.not_eq_false] at hc
        simpa [isDelimiter, hblank, hsemicolon, Option.isSome_iff_exists, or_assoc] using hc
      rcases hcases with ⟨b, hb⟩ | ⟨b, hb⟩ | rfl | rfl
      · exact Bracket.opening_of_eq hb ▸ readsForm_list b cs hforms
      · exact Bracket.closing_of_eq hb ▸ readsForm_closing b cs
      · exact readsForm_string cs
      · exact readsForm_quote cs hforms

/-! ### Whole texts -/

/-- The error of a failure to read. -/
def SyntaxError.ofFault (fault : Fault) : SyntaxError :=
  ⟨fault.wanted.text, fault.offset, fault.offset + fault.length⟩

/-- What reading gives, as a result of the grammar. -/
def ofReading : Except Fault (List Form) → Except SyntaxError (List Datum)
  | .ok forms => .ok (forms.map Form.datum)
  | .error fault => .error (.ofFault fault)

theorem message_starters (p : Nat) : Attempts.message ⟨p, starters, []⟩ = Wanted.form.text := by
  change Attempts.message ⟨0, starters, []⟩ = _
  decide +kernel

theorem message_starters_end (p : Nat) :
    Attempts.message ⟨p, starters ++ [.endOfInput], []⟩ = Wanted.formOrEnd.text := by
  change Attempts.message ⟨0, starters ++ [.endOfInput], []⟩ = _
  decide +kernel

theorem message_program (p : Nat) : Attempts.message ⟨p, [.program], []⟩ = Wanted.program.text := by
  change Attempts.message ⟨0, [.program], []⟩ = _
  decide +kernel

theorem error_eq {p length total : Nat} (hspan : p + length = min (p + 1) total)
    (expected unexpected : List Rule) :
    Attempts.error ⟨p, expected, unexpected⟩ total =
      ⟨Attempts.message ⟨p, expected, unexpected⟩, p, p + length⟩ := by
  rw [Attempts.error, ← hspan, Nat.min_eq_left (Nat.le_add_right p length)]

/-- The error where neither a form nor the end of the text is found. -/
theorem error_program {p length total : Nat} (hspan : p + length = min (p + 1) total) :
    (Attempts.track ⟨p, starters ++ [.endOfInput], []⟩ .none 0 .program false).error total =
      .ofFault ⟨wantedAt p [], p, length⟩ := by
  cases p with
  | zero =>
    have htrack : Attempts.track ⟨0, starters ++ [.endOfInput], []⟩ .none 0 .program false =
        ⟨0, [.program], []⟩ := by decide
    rw [htrack, error_eq hspan, message_program]
    rfl
  | succ p =>
    rw [Attempts.track_of_lt (Nat.succ_pos p), error_eq hspan, message_starters_end]
    rfl

/-- Where a form is missing outside of any other, matching and reading fail with the same error. -/
theorem Stuck.error_program {p : Nat} {c : Char} {cs : List Char} {t : Attempts}
    (h : Stuck p (c :: cs) t) :
    ∃ fault, (∀ forms, (between p ([], forms)).outcome (c :: cs) = .error fault) ∧
      ((t.note p [.endOfInput]).track .none 0 .program false).error (p + size (c :: cs)) =
        .ofFault fault := by
  generalize hcs : c :: cs = text at h
  cases h with
  | finished => cases hcs
  | closing b rest =>
    have hsize := size_pos (List.cons_ne_nil b.closing rest)
    refine ⟨⟨wantedAt p [], p, 1⟩, fun forms => outcome_of_step_error (step_closing_of_none rfl) rest, ?_⟩
    rw [Attempts.note_at]
    exact Peg.error_program (Nat.min_eq_left (Nat.add_le_add_left hsize p)).symm
  | @fault _ _ q length _ hle hspan hread =>
    refine ⟨⟨if q = p then wantedAt p [] else .form, q, length⟩, fun forms => hread ([], forms), ?_⟩
    by_cases hq : q = p
    · subst hq
      rw [Attempts.note_at, if_pos rfl]
      exact Peg.error_program hspan
    · have hlt : p < q := by omega
      rw [Attempts.note_of_lt hlt, Attempts.track_of_lt (Nat.zero_lt_of_lt hlt), error_eq hspan,
        message_starters, if_neg hq]
      rfl

theorem runs_endOfInput (p : Nat) (t : Attempts) :
    Runs (.rule .endOfInput) .top ⟨[], p, t⟩
      (.matched [.node .endOfInput p [] []] ⟨[], p, t⟩) :=
  Runs.pair .endOfInput (by decide) (Recognises.finish.matched ⟨rfl, rfl⟩ p t)

theorem runs_endOfInput_cons (c : Char) (cs : List Char) (p : Nat) (t : Attempts) :
    Runs (.rule .endOfInput) .top ⟨c :: cs, p, t⟩
      (.failed (t.note p [.endOfInput])) := by
  refine .failing .endOfInput (by decide) (Recognises.finish.failed ?_ p t)
  rintro _ _ heq ⟨rfl, rfl⟩
  cases heq

/-- A text is read by the grammar as it is read character by character. -/
theorem read_eq (source : String) :
    ∃ bound, ∀ fuel ≥ bound, read fuel source = some (ofReading (Form.read source)) := by
  obtain ⟨pairs, s, hitems, hstuck, hmatched, hfailed⟩ :=
    runs_items_then source.toList (fun ds _ => readsForm ds) 0 .none (.inr rfl)
  obtain ⟨fs, hbuild, hread⟩ := hitems.forms
  have hstart : Runs .start .top (.start source.toList) (.matched [] (.start source.toList)) :=
    runs_start rfl
  have hform : Form.read source = (between s.position ([], fs.reverse)).outcome s.rest := by
    have hitems := hread ([], [])
    rw [foldl_give_top, List.append_nil] at hitems
    exact hitems
  have htotal : source.utf8ByteSize = s.position + size s.rest := by
    rw [hitems.bytes, size, String.ofList_toList, Nat.zero_add]
  obtain ⟨rest, q, t⟩ := s
  cases rest with
  | nil =>
    obtain ⟨bound, hprogram⟩ :=
      (hstart.chain (hmatched _ _ _ (runs_endOfInput q t))).pair .program (by decide)
    have hkept : pairs.filter (fun pair => pair.rule ≠ .endOfInput) = pairs :=
      List.filter_eq_self.2 fun pair hpair => decide_eq_true (hitems.rules pair hpair)
    -- Without the pair of the end, the pairs inside are those of the forms.
    have hforms : Pair.buildAll ((pairs ++ [Pair.node .endOfInput q [] []]).filter
        fun pair => pair.rule ≠ .endOfInput) = .ok (fs.map Form.datum) := by
      rw [List.filter_append, hkept, ← hbuild]
      exact congrArg Pair.buildAll (List.append_nil pairs)
    have hfinish : Form.read source = .ok fs :=
      hform.trans (congrArg Except.ok (List.reverse_reverse fs))
    refine ⟨bound, fun fuel hfuel => ?_⟩
    rw [read, hprogram fuel hfuel, hfinish]
    exact congrArg some hforms
  | cons c rest =>
    obtain ⟨fault, hfault, herror⟩ := hstuck.error_program
    obtain ⟨bound, hprogram⟩ := (hstart.chain_failed_right
      (hfailed _ _ (runs_endOfInput_cons c rest q t))).failing .program (by decide)
    rw [← htotal] at herror
    refine ⟨bound, fun fuel hfuel => ?_⟩
    rw [read, hprogram fuel hfuel, hform, hfault]
    exact congrArg (fun e => some (Except.error e)) herror

end Peg

end ConfinedLisp
