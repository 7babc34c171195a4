import ConfinedLisp.Proofs.Grammar

/-!
# Reading accepts exactly the grammar

Whatever has been read is laid out, up to the quote marks, lists and atoms that are open. So reading
finds the forms of a text exactly if the text is a layout of them.

## Main definitions

- `Reading.Open`: the texts that leave given quote marks and lists open.
- `Reading.Consumed`: the text that leads to a state of reading.

## Main results

- `Reading.Consumed.step`, `Reading.Consumed.run`: what has been read is laid out up to what is
  open.
- `Grammar.read_iff_program`: reading accepts exactly the grammar.
-/

namespace ConfinedLisp

namespace Bracket

theorem opening_of_eq {c : Char} {b : Bracket} (h : ofOpening? c = some b) : c = b.opening := by
  grind [ofOpening?, opening]

theorem closing_of_eq {c : Char} {b : Bracket} (h : ofClosing? c = some b) : c = b.closing := by
  grind [ofClosing?, closing]

end Bracket

/-! ### Putting layouts together -/

namespace Grammar

open Reading

theorem isDelimiter_of_isDigit {c : Char} (h : Integer.isDigit c = true) :
    isDelimiter c = false := by
  have hlow : 48 ≤ c.toNat ∧ c.toNat ≤ 57 := by
    simp only [Integer.isDigit, Bool.and_eq_true, decide_eq_true_eq] at h
    exact h
  have hblank : Text.isBlank c = false := by
    rw [Text.isBlank, List.any_eq_false]
    intro range hrange
    have houtside : ∀ range ∈ Text.blankRanges, range.2 < 48 ∨ 57 < range.1 := by decide
    have hapart := houtside range hrange
    simp only [Bool.and_eq_true, decide_eq_true_eq]
    omega
  have hopening : Bracket.ofOpening? c = none := by
    cases hb : Bracket.ofOpening? c with
    | none => rfl
    | some b =>
      rw [Bracket.opening_of_eq hb] at h
      cases b <;> exact absurd h (by decide)
  have hclosing : Bracket.ofClosing? c = none := by
    cases hb : Bracket.ofClosing? c with
    | none => rfl
    | some b =>
      rw [Bracket.closing_of_eq hb] at h
      cases b <;> exact absurd h (by decide)
  have hmarks : c ≠ '"' ∧ c ≠ ';' ∧ c ≠ '\'' := by
    refine ⟨?_, ?_, ?_⟩ <;> rintro rfl <;> exact absurd h (by decide)
  simp [isDelimiter, hblank, hopening, hclosing, hmarks]

theorem Gap.append {gap gap' : List Char} (h : Gap gap) (h' : Gap gap') : Gap (gap ++ gap') := by
  induction h with
  | nil => exact h'
  | blank hc _ ih => exact .blank hc ih
  | comment hcomment hc _ ih =>
    rw [List.append_assoc]
    exact .comment hcomment hc ih

/-- A gap begins with a delimiter. -/
theorem Gap.isDelimiter_head {gap : List Char} (h : Gap gap) :
    ∀ c ∈ gap.head?, isDelimiter c = true := by
  cases h with
  | nil => exact fun c hc => by cases hc
  | blank hc =>
    rintro c ⟨⟩
    simp [isDelimiter, hc]
  | comment hcomment =>
    obtain ⟨body, rfl, -⟩ := hcomment
    rintro c ⟨⟩
    rfl

theorem Comment.concat {comment : List Char} {c : Char} (h : Comment comment)
    (hc : ¬ EndsLine c) : Comment (comment ++ [c]) := by
  obtain ⟨body, rfl, hbody⟩ := h
  refine ⟨body ++ [c], rfl, fun d hd => ?_⟩
  rcases List.mem_append.1 hd with hd | hd
  · exact hbody d hd
  · rw [List.mem_singleton.1 hd]
    exact hc

theorem StringBody.append {body body' cs cs' : List Char} (h : StringBody body cs)
    (h' : StringBody body' cs') : StringBody (body ++ body') (cs ++ cs') := by
  induction h with
  | nil => exact h'
  | plain hquote hbackslash _ ih => exact .plain hquote hbackslash ih
  | escape hescape _ ih => exact .escape hescape ih

/-- What is separated from a text is separated from what comes after a part of it that is not
empty. -/
theorem Separated.append {cs rest text : List Char} (h : Separated cs rest)
    (htext : rest = [] → Separated cs text) : Separated cs (rest ++ text) := by
  cases rest with
  | nil => exact htext rfl
  | cons => exact h

theorem Separated.nil (text : List Char) : Separated [] text := fun c hc => by cases hc

/-- A further form can be laid out after others. -/
theorem Layout.snoc : ∀ {fs : List Form} {base : List Char}, Layout fs base →
    ∀ {f : Form} {text : List Char}, FormText f text → Separated base text →
      Layout (fs ++ [f]) (base ++ text)
  | _, _, .nil hgap, f, text, hf, _ => by
    have h := Layout.cons hgap hf (fun c _ d hd => by cases hd) (.nil .nil)
    rwa [List.append_nil] at h
  | _, _, @Layout.cons f' fs gap cs rest hgap hf' hseparated hfs, f, text, hf, hbase => by
    rw [List.append_assoc, List.append_assoc]
    rw [← List.append_assoc] at hbase
    refine .cons hgap hf' (hseparated.append fun hrest => ?_)
      (Layout.snoc hfs hf hbase.of_append)
    rw [hrest, List.append_nil] at hbase
    exact hbase.of_append

/-- A gap can be laid out after forms. -/
theorem Layout.gap : ∀ {fs : List Form} {base : List Char}, Layout fs base →
    ∀ {gap : List Char}, Gap gap → Layout fs (base ++ gap)
  | _, _, .nil hgap, _, hgap' => .nil (hgap.append hgap')
  | _, _, .cons hgap hf hseparated hfs, _, hgap' => by
    rw [List.append_assoc, List.append_assoc]
    exact .cons hgap hf (hseparated.append fun _ => separated_of_head hgap'.isDelimiter_head)
      (Layout.gap hfs hgap')

/-- The characters of an atom, collected the last one first, are the text of what it denotes. -/
theorem FormText.ofChars {chars : List Char} (hne : chars ≠ [])
    (hchars : ∀ c ∈ chars, isDelimiter c = false) :
    FormText (.ofAtom chars.reverse) chars.reverse :=
  .atom (by simpa using hne) (by simpa using hchars) (Literal.denotes_iff.2 rfl)

end Grammar

namespace Reading

open Grammar

/-- A text that leaves given quote marks and lists open: forms are laid out outside of them and, up
to where the text ends, in each of the lists. -/
inductive Open : List Pending × List Form → List Char → Prop
  | top {forms : List Form} {cs : List Char} (hforms : Layout forms.reverse cs) :
      Open ([], forms) cs
  | quoted {state : List Pending × List Form} {cs gap : List Char} (h : Open state cs)
      (hgap : Gap gap) : Open (.quoted :: state.1, state.2) (cs ++ '\'' :: gap)
  | list {state : List Pending × List Form} {cs inner : List Char} {items : List Form}
      (h : Open state cs) (b : Bracket) (hitems : Layout items.reverse inner) :
      Open (.list b items :: state.1, state.2) (cs ++ b.opening :: inner)

theorem Open.gap {state : List Pending × List Form} {cs gap : List Char} (h : Open state cs)
    (hgap : Gap gap) : Open state (cs ++ gap) := by
  cases h with
  | top hforms => exact .top (hforms.gap hgap)
  | quoted h hgap' =>
    rw [List.append_assoc, List.cons_append]
    exact .quoted h (hgap'.append hgap)
  | list h b hitems =>
    rw [List.append_assoc, List.cons_append]
    exact .list h b (hitems.gap hgap)

/-- A form is given to what is innermost; the quote marks before it become part of its text. -/
theorem Open.give {state : List Pending × List Form} {cs text : List Char} {f : Form}
    (h : Open state cs) (hf : FormText f text) (hseparated : Separated cs text) :
    Open (give state f) (cs ++ text) := by
  induction h generalizing f text with
  | top hforms =>
    refine .top ?_
    rw [List.reverse_cons]
    exact hforms.snoc hf hseparated
  | quoted h hgap ih =>
    rw [List.append_assoc, List.cons_append]
    exact ih (.quote hgap hf) (separated_of_head fun c hc => by cases hc; rfl)
  | @list state cs inner items h b hitems =>
    rw [List.append_assoc, List.cons_append]
    refine .list h b ?_
    rw [List.reverse_cons]
    refine hitems.snoc hf ?_
    rw [List.append_cons] at hseparated
    exact hseparated.of_append

/-- A text after which an atom may begin. -/
def Closed (cs : List Char) : Prop := ∀ c ∈ cs.getLast?, isDelimiter c = true

theorem closed_append {c : Char} (hc : isDelimiter c = true) (cs : List Char) :
    Closed (cs ++ [c]) := by
  intro d hd
  rw [List.getLast?_concat] at hd
  cases hd
  exact hc

theorem Closed.separated {cs : List Char} (h : Closed cs) (text : List Char) : Separated cs text :=
  fun c hc _ _ => Or.inl (h c hc)

/-- The text that leads to a state of reading, by what its last characters belong to. -/
inductive Consumed : Reading → List Char → Prop
  | gap {offset : Nat} {state : List Pending × List Form} {cs : List Char} (h : Open state cs)
      (hclosed : Closed cs) : Consumed ⟨offset, .gap, state.1, state.2⟩ cs
  | comment {offset : Nat} {state : List Pending × List Form} {cs comment : List Char}
      (h : Open state cs) (hcomment : Comment comment) :
      Consumed ⟨offset, .comment, state.1, state.2⟩ (cs ++ comment)
  | atom {offset : Nat} {state : List Pending × List Form} {cs chars : List Char}
      (h : Open state cs) (hclosed : Closed cs) (hne : chars ≠ [])
      (hchars : ∀ c ∈ chars, isDelimiter c = false) :
      Consumed ⟨offset, .atom chars, state.1, state.2⟩ (cs ++ chars.reverse)
  | string {offset start : Nat} {state : List Pending × List Form} {cs chars body : List Char}
      (h : Open state cs) (hbody : StringBody body chars.reverse) :
      Consumed ⟨offset, .string start chars, state.1, state.2⟩ (cs ++ '"' :: body)
  | escape {offset start : Nat} {state : List Pending × List Form} {cs chars body : List Char}
      (h : Open state cs) (hbody : StringBody body chars.reverse) :
      Consumed ⟨offset, .escape start chars, state.1, state.2⟩ (cs ++ '"' :: (body ++ ['\\']))

/-- The closing bracket of the innermost list. -/
theorem close?_eq_some {offset : Nat} {state : List Pending × List Form} {b : Bracket} {r : Reading}
    (h : (between offset state).close? b = some r) :
    ∃ items rest, state.1 = .list b items :: rest ∧
      r = between offset (Reading.give (rest, state.2) (.list items.reverse)) := by
  unfold close? at h
  split at h
  · next opened items rest hpending =>
    split at h
    · next hb =>
      subst hb
      exact ⟨items, rest, hpending, (Option.some.inj h).symm⟩
    · cases h
  · cases h

/-- What a character can do that does not continue an atom, a string or a comment. -/
theorem stepGap_cases {offset : Nat} {state : List Pending × List Form} {c : Char} {r : Reading}
    (h : (between offset state).stepGap c = .ok r) :
    (Text.isBlank c = true ∧ r = between offset state) ∨
    (c = ';' ∧ r = ⟨offset, .comment, state.1, state.2⟩) ∨
    (c = '"' ∧ r = ⟨offset, .string offset [], state.1, state.2⟩) ∨
    (c = '\'' ∧ r = between offset (.quoted :: state.1, state.2)) ∨
    (∃ b : Bracket, c = b.opening ∧ r = between offset (.list b [] :: state.1, state.2)) ∨
    (∃ (b : Bracket) (items : List Form) (rest : List Pending), c = b.closing ∧
      state.1 = .list b items :: rest ∧
      r = between offset (Reading.give (rest, state.2) (.list items.reverse))) ∨
    (isDelimiter c = false ∧ r = ⟨offset, .atom [c], state.1, state.2⟩) := by
  unfold stepGap at h
  split at h
  · next hc => exact Or.inl ⟨hc, (Except.ok.inj h).symm⟩
  · next hblank =>
  refine Or.inr ?_
  split at h
  · next hc => exact Or.inl ⟨hc, (Except.ok.inj h).symm⟩
  · next hsemicolon =>
  refine Or.inr ?_
  split at h
  · next hc => exact Or.inl ⟨hc, (Except.ok.inj h).symm⟩
  · next hdouble =>
  refine Or.inr ?_
  split at h
  · next hc => exact Or.inl ⟨hc, (Except.ok.inj h).symm⟩
  · next hquote =>
  refine Or.inr ?_
  split at h
  · next b hb => exact Or.inl ⟨b, Bracket.opening_of_eq hb, (Except.ok.inj h).symm⟩
  · next b _ hb =>
    refine Or.inr (Or.inl ?_)
    split at h
    · next hclose =>
      cases h
      obtain ⟨items, rest, hpending, hr⟩ := close?_eq_some hclose
      exact ⟨b, items, rest, Bracket.closing_of_eq hb, hpending, hr⟩
    · cases h
  · next hopening hclosing =>
    refine Or.inr (Or.inr ⟨?_, (Except.ok.inj h).symm⟩)
    simp [isDelimiter, hblank, hsemicolon, hdouble, hquote, hopening, hclosing]

/-- A character between forms keeps what has been read laid out. After an atom only a delimiter can
come. -/
theorem Consumed.stepGap {offset : Nat} {state : List Pending × List Form} {cs : List Char}
    {c : Char} {r : Reading} (h : Open state cs) (hclosed : Closed cs ∨ isDelimiter c = true)
    (hstep : (between offset state).stepGap c = .ok r) (offset' : Nat) :
    Consumed { r with offset := offset' } (cs ++ [c]) := by
  rcases stepGap_cases hstep with ⟨hc, rfl⟩ | ⟨rfl, rfl⟩ | ⟨rfl, rfl⟩ | ⟨rfl, rfl⟩ | ⟨b, rfl, rfl⟩ |
    ⟨b, items, rest, rfl, hpending, rfl⟩ | ⟨hc, rfl⟩
  · -- A blank widens the gap.
    exact .gap (h.gap (.blank hc .nil)) (closed_append (by simp [isDelimiter, hc]) cs)
  · exact .comment h ⟨[], rfl, by simp⟩
  · exact .string h .nil
  · exact .gap (.quoted h .nil) (closed_append rfl cs)
  · have hempty : Layout (List.reverse []) [] := .nil .nil
    exact .gap (.list h b hempty) (closed_append (isDelimiter_opening b) cs)
  · -- A closing bracket completes the list that is open, which goes to what is open around it.
    refine .gap ?_ (closed_append (isDelimiter_closing b) cs)
    obtain ⟨pending, forms⟩ := state
    cases hpending
    cases h with
    | list h b hitems =>
      rw [List.append_assoc, List.cons_append]
      refine h.give (.list b hitems) (separated_of_head ?_)
      rintro c ⟨⟩
      exact isDelimiter_opening b
  · have hclosed : Closed cs := hclosed.resolve_right (by simp [hc])
    exact .atom h hclosed (List.cons_ne_nil c []) (by simpa using hc)

/-- Reading a character goes on with the text that leads to the state. -/
theorem Consumed.step {r r' : Reading} {cs : List Char} {c : Char} (h : Consumed r cs)
    (hstep : r.step c = .ok r') : Consumed r' (cs ++ [c]) := by
  unfold Reading.step at hstep
  split at hstep
  · next next hnext =>
    cases hstep
    cases h with
    | gap h hclosed => exact Consumed.stepGap h (Or.inl hclosed) hnext _
    | @comment offset state cs comment h hcomment =>
      cases hnext
      rw [List.append_assoc]
      by_cases hc : c = '\n' ∨ c = '\r'
      · have hdelimiter : isDelimiter c = true := by rcases hc with rfl | rfl <;> rfl
        have hgap : Gap (comment ++ [c]) := .comment hcomment hc .nil
        rw [if_pos (by simpa using hc), ← List.append_assoc]
        exact .gap (List.append_assoc .. ▸ h.gap hgap) (closed_append hdelimiter _)
      · rw [if_neg (by simpa using hc)]
        exact .comment h (hcomment.concat hc)
    | @atom offset state cs chars h hclosed hne hchars =>
      unfold stepMode at hnext
      dsimp only at hnext
      split at hnext
      · next hc =>
        -- The atom is complete, and the delimiter is read after it.
        have hatom := h.give (.ofChars hne hchars) (hclosed.separated _)
        exact Consumed.stepGap hatom (Or.inr hc) hnext _
      · next hc =>
        cases hnext
        rw [List.append_assoc, ← List.reverse_cons]
        refine .atom h hclosed (List.cons_ne_nil c chars) fun d hd => ?_
        rcases List.mem_cons.1 hd with rfl | hd
        · simpa using hc
        · exact hchars d hd
    | @string offset start state cs chars body h hbody =>
      rw [List.append_assoc, List.cons_append]
      unfold stepMode at hnext
      dsimp only at hnext
      split at hnext
      · next hc =>
        cases hnext
        subst hc
        refine .gap (h.give (.string hbody) (separated_of_head fun c hc => by cases hc; rfl)) ?_
        rw [← List.cons_append, ← List.append_assoc]
        exact closed_append rfl _
      · next hquote =>
        split at hnext
        · next hc =>
          cases hnext
          subst hc
          exact .escape h hbody
        · next hbackslash =>
          cases hnext
          refine .string h ?_
          rw [List.reverse_cons]
          exact hbody.append (.plain hquote hbackslash .nil)
    | @escape offset start state cs chars body h hbody =>
      rw [List.append_assoc, List.cons_append, List.append_assoc]
      unfold stepMode at hnext
      dsimp only at hnext
      split at hnext
      · next d hd =>
        cases hnext
        refine .string h ?_
        rw [List.reverse_cons]
        exact hbody.append (.escape (unescape?_eq_some_iff.1 hd) .nil)
      · cases hnext
  · cases hstep

/-- What has been read, character by character, leads to the state that is reached. -/
theorem Consumed.run {r r' : Reading} {cs ds : List Char} (h : Consumed r cs)
    (hrun : r.run ds = .ok r') : Consumed r' (cs ++ ds) := by
  induction ds generalizing r cs with
  | nil =>
    cases hrun
    rwa [List.append_nil]
  | cons c ds ih =>
    rw [run_cons] at hrun
    cases hstep : r.step c with
    | error fault =>
      rw [hstep] at hrun
      cases hrun
    | ok next =>
      rw [hstep] at hrun
      rw [List.append_cons]
      exact ih (h.step hstep) hrun

/-- Where nothing is open, the forms completed are laid out. -/
theorem Open.layout {state : List Pending × List Form} {cs : List Char} {fs : List Form}
    {fault : Fault} (h : Open state cs)
    (hfs : (if state.1.isEmpty then .ok state.2.reverse else .error fault) = Except.ok fs) :
    Layout fs cs := by
  cases h with
  | top hforms =>
    cases hfs
    exact hforms
  | quoted | list => cases hfs

/-- At the end, nothing is open and the text is laid out. -/
theorem Consumed.finish {r : Reading} {cs : List Char} {fs : List Form} (h : Consumed r cs)
    (hfinish : r.finish = .ok fs) : Program cs fs := by
  cases h with
  | gap h => exact ⟨cs, [], (List.append_nil cs).symm, h.layout hfinish, Or.inl rfl⟩
  | comment h hcomment => exact ⟨_, _, rfl, h.layout hfinish, Or.inr hcomment⟩
  | atom h hclosed hne hchars =>
    have hatom := h.give (.ofChars hne hchars) (hclosed.separated _)
    exact ⟨_, [], (List.append_nil _).symm, hatom.layout hfinish, Or.inl rfl⟩
  | string | escape => cases hfinish

/-- A failure says that a program, a form, or a form or the end was wanted. -/
def Ordinary (fault : Fault) : Prop :=
  fault.wanted = .program ∨ fault.wanted = .form ∨ fault.wanted = .formOrEnd

theorem wantedAt_cases (position : Nat) (pending : List Pending) (offset length : Nat) :
    Ordinary ⟨wantedAt position pending, offset, length⟩ := by
  unfold Ordinary wantedAt
  dsimp only
  split
  · exact Or.inl rfl
  · split
    · exact Or.inr (Or.inr rfl)
    · exact Or.inr (Or.inl rfl)

theorem ordinary_of_stepGap {r : Reading} {c : Char} {fault : Fault}
    (h : r.stepGap c = .error fault) : Ordinary fault := by
  unfold stepGap at h
  repeat' split at h
  all_goals cases h
  exact wantedAt_cases ..

theorem ordinary_of_step {r : Reading} {c : Char} {fault : Fault}
    (h : r.step c = .error fault) : Ordinary fault := by
  unfold Reading.step at h
  split at h
  · cases h
  · next fault' hstep =>
    cases h
    unfold stepMode at hstep
    split at hstep
    · exact ordinary_of_stepGap hstep
    · cases hstep
    · split at hstep
      · exact ordinary_of_stepGap hstep
      · cases hstep
    · split at hstep
      · cases hstep
      · split at hstep <;> cases hstep
    · split at hstep
      · cases hstep
      · cases hstep
        exact wantedAt_cases ..

theorem ordinary_of_outcome {r : Reading} {cs : List Char} {fault : Fault}
    (h : r.outcome cs = .error fault) : Ordinary fault := by
  induction cs generalizing r with
  | nil =>
    change r.finish = .error fault at h
    unfold Reading.finish at h
    dsimp only at h
    repeat' split at h
    all_goals cases h
    all_goals exact wantedAt_cases ..
  | cons c cs ih =>
    cases hstep : r.step c with
    | ok r' => exact ih (outcome_of_step hstep cs ▸ h)
    | error fault' =>
      rw [Reading.outcome, run_cons, hstep] at h
      cases h
      exact ordinary_of_step hstep

end Reading

namespace Grammar

/-- The forms that a text is read as are laid out in it. -/
theorem program_of_read {source : String} {fs : List Form} (h : Form.read source = .ok fs) :
    Program source.toList fs := by
  unfold Form.read at h
  split at h
  · next r hrun =>
    have hstart : Reading.Consumed (.between 0 ([], [])) [] := .gap (.top (.nil .nil)) nofun
    exact (hstart.run hrun).finish h
  · cases h

/-- Reading accepts exactly the grammar. A text is read as given forms if and only if it is a layout
of them, and then of no others. Every atom denotes exactly one form, and a number always denotes a
double where it has to. A text that is refused has no forms, and the refusal is one of the reader's
own. -/
theorem read_iff_program (source : String) :
    (∀ fs, Form.read source = .ok fs ↔ Program source.toList fs) ∧
    (∀ fs fs', Program source.toList fs → Program source.toList fs' → fs = fs') ∧
    (∀ run, ∃ f, Literal.Denotes run f ∧ ∀ g, Literal.Denotes run g → g = f) ∧
    (∀ run, (∃ n, Literal.Whole run n) ∨ Literal.IsDecimal run →
      ∃ x, Decimal.ofText? run = some x) ∧
    ∀ fault, Form.read source = .error fault →
      (fault.wanted = .program ∨ fault.wanted = .form ∨ fault.wanted = .formOrEnd) ∧
        ∀ fs, ¬ Program source.toList fs := by
  refine ⟨fun fs => ⟨program_of_read, Program.read⟩, fun fs fs' h h' => ?_, fun run => ?_,
    fun run h => ?_, fun fault h => ⟨Reading.ordinary_of_outcome h, fun fs hfs => ?_⟩⟩
  · exact Except.ok.inj (h.read.symm.trans h'.read)
  · exact ⟨Form.ofAtom run, Literal.denotes_iff.2 rfl, fun g => Literal.denotes_iff.1⟩
  · rcases h with ⟨n, hwhole⟩ | hdecimal
    · obtain ⟨x, hx, -⟩ := hwhole.ofAtom.2
      exact ⟨x, hx⟩
    · obtain ⟨x, hx, -⟩ := hdecimal.ofAtom
      exact ⟨x, hx⟩
  · cases h.symm.trans hfs.read

/-- A quotation with a comment after it has one form, and brackets of two kinds do not match. -/
theorem read_iff_program_brackets :
    Program "'[a -7 \"\\n\"];".toList [(Form.list [.sym "a", .int (-7), .str "\n"]).quoted] ∧
      ∀ fs, ¬ Program "(a]".toList fs := by
  obtain ⟨hread, -⟩ := read_iff_program "'[a -7 \"\\n\"];"
  obtain ⟨-, -, -, -, hrefused⟩ := read_iff_program "(a]"
  exact ⟨(hread _).1 rfl, (hrefused ⟨.form, 2, 1⟩ rfl).2⟩

end Grammar

end ConfinedLisp
