import ConfinedLisp.Proofs.JoinedTexts

/-!
# Where reading fails

A text that cannot be read is refused at a place up to which there is nothing wrong with it: what
comes before the place begins a text that can be read. The place is the end of the text, a closing
bracket that closes nothing, or the quote before a string that is not complete. For whatever has
been read can be completed, the innermost list or quotation first; and where a character is refused,
it is refused whatever comes after it.

## Main definitions

- `Form.Viable`: a text begins a text that can be read.
- `Grammar.Incomplete`: what comes after a quote does not complete a string.
- `Mode.Begun`: a string is being read that began where reading could have gone on.

## Main results

- `Reading.exists_completion`: every state of reading can be completed.
- `Form.read_fault_located`: where a text is refused.
-/

namespace ConfinedLisp

/-- A text begins a text that can be read. -/
def Form.Viable (text : String) : Prop := ∃ more forms, Form.read (text ++ more) = .ok forms

/-! ### Strings that are not complete -/

namespace Grammar

/-- No string is complete with these characters after its opening quote. -/
def Incomplete (rest : List Char) : Prop :=
  ∀ body cs tail, StringBody body cs → rest ≠ body ++ '"' :: tail

theorem incomplete_nil : Incomplete [] := by
  intro body cs tail _ h
  cases body <;> cases h

theorem incomplete_backslash : Incomplete ['\\'] := by
  intro body cs tail hbody h
  cases hbody with
  | nil => cases h
  | plain _ hbackslash => exact hbackslash (List.cons.inj h).1.symm
  | escape => cases h

/-- A backslash before a character that it does not go with. -/
theorem incomplete_escape {c : Char} (hc : Reading.unescape? c = none) (rest : List Char) :
    Incomplete ('\\' :: c :: rest) := by
  intro body cs tail hbody h
  cases hbody with
  | nil => cases h
  | plain _ hbackslash => exact hbackslash (List.cons.inj h).1.symm
  | escape hescape =>
    obtain ⟨rfl, -⟩ := List.cons.inj (List.cons.inj h).2
    rw [unescape?_eq_some_iff.2 hescape] at hc
    cases hc

/-- What belongs to a string does not complete it. -/
theorem Incomplete.append {rest body cs : List Char} (h : Incomplete rest)
    (hbody : StringBody body cs) : Incomplete (body ++ rest) := by
  induction hbody with
  | nil => exact h
  | plain hquote hbackslash _ ih =>
    intro body' cs' tail hbody' heq
    cases hbody' with
    | nil => exact hquote (List.cons.inj heq).1
    | plain _ _ hrest => exact ih _ _ tail hrest (List.cons.inj heq).2
    | escape => exact hbackslash (List.cons.inj heq).1
  | escape _ _ ih =>
    intro body' cs' tail hbody' heq
    cases hbody' with
    | nil => cases heq
    | plain _ hbackslash => exact hbackslash (List.cons.inj heq).1.symm
    | escape _ hrest => exact ih _ _ tail hrest (List.cons.inj (List.cons.inj heq).2).2

end Grammar

namespace Reading

open Grammar

variable {r r' : Reading} {c : Char} {fault : Fault}

/-- One more character is read. -/
theorem run_snoc {text : List Char} (hrun : start.run text = .ok r) (hstep : r.step c = .ok r') :
    start.run (text ++ [c]) = .ok r' := by
  rw [run_append, hrun]
  show r.run [c] = .ok r'
  rw [run_cons, hstep]
  rfl

/-- The offset is the size of what has been read. -/
theorem offset_of_run {text : List Char} (hrun : start.run text = .ok r) :
    r.offset = (String.ofList text).utf8ByteSize :=
  (offset_run hrun).trans (Nat.zero_add _)

/-! ### Completing what is open -/

/-- A form that is given opens nothing. -/
theorem length_give (state : List Pending × List Form) (f : Form) :
    (give state f).1.length ≤ state.1.length := by
  obtain ⟨pending, forms⟩ := state
  induction pending generalizing f with
  | nil => exact Nat.le_refl _
  | cons p rest ih =>
    cases p with
    | quoted => exact Nat.le_succ_of_le (ih f.quoted)
    | list => exact Nat.le_refl _

/-- Between two forms, what is open can be closed: a list by its bracket, and a quotation by giving
it the empty list. -/
theorem exists_completion_between (offset : Nat) (state : List Pending × List Form) :
    ∃ more forms, (between offset state).outcome more = .ok forms := by
  induction hopen : state.1.length using Nat.strongRecOn generalizing offset state with
  | ind n ih =>
    obtain ⟨pending, forms⟩ := state
    cases pending with
    | nil => exact ⟨[], forms.reverse, rfl⟩
    | cons p rest =>
      have hless : ∀ f, (give (rest, forms) f).1.length < n := fun f =>
        Nat.lt_of_le_of_lt (length_give (rest, forms) f) (hopen ▸ Nat.lt_succ_self rest.length)
      cases p with
      | list b items =>
        obtain ⟨more, forms', h⟩ := ih _ (hless _) (offset + 1)
          (give (rest, forms) (.list items.reverse)) rfl
        have hclose := step_closing offset (rest, forms) b items
        exact ⟨b.closing :: more, forms', (outcome_of_step hclose more).trans h⟩
      | quoted =>
        obtain ⟨more, forms', h⟩ := ih _ (hless _) (offset + 1 + 1)
          (give (rest, forms) (Form.list []).quoted) rfl
        have hopen := step_opening offset (.quoted :: rest, forms) .round
        have hclose := step_closing (offset + 1) (.quoted :: rest, forms) .round []
        exact ⟨Bracket.round.opening :: Bracket.round.closing :: more, forms',
          (outcome_of_step hopen _).trans ((outcome_of_step hclose more).trans h)⟩

/-- Every state of reading can be completed. -/
theorem exists_completion (r : Reading) : ∃ more forms, r.outcome more = .ok forms := by
  -- It is enough to come to a gap.
  have hgap : ∀ {r : Reading} {c : Char} {offset state}, r.step c = .ok (between offset state) →
      ∃ more forms, r.outcome more = .ok forms := by
    intro r c offset state hstep
    obtain ⟨more, forms, h⟩ := exists_completion_between offset state
    exact ⟨c :: more, forms, (outcome_of_step hstep more).trans h⟩
  obtain ⟨offset, mode, pending, forms⟩ := r
  cases mode with
  | gap => exact exists_completion_between offset (pending, forms)
  | comment =>
    have hstep : step ⟨offset, .comment, pending, forms⟩ '\n' =
        .ok (between (offset + 1) (pending, forms)) := rfl
    exact hgap hstep
  | atom chars =>
    have hstep : step ⟨offset, .atom chars, pending, forms⟩ '\n' =
        .ok (between (offset + 1) (give (pending, forms) (.ofAtom chars.reverse))) := rfl
    exact hgap hstep
  | string start chars =>
    have hstep : step ⟨offset, .string start chars, pending, forms⟩ '"' =
        .ok (between (offset + 1)
          (give (pending, forms) (.str (String.ofList chars.reverse)))) := rfl
    exact hgap hstep
  | escape start chars =>
    have hescape : step ⟨offset, .escape start chars, pending, forms⟩ 'n' =
        .ok ⟨offset + 1, .string start ('\n' :: chars), pending, forms⟩ := rfl
    have hstep : step ⟨offset + 1, .string start ('\n' :: chars), pending, forms⟩ '"' =
        .ok (between (offset + 1 + 1)
          (give (pending, forms) (.str (String.ofList ('\n' :: chars).reverse)))) := rfl
    obtain ⟨more, forms', h⟩ := hgap hstep
    exact ⟨'n' :: more, forms', (outcome_of_step hescape more).trans h⟩

/-- Whatever has been read begins a text that can be read. -/
theorem viable_of_run {before : List Char} (h : start.run before = .ok r) :
    Form.Viable (String.ofList before) := by
  obtain ⟨more, forms, hmore⟩ := exists_completion r
  refine ⟨String.ofList more, forms, ?_⟩
  have hread : start.outcome (before ++ more) = .ok forms := by
    rw [outcome, run_append, h]
    exact hmore
  rwa [← String.toList_ofList (l := before ++ more), String.ofList_append] at hread

/-- Where a character is refused, it is refused whatever comes after it. -/
theorem not_viable_of_step {before : List Char} (h : start.run before = .ok r)
    (hstep : r.step c = .error fault) : ¬ Form.Viable (String.ofList (before ++ [c])) := by
  rintro ⟨more, forms, hread⟩
  have hrun : start.run (before ++ c :: more.toList) = .error fault := by
    rw [run_append, h]
    show r.run (c :: more.toList) = .error fault
    rw [run_cons, hstep]
    rfl
  have htext : (String.ofList (before ++ [c]) ++ more).toList = before ++ c :: more.toList := by
    simp
  rw [Form.read, htext, hrun] at hread
  cases hread

/-! ### The beginning of a string -/

end Reading

open Grammar Reading in
/-- Where a string is being read, the characters since its opening quote belong to it, and what
comes before the quote could be read. -/
inductive Mode.Begun : Mode → List Char → Prop
  | gap {text : List Char} : Begun .gap text
  | comment {text : List Char} : Begun .comment text
  | atom {text chars : List Char} : Begun (.atom chars) text
  | string {before body cs chars : List Char} {r : Reading} (hbefore : start.run before = .ok r)
      (hbody : StringBody body cs) :
      Begun (.string (String.ofList before).utf8ByteSize chars) (before ++ '"' :: body)
  | escape {before body cs chars : List Char} {r : Reading} (hbefore : start.run before = .ok r)
      (hbody : StringBody body cs) :
      Begun (.escape (String.ofList before).utf8ByteSize chars) (before ++ '"' :: (body ++ ['\\']))

namespace Reading

open Grammar

variable {r r' : Reading} {c : Char} {fault : Fault}

theorem begun_stepGap {text : List Char} {offset : Nat} {state : List Pending × List Form}
    (hrun : start.run text = .ok r) (hoffset : offset = (String.ofList text).utf8ByteSize)
    (hstep : (between offset state).stepGap c = .ok r') : r'.mode.Begun (text ++ [c]) := by
  rcases stepGap_cases hstep with ⟨-, rfl⟩ | ⟨-, rfl⟩ | ⟨rfl, rfl⟩ | ⟨-, rfl⟩ | ⟨b, -, rfl⟩ |
    ⟨b, items, rest, -, -, rfl⟩ | ⟨-, rfl⟩
  · exact .gap
  · exact .comment
  · subst hoffset
    exact .string hrun .nil
  · exact .gap
  · exact .gap
  · exact .gap
  · exact .atom

/-- A character that is read keeps track of where a string began. -/
theorem begun_step {text : List Char} (hrun : start.run text = .ok r) (h : r.mode.Begun text)
    (hstep : r.step c = .ok r') : r'.mode.Begun (text ++ [c]) := by
  have hoffset := offset_of_run hrun
  unfold Reading.step at hstep
  split at hstep
  · next next hnext =>
    cases hstep
    obtain ⟨offset, mode, pending, forms⟩ := r
    unfold stepMode at hnext
    cases h with
    | gap =>
      have hstep : (between offset (pending, forms)).stepGap c = .ok next := hnext
      have hbegun := begun_stepGap hrun hoffset hstep
      exact hbegun
    | comment =>
      cases hnext
      dsimp only
      split
      · exact .gap
      · exact .comment
    | @atom _ chars =>
      dsimp only at hnext
      split at hnext
      · have hstep : (between offset (give (pending, forms) (.ofAtom chars.reverse))).stepGap c =
          .ok next := hnext
        have hbegun := begun_stepGap hrun hoffset hstep
        exact hbegun
      · cases hnext
        exact .atom
    | string hbefore hbody =>
      rw [List.append_assoc, List.cons_append]
      dsimp only at hnext
      split at hnext
      · cases hnext
        exact .gap
      · next hquote =>
        split at hnext
        · next hc =>
          cases hnext
          subst hc
          exact .escape hbefore hbody
        · next hbackslash =>
          cases hnext
          exact .string hbefore (hbody.append (.plain hquote hbackslash .nil))
    | escape hbefore hbody =>
      rw [List.append_assoc, List.cons_append, List.append_assoc]
      dsimp only at hnext
      split at hnext
      · next d hd =>
        cases hnext
        exact .string hbefore (hbody.append (.escape (unescape?_eq_some_iff.1 hd) .nil))
      · cases hnext
  · cases hstep

/-- What has been read, character by character, keeps track of where a string began. -/
theorem begun_run {text more : List Char} (hrun : start.run text = .ok r) (h : r.mode.Begun text)
    (hmore : r.run more = .ok r') : r'.mode.Begun (text ++ more) := by
  induction more generalizing r text with
  | nil =>
    cases hmore
    rwa [List.append_nil]
  | cons c more ih =>
    rw [run_cons] at hmore
    cases hstep : r.step c with
    | error fault =>
      rw [hstep] at hmore
      cases hmore
    | ok next =>
      rw [hstep] at hmore
      rw [List.append_cons]
      exact ih (run_snoc hrun hstep) (begun_step hrun h hstep) hmore

theorem begun_of_run {text : List Char} (hrun : start.run text = .ok r) : r.mode.Begun text := by
  have hnothing : start.run [] = .ok start := rfl
  exact begun_run hnothing .gap hrun

/-! ### The place of a failure -/

/-- A failure is located in a text: at the end of it, at a closing bracket after which nothing can
be right, or at the quote before a string that is not complete. What comes before could be read. -/
inductive Located : Fault → List Char → Prop
  | atEnd {text : List Char} {wanted : Wanted} {r : Reading} (hrun : start.run text = .ok r) :
      Located ⟨wanted, (String.ofList text).utf8ByteSize, 0⟩ text
  | atBracket {before after : List Char} {wanted : Wanted} {r : Reading} (b : Bracket)
      (hrun : start.run before = .ok r)
      (hrefused : ¬ Form.Viable (String.ofList (before ++ [b.closing]))) :
      Located ⟨wanted, (String.ofList before).utf8ByteSize, 1⟩ (before ++ b.closing :: after)
  | atQuote {before after : List Char} {wanted : Wanted} {r : Reading}
      (hrun : start.run before = .ok r) (hincomplete : Incomplete after) :
      Located ⟨wanted, (String.ofList before).utf8ByteSize, 1⟩ (before ++ '"' :: after)

/-- Between two forms only a closing bracket is refused. -/
theorem closing_of_stepGap (h : r.stepGap c = .error fault) :
    ∃ b : Bracket, c = b.closing ∧ fault = r.faultAt r.offset := by
  unfold stepGap at h
  iterate 4
    split at h
    · cases h
  split at h
  · cases h
  · next b _ hb =>
    split at h
    · cases h
    · cases h
      exact ⟨b, Bracket.closing_of_eq hb, rfl⟩
  · cases h

/-- The place where a character is refused. -/
theorem located_of_step {text after : List Char} (hrun : start.run text = .ok r)
    (hstep : r.step c = .error fault) : Located fault (text ++ c :: after) := by
  have hoffset := offset_of_run hrun
  have hrefused := not_viable_of_step hrun hstep
  have hbegun := begun_of_run hrun
  obtain ⟨offset, mode, pending, forms⟩ := r
  obtain rfl : offset = (String.ofList text).utf8ByteSize := hoffset
  unfold Reading.step at hstep
  split at hstep
  · cases hstep
  · next fault' hmode =>
    cases hstep
    unfold stepMode at hmode
    cases hbegun with
    | gap =>
      obtain ⟨b, rfl, rfl⟩ := closing_of_stepGap hmode
      exact .atBracket b hrun hrefused
    | comment => cases hmode
    | atom =>
      dsimp only at hmode
      split at hmode
      · obtain ⟨b, rfl, rfl⟩ := closing_of_stepGap hmode
        exact .atBracket b hrun hrefused
      · cases hmode
    | string =>
      dsimp only at hmode
      split at hmode
      · cases hmode
      · split at hmode <;> cases hmode
    | escape hbefore hbody =>
      dsimp only at hmode
      split at hmode
      · cases hmode
      · next hc =>
        cases hmode
        rw [List.append_assoc, List.cons_append, List.append_assoc]
        exact .atQuote hbefore ((incomplete_escape hc after).append hbody)

/-- The place where the end of a text is refused. -/
theorem located_of_finish {text : List Char} (hrun : start.run text = .ok r)
    (hfinish : r.finish = .error fault) : Located fault text := by
  have hoffset := offset_of_run hrun
  have hbegun := begun_of_run hrun
  obtain ⟨offset, mode, pending, forms⟩ := r
  obtain rfl : offset = (String.ofList text).utf8ByteSize := hoffset
  unfold Reading.finish at hfinish
  cases hbegun with
  | gap | comment | atom =>
    dsimp only at hfinish
    split at hfinish
    · cases hfinish
    · cases hfinish
      exact .atEnd hrun
  | string hbefore hbody =>
    cases hfinish
    have hincomplete := incomplete_nil.append hbody
    rw [List.append_nil] at hincomplete
    exact .atQuote hbefore hincomplete
  | escape hbefore hbody =>
    cases hfinish
    exact .atQuote hbefore (incomplete_backslash.append hbody)

/-- A text that is refused is refused at a place in it. -/
theorem located_of_outcome {text more : List Char} (hrun : start.run text = .ok r)
    (h : r.outcome more = .error fault) : Located fault (text ++ more) := by
  induction more generalizing r text with
  | nil =>
    rw [List.append_nil]
    exact located_of_finish hrun h
  | cons c more ih =>
    cases hstep : r.step c with
    | error fault' =>
      rw [outcome, run_cons, hstep] at h
      cases h
      exact located_of_step hrun hstep
    | ok next =>
      rw [outcome_of_step hstep] at h
      rw [List.append_cons]
      exact ih (run_snoc hrun hstep) h

end Reading

open Grammar in
/-- **Where a text is refused.** What comes before the place begins a text that can be read. The
place is the end of the text, and then nothing is pointed at, or else one character is: a closing
bracket with which no text that can be read goes on there, or the quote before a string that is not
complete. -/
theorem Form.read_fault_located {source : String} {fault : Fault}
    (h : Form.read source = .error fault) :
    fault.offset + fault.length ≤ source.utf8ByteSize ∧
    (fault.length = 0 ↔ fault.offset = source.utf8ByteSize) ∧
    ∃ before after : String, source = before ++ after ∧ before.utf8ByteSize = fault.offset ∧
      Form.Viable before ∧
      (fault.offset ≠ source.utf8ByteSize → fault.length = 1 ∧
        ∃ (c : Char) (rest : String), after = String.singleton c ++ rest ∧
          ((∃ b : Bracket, c = b.closing) ∧ ¬ Form.Viable (before ++ String.singleton c) ∨
            c = '"' ∧ Incomplete rest.toList)) := by
  have hnothing : Reading.start.run [] = .ok Reading.start := rfl
  have hlocated : Reading.Located fault source.toList := Reading.located_of_outcome hnothing h
  obtain ⟨text, rfl⟩ : ∃ text, source = String.ofList text := ⟨_, String.ofList_toList.symm⟩
  rw [String.toList_ofList] at hlocated
  -- A character is pointed at, and the text does not end before it.
  have hsize : ∀ (before : List Char) (c : Char) (after : List Char),
      (String.ofList before).utf8ByteSize + 1 ≤
        (String.ofList (before ++ c :: after)).utf8ByteSize := by
    intro before c after
    have hc := c.utf8Size_pos
    rw [String.ofList_append, String.ofList_cons, String.utf8ByteSize_append,
      String.utf8ByteSize_append, String.utf8ByteSize_singleton]
    omega
  cases hlocated with
  | atEnd hrun =>
    refine ⟨Nat.le_refl _, ⟨fun _ => rfl, fun _ => rfl⟩, String.ofList text, "", ?_, rfl,
      Reading.viable_of_run hrun, fun hend => absurd rfl hend⟩
    exact (String.append_empty).symm
  | atBracket b hrun hrefused =>
    next before after _ _ =>
    have hlt := hsize before b.closing after
    refine ⟨hlt, ⟨nofun, fun hend => absurd hend (Nat.ne_of_lt hlt)⟩, String.ofList before,
      String.ofList (b.closing :: after), String.ofList_append, rfl, Reading.viable_of_run hrun,
      fun _ => ⟨rfl, b.closing, String.ofList after, String.ofList_cons, Or.inl ⟨⟨b, rfl⟩, ?_⟩⟩⟩
    rwa [String.ofList_append] at hrefused
  | atQuote hrun hincomplete =>
    next before after _ _ =>
    have hlt := hsize before '"' after
    refine ⟨hlt, ⟨nofun, fun hend => absurd hend (Nat.ne_of_lt hlt)⟩, String.ofList before,
      String.ofList ('"' :: after), String.ofList_append, rfl, Reading.viable_of_run hrun,
      fun _ => ⟨rfl, '"', String.ofList after, String.ofList_cons, Or.inr ⟨rfl, ?_⟩⟩⟩
    rwa [String.toList_ofList]

theorem Form.read_fault_located_bracket :
    Form.read "(a 'b ; (\n ]" = .error ⟨.form, 11, 1⟩ ∧
      ∃ before after : String, "(a 'b ; (\n ]" = before ++ after ∧ before.utf8ByteSize = 11 ∧
        Form.Viable before ∧ ∃ (c : Char) (rest : String), after = String.singleton c ++ rest ∧
          ((∃ b : Bracket, c = b.closing) ∧ ¬ Form.Viable (before ++ String.singleton c) ∨
            c = '"' ∧ Grammar.Incomplete rest.toList) := by
  have hread : Form.read "(a 'b ; (\n ]" = .error ⟨.form, 11, 1⟩ := by rfl
  obtain ⟨-, -, before, after, hsource, hoffset, hviable, hpointed⟩ := Form.read_fault_located hread
  obtain ⟨-, hcharacter⟩ := hpointed (by decide +kernel)
  exact ⟨hread, before, after, hsource, hoffset, hviable, hcharacter⟩

end ConfinedLisp
