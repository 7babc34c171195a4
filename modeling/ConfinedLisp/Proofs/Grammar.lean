import ConfinedLisp.Form.Reading
import ConfinedLisp.Proofs.Literal

/-!
# The grammar of texts

What the forms of a text are is stated here without a reader. Forms are laid out with blanks and
comments between them; a list is laid out between brackets of one kind; a quote mark stands before
the form that it quotes; an atom goes on until a delimiter. Whatever is laid out is read as its
forms.

## Main definitions

- `Grammar.Gap`, `Grammar.StringBody`: what stands between forms, and between the quotes of a
  string.
- `Grammar.FormText`, `Grammar.Layout`: the texts of one form, and of several forms in a row.
- `Grammar.Program`: the texts that have given forms.

## Main results

- `Grammar.Layout.outcome`: a layout is read as its forms, whatever comes before and after it.
- `Grammar.Program.read`: a text that has forms is read as them.
-/

namespace ConfinedLisp

namespace Bracket

/-- The character that opens a bracket. -/
def opening : Bracket → Char
  | .round => '('
  | .square => '['
  | .curly => '\x7b'

/-- The character that closes a bracket. -/
def closing : Bracket → Char
  | .round => ')'
  | .square => ']'
  | .curly => '\x7d'

end Bracket

namespace Grammar

/-- The ends of a line. -/
def EndsLine (c : Char) : Prop := c = '\n' ∨ c = '\r'

/-- A comment runs from a semicolon up to the end of its line. -/
def Comment (cs : List Char) : Prop := ∃ body, cs = ';' :: body ∧ ∀ c ∈ body, ¬ EndsLine c

/-- Blanks, and comments with the end of their line. -/
inductive Gap : List Char → Prop
  | nil : Gap []
  | blank {c : Char} {cs : List Char} (hc : Text.isBlank c = true) (hcs : Gap cs) : Gap (c :: cs)
  | comment {comment cs : List Char} {c : Char} (hcomment : Comment comment) (hc : EndsLine c)
      (hcs : Gap cs) : Gap (comment ++ c :: cs)

/-- The characters that may follow a backslash in a string, and what they denote there. -/
def escapes : List (Char × Char) :=
  [('"', '"'), ('\\', '\\'), ('n', '\n'), ('t', '\t'), ('r', '\r'), ('0', '\x00')]

/-- What stands between the quotes of a string, and the characters that it denotes. -/
inductive StringBody : List Char → List Char → Prop
  | nil : StringBody [] []
  | plain {c : Char} {body cs : List Char} (hquote : c ≠ '"') (hbackslash : c ≠ '\\')
      (rest : StringBody body cs) : StringBody (c :: body) (c :: cs)
  | escape {c d : Char} {body cs : List Char} (hescape : (c, d) ∈ escapes)
      (rest : StringBody body cs) : StringBody ('\\' :: c :: body) (d :: cs)

/-- Between two characters one of which is a delimiter no atom goes on. -/
def Separated (cs ds : List Char) : Prop :=
  ∀ c ∈ cs.getLast?, ∀ d ∈ ds.head?, Reading.isDelimiter c = true ∨ Reading.isDelimiter d = true

mutual

/-- The texts of a form. -/
inductive FormText : Form → List Char → Prop
  | atom {f : Form} {run : List Char} (hne : run ≠ [])
      (hrun : ∀ c ∈ run, Reading.isDelimiter c = false) (hf : Literal.Denotes run f) :
      FormText f run
  | string {body cs : List Char} (hbody : StringBody body cs) :
      FormText (.str (String.ofList cs)) ('"' :: (body ++ ['"']))
  | quote {f : Form} {gap cs : List Char} (hgap : Gap gap) (hf : FormText f cs) :
      FormText f.quoted ('\'' :: (gap ++ cs))
  | list {fs : List Form} {cs : List Char} (b : Bracket) (hfs : Layout fs cs) :
      FormText (.list fs) (b.opening :: (cs ++ [b.closing]))

/-- The texts of several forms in a row. -/
inductive Layout : List Form → List Char → Prop
  | nil {gap : List Char} (hgap : Gap gap) : Layout [] gap
  | cons {f : Form} {fs : List Form} {gap cs rest : List Char} (hgap : Gap gap)
      (hf : FormText f cs) (hseparated : Separated cs rest) (hfs : Layout fs rest) :
      Layout (f :: fs) (gap ++ (cs ++ rest))

end

/-- The texts that have given forms: layouts of them, with a comment at the very end at most. -/
def Program (cs : List Char) (fs : List Form) : Prop :=
  ∃ layout tail, cs = layout ++ tail ∧ Layout fs layout ∧ (tail = [] ∨ Comment tail)

end Grammar

/-! ### A layout is read as its forms -/

namespace Reading

/-- The state between two forms, with what is open and the forms completed. -/
def between (offset : Nat) (state : List Pending × List Form) : Reading :=
  ⟨offset, .gap, state.1, state.2⟩

/-- What is open and completed after a further form. -/
def give (state : List Pending × List Form) (f : Form) : List Pending × List Form :=
  deliver state.2 state.1 f

/-- The forms of a text that goes on with some characters. -/
def outcome (r : Reading) (cs : List Char) : Except Fault (List Form) :=
  match r.run cs with
  | .ok r => r.finish
  | .error fault => .error fault

variable {r r' : Reading} {c : Char}

theorem run_cons (r : Reading) (c : Char) (cs : List Char) :
    r.run (c :: cs) = (r.step c).bind fun r' => r'.run cs := by
  simp only [run, List.foldlM_cons]
  rfl

theorem run_of_step (h : r.step c = .ok r') (cs : List Char) : r.run (c :: cs) = r'.run cs := by
  rw [run_cons, h]
  rfl

theorem outcome_of_step (h : r.step c = .ok r') (cs : List Char) :
    r.outcome (c :: cs) = r'.outcome cs := by
  rw [outcome, run_of_step h]
  rfl

theorem outcome_of_step_error {fault : Fault} (h : r.step c = .error fault) (cs : List Char) :
    r.outcome (c :: cs) = .error fault := by
  rw [outcome, run_cons, h]
  rfl

theorem offset_step (h : r.step c = .ok r') : r'.offset = r.offset + c.utf8Size := by
  unfold step at h
  split at h <;> cases h
  rfl

theorem offset_run {cs : List Char} (h : r.run cs = .ok r') :
    r'.offset = r.offset + (String.ofList cs).utf8ByteSize := by
  induction cs generalizing r with
  | nil =>
    cases h
    rfl
  | cons c cs ih =>
    rw [run_cons] at h
    cases hnext : r.step c with
    | error fault =>
      rw [hnext] at h
      cases h
    | ok next =>
      rw [hnext] at h
      rw [ih h, offset_step hnext, String.ofList_cons, String.utf8ByteSize_append,
        String.utf8ByteSize_singleton, Nat.add_assoc]

/-- A state goes over some characters to one with the given mode, what is open and the forms. -/
def Reaches (r : Reading) (cs : List Char) (mode : Mode) (state : List Pending × List Form) : Prop :=
  ∃ offset, r.run cs = .ok ⟨offset, mode, state.1, state.2⟩

/-- The state that is reached lies behind the characters. -/
theorem Reaches.outcome {cs : List Char} {mode : Mode} {state : List Pending × List Form}
    (h : r.Reaches cs mode state) (rest : List Char) :
    r.outcome (cs ++ rest) = Reading.outcome
      ⟨r.offset + (String.ofList cs).utf8ByteSize, mode, state.1, state.2⟩ rest := by
  obtain ⟨offset, hrun⟩ := h
  obtain rfl : offset = _ := offset_run hrun
  rw [Reading.outcome, run_append, hrun]
  rfl

theorem Reaches.cons {cs : List Char} {mode : Mode} {state : List Pending × List Form}
    (hstep : r.step c = .ok r') (h : r'.Reaches cs mode state) : r.Reaches (c :: cs) mode state := by
  obtain ⟨offset, hrun⟩ := h
  exact ⟨offset, (run_of_step hstep cs).trans hrun⟩

/-- Two states that go on alike have the same outcome. -/
theorem outcome_congr {cs : List Char} (hfinish : cs = [] → r.finish = r'.finish)
    (hstep : ∀ c ∈ cs.head?, r.step c = r'.step c) : r.outcome cs = r'.outcome cs := by
  cases cs with
  | nil => exact hfinish rfl
  | cons c cs =>
    unfold outcome
    rw [run_cons, run_cons, hstep c rfl]

section

variable (offset : Nat) (state : List Pending × List Form)

theorem step_blank (hc : Text.isBlank c = true) :
    (between offset state).step c = .ok (between (offset + c.utf8Size) state) := by
  simp [step, stepMode, stepGap, between, hc]

theorem step_semicolon :
    (between offset state).step ';' = .ok ⟨offset + 1, .comment, state.1, state.2⟩ :=
  rfl

theorem step_string :
    (between offset state).step '"' = .ok ⟨offset + 1, .string offset [], state.1, state.2⟩ :=
  rfl

theorem step_quote :
    (between offset state).step '\'' = .ok (between (offset + 1) (.quoted :: state.1, state.2)) :=
  rfl

theorem step_opening (b : Bracket) :
    (between offset state).step b.opening =
      .ok (between (offset + 1) (.list b [] :: state.1, state.2)) := by
  cases b <;> rfl

theorem step_closing (b : Bracket) (items : List Form) :
    (between offset (.list b items :: state.1, state.2)).step b.closing =
      .ok (between (offset + 1) (give state (.list items.reverse))) := by
  cases b <;> rfl

theorem step_atom (hc : isDelimiter c = false) :
    (between offset state).step c =
      .ok ⟨offset + c.utf8Size, .atom [c], state.1, state.2⟩ := by
  simp only [isDelimiter, Bool.or_eq_false_iff, decide_eq_false_iff_not, Option.isSome_eq_false_iff,
    Option.isNone_iff_eq_none] at hc
  simp [step, stepMode, stepGap, between, hc]

/-- A delimiter, or the end of the text, completes an atom. -/
theorem outcome_atom {chars rest : List Char}
    (hrest : ∀ c ∈ rest.head?, isDelimiter c = true) :
    outcome ⟨offset, .atom chars, state.1, state.2⟩ rest =
      outcome (between offset (give state (.ofAtom chars.reverse))) rest := by
  refine outcome_congr (fun _ => rfl) fun c hc => ?_
  simp only [step, stepMode, hrest c hc]
  rfl

end

end Reading

namespace Grammar

open Reading

/-- A comment stays open over its body. -/
theorem reaches_comment {body : List Char} (hbody : ∀ c ∈ body, ¬ EndsLine c) (offset : Nat)
    (state : List Pending × List Form) :
    Reaches ⟨offset, .comment, state.1, state.2⟩ body .comment state := by
  induction body generalizing offset with
  | nil => exact ⟨offset, rfl⟩
  | cons c body ih =>
    have hc : ¬ (c = '\n' ∨ c = '\r') := hbody c (by simp)
    refine .cons ?_ (ih (fun d hd => hbody d (by simp [hd])) (offset + c.utf8Size))
    simp [step, stepMode, hc]

theorem Comment.reaches {comment : List Char} (h : Comment comment) (offset : Nat)
    (state : List Pending × List Form) : (between offset state).Reaches comment .comment state := by
  obtain ⟨body, rfl, hbody⟩ := h
  exact .cons (step_semicolon offset state) (reaches_comment hbody (offset + 1) state)

/-- The end of a line closes a comment. -/
theorem step_endsLine {c : Char} (hc : EndsLine c) (offset : Nat)
    (state : List Pending × List Form) :
    Reading.step ⟨offset, .comment, state.1, state.2⟩ c =
      .ok (between (offset + c.utf8Size) state) := by
  have hc : c = '\n' ∨ c = '\r' := hc
  simp [step, stepMode, hc, between]

/-- A gap is passed over. -/
theorem Gap.outcome {gap : List Char} (h : Gap gap) (offset : Nat)
    (state : List Pending × List Form) (rest : List Char) :
    ∃ offset', (between offset state).outcome (gap ++ rest) =
      (between offset' state).outcome rest := by
  induction h generalizing offset with
  | nil => exact ⟨offset, rfl⟩
  | blank hc _ ih =>
    obtain ⟨offset', h⟩ := ih (offset + _)
    exact ⟨offset', (outcome_of_step (step_blank offset state hc) _).trans h⟩
  | comment hcomment hc _ ih =>
    rw [List.append_assoc, List.cons_append, (hcomment.reaches offset state).outcome,
      outcome_of_step (step_endsLine hc _ state)]
    exact ih _

theorem unescape?_eq_some_iff {c d : Char} : unescape? c = some d ↔ (c, d) ∈ escapes := by
  simp only [escapes, List.mem_cons, Prod.mk.injEq, List.not_mem_nil, or_false]
  constructor
  · intro h
    unfold unescape? at h
    repeat' split at h
    all_goals cases h <;> simp [*]
  · rintro (⟨rfl, rfl⟩ | ⟨rfl, rfl⟩ | ⟨rfl, rfl⟩ | ⟨rfl, rfl⟩ | ⟨rfl, rfl⟩ | ⟨rfl, rfl⟩) <;> rfl

/-- The body of a string is collected. -/
theorem StringBody.reaches {body cs : List Char} (h : StringBody body cs) (offset start : Nat)
    (done : List Char) (state : List Pending × List Form) :
    Reaches ⟨offset, .string start done, state.1, state.2⟩ body (.string start (cs.reverse ++ done))
      state := by
  induction h generalizing offset done with
  | nil => exact ⟨offset, rfl⟩
  | @plain c body cs hquote hbackslash _ ih =>
    rw [List.reverse_cons, List.append_assoc]
    refine .cons ?_ (ih (offset + c.utf8Size) (c :: done))
    simp [step, stepMode, hquote, hbackslash]
  | @escape c d body cs hescape _ ih =>
    have hbackslash : Reading.step ⟨offset, .string start done, state.1, state.2⟩ '\\' =
        .ok ⟨offset + 1, .escape start done, state.1, state.2⟩ := rfl
    rw [List.reverse_cons, List.append_assoc]
    refine .cons hbackslash (.cons ?_ (ih (offset + 1 + c.utf8Size) (d :: done)))
    simp [step, stepMode, unescape?_eq_some_iff.2 hescape]

/-- A string is read between its quotes. -/
theorem StringBody.outcome {body cs : List Char} (h : StringBody body cs) (offset : Nat)
    (state : List Pending × List Form) (rest : List Char) :
    (between offset state).outcome ('"' :: (body ++ '"' :: rest)) =
      (between (offset + 1 + (String.ofList body).utf8ByteSize + 1)
        (give state (.str (String.ofList cs)))).outcome rest := by
  rw [outcome_of_step (step_string offset state),
    (h.reaches (offset + 1) offset [] state).outcome, List.append_nil]
  refine (outcome_of_step rfl rest).trans ?_
  rw [List.reverse_reverse]
  rfl

/-- A run of characters without delimiters is collected. -/
theorem reaches_atom {run : List Char} (hrun : ∀ c ∈ run, isDelimiter c = false) (offset : Nat)
    (done : List Char) (state : List Pending × List Form) :
    Reaches ⟨offset, .atom done, state.1, state.2⟩ run (.atom (run.reverse ++ done)) state := by
  induction run generalizing offset done with
  | nil => exact ⟨offset, rfl⟩
  | cons c run ih =>
    have hc := hrun c (by simp)
    rw [List.reverse_cons, List.append_assoc]
    refine .cons ?_ (ih (fun d hd => hrun d (by simp [hd])) (offset + c.utf8Size) (c :: done))
    simp [step, stepMode, hc]

/-- A run of characters without delimiters is an atom up to a delimiter or the end of the text. -/
theorem outcome_run {run rest : List Char} (hne : run ≠ [])
    (hrun : ∀ c ∈ run, isDelimiter c = false) (hrest : ∀ c ∈ rest.head?, isDelimiter c = true)
    (offset : Nat) (state : List Pending × List Form) :
    (between offset state).outcome (run ++ rest) =
      (between (offset + (String.ofList run).utf8ByteSize) (give state (.ofAtom run))).outcome
        rest := by
  have hreaches : (between offset state).Reaches run (.atom run.reverse) state := by
    cases run with
    | nil => exact absurd rfl hne
    | cons c run =>
      rw [List.reverse_cons]
      exact .cons (step_atom offset state (hrun c (by simp)))
        (reaches_atom (fun d hd => hrun d (by simp [hd])) _ [c] state)
  rw [hreaches.outcome, outcome_atom _ state hrest, List.reverse_reverse]
  rfl

/-- An opened list holds the forms that are given to it, the last one first. -/
theorem foldl_give_list (b : Bracket) (items : List Form) (state : List Pending × List Form)
    (fs : List Form) :
    fs.foldl give (.list b items :: state.1, state.2) =
      (.list b (fs.reverse ++ items) :: state.1, state.2) := by
  induction fs generalizing items with
  | nil => rfl
  | cons f fs ih =>
    rw [List.foldl_cons, List.reverse_cons, List.append_assoc]
    exact ih (f :: items)

theorem foldl_give_top (forms fs : List Form) :
    fs.foldl give ([], forms) = ([], fs.reverse ++ forms) := by
  induction fs generalizing forms with
  | nil => rfl
  | cons f fs ih =>
    rw [List.foldl_cons, List.reverse_cons, List.append_assoc]
    exact ih (f :: forms)

/-- A delimiter separates what comes before it. -/
theorem separated_of_head {cs rest : List Char} (h : ∀ c ∈ rest.head?, isDelimiter c = true) :
    Separated cs rest :=
  fun _ _ d hd => Or.inr (h d hd)

/-- What is separated stays so with more in front. -/
theorem Separated.of_append {ds cs rest : List Char} (h : Separated (ds ++ cs) rest) :
    Separated cs rest := by
  intro c hc
  refine h c ?_
  rw [Option.mem_def] at hc ⊢
  rw [List.getLast?_append, hc]
  rfl

theorem isDelimiter_closing (b : Bracket) : isDelimiter b.closing = true := by cases b <;> rfl

theorem isDelimiter_opening (b : Bracket) : isDelimiter b.opening = true := by cases b <;> rfl

mutual

/-- The text of a form is read as that form, if no atom goes on after it. -/
theorem FormText.outcome : ∀ {f : Form} {cs : List Char}, FormText f cs → ∀ {rest : List Char},
    Separated cs rest → ∀ (offset : Nat) (state : List Pending × List Form),
    ∃ offset', (between offset state).outcome (cs ++ rest) =
      (between offset' (give state f)).outcome rest
  | _, run, .atom hne hrun hf, rest, hseparated, offset, state => by
    rw [Literal.denotes_iff.1 hf]
    refine ⟨_, outcome_run hne hrun (fun d hd => ?_) offset state⟩
    have hlast := List.getLast?_eq_some_getLast hne
    rcases hseparated _ hlast d hd with h | h
    · rw [hrun _ (List.getLast_mem hne)] at h
      cases h
    · exact h
  | _, _, .string hbody, rest, _, offset, state => by
    rw [List.cons_append, List.append_assoc]
    exact ⟨_, hbody.outcome offset state rest⟩
  | _, _, @FormText.quote f gap cs hgap hf, rest, hseparated, offset, state => by
    have hlast : Separated cs rest := by
      rw [← List.cons_append] at hseparated
      exact hseparated.of_append
    rw [List.cons_append, outcome_of_step (step_quote offset state), List.append_assoc]
    obtain ⟨offset₁, h₁⟩ := hgap.outcome (offset + 1) (.quoted :: state.1, state.2) (cs ++ rest)
    obtain ⟨offset₂, h₂⟩ := FormText.outcome hf hlast offset₁ (.quoted :: state.1, state.2)
    exact ⟨offset₂, h₁.trans h₂⟩
  | _, _, @FormText.list fs cs b hfs, rest, _, offset, state => by
    rw [List.cons_append, outcome_of_step (step_opening offset state b), List.append_assoc]
    have hclosing : ∀ c ∈ ([b.closing] ++ rest).head?, isDelimiter c = true := by
      rintro c ⟨⟩
      exact isDelimiter_closing b
    obtain ⟨offset', h⟩ := Layout.outcome hfs hclosing (offset + 1) (.list b [] :: state.1, state.2)
    rw [foldl_give_list, List.append_nil] at h
    refine ⟨offset' + 1, h.trans ((outcome_of_step (step_closing offset' state b _) rest).trans ?_)⟩
    rw [List.reverse_reverse]

/-- A layout is read as its forms, if no atom goes on after it. -/
theorem Layout.outcome : ∀ {fs : List Form} {cs : List Char}, Layout fs cs → ∀ {rest : List Char},
    (∀ c ∈ rest.head?, isDelimiter c = true) → ∀ (offset : Nat) (state : List Pending × List Form),
    ∃ offset', (between offset state).outcome (cs ++ rest) =
      (between offset' (fs.foldl give state)).outcome rest
  | _, _, .nil hgap, rest, _, offset, state => hgap.outcome offset state rest
  | _, _, @Layout.cons f fs gap cs inner hgap hf hseparated hfs, rest, hrest, offset, state => by
    have hlast : Separated cs (inner ++ rest) := by
      cases inner with
      | nil => exact separated_of_head hrest
      | cons => exact hseparated
    rw [List.append_assoc, List.append_assoc]
    obtain ⟨offset₁, h₁⟩ := hgap.outcome offset state (cs ++ (inner ++ rest))
    obtain ⟨offset₂, h₂⟩ := FormText.outcome hf hlast offset₁ state
    obtain ⟨offset₃, h₃⟩ := Layout.outcome hfs hrest offset₂ (give state f)
    exact ⟨offset₃, h₁.trans (h₂.trans h₃)⟩

end

/-- A text with given forms is read as these forms. -/
theorem Program.read {source : String} {fs : List Form} (h : Program source.toList fs) :
    Form.read source = .ok fs := by
  obtain ⟨layout, tail, hsource, hlayout, htail⟩ := h
  have hend : ∀ c ∈ tail.head?, isDelimiter c = true := by
    rcases htail with rfl | ⟨body, rfl, -⟩
    · exact fun c hc => by cases hc
    · exact fun c hc => by cases hc; rfl
  obtain ⟨offset, h⟩ := hlayout.outcome hend 0 ([], [])
  have hread : Form.read source = (between 0 ([], [])).outcome source.toList := rfl
  rw [hread, hsource, h, foldl_give_top, List.append_nil]
  -- Nothing is open, so the state at the end is finished.
  have hfinish : ∀ offset, (between offset ([], fs.reverse)).outcome [] = .ok fs := by
    intro offset
    exact congrArg Except.ok (List.reverse_reverse fs)
  rcases htail with rfl | hcomment
  · exact hfinish offset
  · have hend := (hcomment.reaches offset ([], fs.reverse)).outcome []
    rw [List.append_nil] at hend
    exact hend.trans (hfinish _)

end Grammar

end ConfinedLisp
