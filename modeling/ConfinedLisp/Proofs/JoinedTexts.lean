import ConfinedLisp.Proofs.GrammarExactness

/-!
# Reading a text after another one

Where the lines of a text that can be read come before another text, the other text is read as it is
read by itself: its forms come after those of the lines before it, and where reading it fails it fails
at the same place, counted from the beginning. For the state of reading between two characters can
tell what came before only by the number of bytes read and by the forms completed, and no character
makes anything of these. It is all the same whether the first text ends with an atom, a comment or a
gap, since the end of a line ends them all.

## Main definitions

- `Reading.after`: a state of reading, with another text before.
- `Fault.after`: a failure to read, with another text before.

## Main results

- `Reading.outcome_after`: how a text is read after another one.
- `Form.read_join`: the forms of a text after another one, or its failure.
-/

namespace ConfinedLisp

namespace Wanted

/-- What was wanted, if more came before. The very start is then a place between two forms. -/
def after : Wanted → Wanted
  | .program => .formOrEnd
  | wanted => wanted

end Wanted

/-- A failure to read, if so many bytes came before. -/
def Fault.after (size : Nat) (fault : Fault) : Fault :=
  ⟨fault.wanted.after, size + fault.offset, fault.length⟩

namespace Mode

/-- Where the string begins that characters belong to. -/
def start? : Mode → Option Nat
  | .string start _ | .escape start _ => some start
  | _ => none

/-- What the last characters belong to, if so many bytes came before. -/
def after (size : Nat) : Mode → Mode
  | .string start chars => .string (size + start) chars
  | .escape start chars => .escape (size + start) chars
  | mode => mode

end Mode

namespace Reading

variable {r r' : Reading} {c : Char}

/-- The state of reading, if so many bytes with some forms came before. -/
def after (size : Nat) (base : List Form) (r : Reading) : Reading :=
  ⟨size + r.offset, r.mode.after size, r.pending, r.forms ++ base⟩

/-! ### At the very start nothing is open -/

/-- Nothing is open at the very start, and nothing was open where a string begins that begins
there. -/
structure Early (r : Reading) : Prop where
  offset : r.offset = 0 → r.pending = []
  string : r.mode.start? = some 0 → r.pending = []

theorem early_start : start.Early := ⟨fun _ => rfl, nofun⟩

theorem pending_supply (h : r.pending = []) (f : Form) : (r.supply f).pending = [] := by
  simp [supply, h, deliver]

theorem Early.supply (h : r.Early) (f : Form) : (r.supply f).Early :=
  ⟨fun h0 => pending_supply (h.offset h0) f, nofun⟩

theorem Early.stepGap (h : r.Early) (hmode : r.mode = .gap) (hstep : r.stepGap c = .ok r') :
    r'.mode.start? = some 0 → r'.pending = [] := by
  obtain ⟨offset, mode, pending, forms⟩ := r
  obtain rfl := hmode
  intro hstart
  have hbetween : (between offset (pending, forms)).stepGap c = .ok r' := hstep
  rcases stepGap_cases hbetween with ⟨-, rfl⟩ | ⟨-, rfl⟩ | ⟨-, rfl⟩ | ⟨-, rfl⟩ | ⟨b, -, rfl⟩ |
    ⟨b, items, rest, -, -, rfl⟩ | ⟨-, rfl⟩
  case inr.inr.inl => exact h.offset (Option.some.inj hstart)
  all_goals cases hstart

theorem Early.step (h : r.Early) (hstep : r.step c = .ok r') : r'.Early := by
  unfold Reading.step at hstep
  split at hstep
  · next next hnext =>
    cases hstep
    refine ⟨fun h0 => absurd (Nat.eq_zero_of_add_eq_zero h0).2 (Nat.ne_of_gt c.utf8Size_pos), ?_⟩
    show next.mode.start? = some 0 → next.pending = []
    unfold stepMode at hnext
    split at hnext
    · next hmode => exact h.stepGap hmode hnext
    · next hmode =>
      cases hnext
      split
      · nofun
      · exact h.string
    · next chars hmode =>
      split at hnext
      · exact (h.supply _).stepGap rfl hnext
      · cases hnext
        nofun
    · next start chars hmode =>
      have hstring : start = 0 → r.pending = [] := fun h0 => h.string (by rw [hmode, h0]; rfl)
      split at hnext
      · cases hnext
        nofun
      · split at hnext <;> cases hnext <;> exact fun h0 => hstring (Option.some.inj h0)
    · next start chars hmode =>
      have hstring : start = 0 → r.pending = [] := fun h0 => h.string (by rw [hmode, h0]; rfl)
      split at hnext
      · cases hnext
        exact fun h0 => hstring (Option.some.inj h0)
      · cases hnext
  · cases hstep

/-! ### What came before makes no difference -/

section

variable {size : Nat} (base : List Form)

theorem deliver_append (forms : List Form) (pending : List Pending) (f : Form) :
    deliver (forms ++ base) pending f =
      ((deliver forms pending f).1, (deliver forms pending f).2 ++ base) := by
  induction pending generalizing f with
  | nil => rfl
  | cons p rest ih =>
    cases p with
    | quoted => exact ih f.quoted
    | list bracket items => rfl

theorem supply_after (size : Nat) (r : Reading) (f : Form) :
    (r.after size base).supply f = (r.supply f).after size base := by
  simp [supply, after, deliver_append, Mode.after]

theorem close?_after (size : Nat) (r : Reading) (b : Bracket) :
    (r.after size base).close? b = (r.close? b).map (after size base) := by
  obtain ⟨offset, mode, pending, forms⟩ := r
  rcases pending with _ | ⟨p, rest⟩
  · rfl
  · cases p with
    | quoted => rfl
    | list opened items =>
      by_cases hb : opened = b
      · have hsupply := supply_after base size ⟨offset, mode, rest, forms⟩ (.list items.reverse)
        simpa [close?, after, hb] using hsupply
      · simp [close?, after, hb]

theorem wantedAt_after (hsize : 0 < size) {position : Nat} {pending : List Pending}
    (h : position = 0 → pending = []) :
    wantedAt (size + position) pending = (wantedAt position pending).after := by
  have hne : size + position ≠ 0 := Nat.ne_of_gt (Nat.add_pos_left hsize position)
  unfold wantedAt
  rw [if_neg hne]
  by_cases h0 : position = 0
  · rw [if_pos h0, h h0]
    rfl
  · rw [if_neg h0]
    split <;> rfl

theorem faultAt_after (hsize : 0 < size) {position : Nat} (h : position = 0 → r.pending = []) :
    (r.after size base).faultAt (size + position) = (r.faultAt position).after size := by
  have hwanted := wantedAt_after hsize h
  simp [faultAt, Fault.after, after, hwanted]

/-- An outcome of reading, if more came before. -/
def outcomeAfter {α : Type} (size : Nat) (g : α → α) : Except Fault α → Except Fault α
  | .ok a => .ok (g a)
  | .error fault => .error (fault.after size)

theorem stepGap_after (hsize : 0 < size) (h : r.Early) (c : Char) :
    (r.after size base).stepGap c = outcomeAfter size (after size base) (r.stepGap c) := by
  have hclose := close?_after base size r
  have hfault := faultAt_after base hsize h.offset
  unfold stepGap
  split
  · rfl
  split
  · rfl
  split
  · rfl
  split
  · simp [outcomeAfter, after]
  split
  · rfl
  · next b _ hb =>
    rw [hclose b]
    cases r.close? b with
    | some r => rfl
    | none => exact congrArg Except.error hfault
  · rfl

theorem stepMode_after (hsize : 0 < size) (h : r.Early) (c : Char) :
    (r.after size base).stepMode c = outcomeAfter size (after size base) (r.stepMode c) := by
  obtain ⟨offset, mode, pending, forms⟩ := r
  cases mode with
  | gap => exact stepGap_after base hsize h c
  | comment =>
    simp only [stepMode, after, Mode.after, outcomeAfter]
    split <;> rfl
  | atom chars =>
    have hstep := stepGap_after base hsize (h.supply (.ofAtom chars.reverse)) c
    rw [← supply_after] at hstep
    simp only [stepMode, after, Mode.after]
    split
    · exact hstep
    · rfl
  | string start chars =>
    have hsupply := supply_after base size ⟨offset, .string start chars, pending, forms⟩
      (.str (String.ofList chars.reverse))
    simp only [stepMode, after, Mode.after]
    split
    · exact congrArg Except.ok hsupply
    split <;> rfl
  | escape start chars =>
    have hfault := faultAt_after base hsize fun h0 => h.string (congrArg some h0)
    simp only [stepMode, after, Mode.after]
    split
    · rfl
    · exact congrArg Except.error hfault

theorem step_after (hsize : 0 < size) (h : r.Early) (c : Char) :
    (r.after size base).step c = outcomeAfter size (after size base) (r.step c) := by
  rw [step, step, stepMode_after base hsize h]
  cases r.stepMode c with
  | ok next => exact congrArg (fun offset => Except.ok (Reading.mk offset _ _ _)) (Nat.add_assoc ..)
  | error fault => rfl

/-- At the end of a text nothing may be open. -/
theorem finish_between_after (hsize : 0 < size) (offset : Nat) (state : List Pending × List Form)
    (h : offset = 0 → state.1 = []) :
    ((between offset state).after size base).finish =
      outcomeAfter size (base.reverse ++ ·) (between offset state).finish := by
  have hwanted := wantedAt_after hsize h
  simp only [finish, between, after, Mode.after]
  by_cases hempty : state.1.isEmpty
  · simp [hempty, outcomeAfter]
  · simp [hempty, outcomeAfter, Fault.after, hwanted]

theorem finish_after (hsize : 0 < size) (h : r.Early) :
    (r.after size base).finish = outcomeAfter size (base.reverse ++ ·) r.finish := by
  obtain ⟨offset, mode, pending, forms⟩ := r
  cases mode with
  | gap | comment => exact finish_between_after base hsize offset (pending, forms) h.offset
  | atom chars =>
    have hsupply := finish_between_after base hsize offset
      (give (pending, forms) (.ofAtom chars.reverse)) (h.supply (.ofAtom chars.reverse)).offset
    exact (congrArg finish (supply_after base size _ _)).trans hsupply
  | string start chars | escape start chars =>
    exact congrArg Except.error (faultAt_after base hsize fun h0 => h.string (congrArg some h0))

/-- A text is read after another one as it is by itself. -/
theorem outcome_after (hsize : 0 < size) (h : r.Early) (cs : List Char) :
    (r.after size base).outcome cs = outcomeAfter size (base.reverse ++ ·) (r.outcome cs) := by
  induction cs generalizing r with
  | nil => exact finish_after base hsize h
  | cons c cs ih =>
    have hstep := step_after base hsize h c
    cases hnext : r.step c with
    | ok next =>
      rw [hnext] at hstep
      rw [outcome_of_step hstep, outcome_of_step hnext]
      exact ih (h.step hnext)
    | error fault =>
      rw [hnext] at hstep
      rw [outcome, outcome, run_cons, run_cons, hstep, hnext]
      rfl

end

/-! ### The end of a line -/

theorem step_newline_between (offset : Nat) (state : List Pending × List Form) {forms : List Form}
    (h : (between offset state).finish = .ok forms) :
    (between offset state).step '\n' = .ok (start.after (offset + 1) forms.reverse) := by
  obtain ⟨pending, completed⟩ := state
  cases pending with
  | nil =>
    cases h
    rw [List.reverse_reverse]
    rfl
  | cons p rest => cases h

/-- The end of a line ends an atom and a comment. -/
theorem step_newline {forms : List Form} (h : r.finish = .ok forms) :
    r.step '\n' = .ok (start.after (r.offset + 1) forms.reverse) := by
  obtain ⟨offset, mode, pending, completed⟩ := r
  cases mode with
  | gap | comment => exact step_newline_between offset (pending, completed) h
  | atom chars =>
    exact step_newline_between offset (give (pending, completed) (.ofAtom chars.reverse)) h
  | string start chars | escape start chars => cases h

/-- Past the end of a line it shows of a text that can be read only how long it is and which forms it
has. -/
theorem outcome_newline {cs : List Char} {forms : List Form} (h : start.outcome cs = .ok forms)
    (ds : List Char) : start.outcome (cs ++ '\n' :: ds) =
      (start.after ((String.ofList cs).utf8ByteSize + 1) forms.reverse).outcome ds := by
  cases hrun : start.run cs with
  | error fault =>
    rw [outcome, hrun] at h
    cases h
  | ok r =>
    rw [outcome, hrun] at h
    have hoffset : r.offset = (String.ofList cs).utf8ByteSize :=
      (offset_run hrun).trans (Nat.zero_add _)
    have hsplit : start.outcome (cs ++ '\n' :: ds) = r.outcome ('\n' :: ds) := by
      rw [outcome, run_append, hrun]
      rfl
    rw [hsplit, outcome_of_step (step_newline h), hoffset]

end Reading

/-- A text after another one that can be read: the forms of both, or the failure to read it. -/
theorem Form.read_join {first : String} {forms : List Form} (h : read first = .ok forms)
    (second : String) :
    read (first ++ "\n" ++ second) =
      Reading.outcomeAfter (first.utf8ByteSize + 1) (forms ++ ·) (read second) := by
  have htext : (first ++ "\n" ++ second).toList = first.toList ++ '\n' :: second.toList := by
    simp
  have hread : Reading.start.outcome first.toList = .ok forms := h
  have hjoin := Reading.outcome_newline hread second.toList
  rw [String.ofList_toList, ← htext] at hjoin
  have hafter := Reading.outcome_after forms.reverse (Nat.succ_pos first.utf8ByteSize)
    Reading.early_start second.toList
  rw [List.reverse_reverse] at hafter
  exact hjoin.trans hafter

end ConfinedLisp
