import ConfinedLisp.Proofs.GrammarExactness
import ConfinedLisp.Proofs.JsonTexts
import ConfinedLisp.Proofs.Relabelling

/-!
# Printed forms

A value that was read, and in which there is no string and no float, is printed as a text of the form
that it was read from. Reading that text gives the form back, so different forms have different texts.
Strings are printed bare and floats in another notation, which is why they are left out.

## Main definitions

- `Value.form?`: the form that a value has, its identities apart.
- `Value.IsRead`, `Value.Symbolic`: values that come from a text, and those without strings and floats.
- `Form.Spelled`: every symbol of a form is what its own text denotes.

## Main results

- `Grammar.Program.spelled`: the forms of a text are spelled.
- `Value.formText_display`: the text of a symbolic value is a text of its form.
- `Value.display_reads_back`: printing and reading again gives the same forms.
-/

namespace ConfinedLisp

/-! ### Values and their forms -/

mutual

/-- The form that a value has, if reading can give such a value. -/
def Value.form? : Value → Option Form
  | .int n => some (.int n)
  | .float x => some (.float x)
  | .str s => some (.str s)
  | .sym name => some (.sym name)
  | .list _ items => (Value.forms? items).map .list
  | _ => none

/-- The forms that some values have. -/
def Value.forms? : List Value → Option (List Form)
  | [] => some []
  | v :: vs => v.form?.bind fun f => (Value.forms? vs).map (f :: ·)

end

namespace Value

/-- A value among those that some text is read as. -/
def IsRead (v : Value) : Prop :=
  ∃ sourceName source s vs t, Eval.readForms sourceName source s = (.ok vs, t) ∧ v ∈ vs

/-- Neither the value nor anything in it is a string or a float. -/
def Symbolic (v : Value) : Prop := v.All fun part => part.kind ≠ .string ∧ part.kind ≠ .float

@[simp] theorem symbolic_int (n : Int64) : (int n).Symbolic :=
  (IsLeaf.all_iff (v := .int n) trivial).2 ⟨nofun, nofun⟩

@[simp] theorem symbolic_sym (name : String) : (sym name).Symbolic :=
  (IsLeaf.all_iff (v := .sym name) trivial).2 ⟨nofun, nofun⟩

@[simp] theorem symbolic_list {id : Identity} {items : List Value} :
    (list id items).Symbolic ↔ ∀ v ∈ items, v.Symbolic :=
  all_list.trans ⟨And.right, fun h => ⟨⟨nofun, nofun⟩, h⟩⟩

theorem forms?_cons {v : Value} {vs : List Value} {fs : List Form} :
    forms? (v :: vs) = some fs ↔
      ∃ f rest, v.form? = some f ∧ forms? vs = some rest ∧ fs = f :: rest := by
  rw [forms?, Option.bind_eq_some_iff]
  constructor
  · rintro ⟨f, hf, hmap⟩
    obtain ⟨rest, hrest, rfl⟩ := Option.map_eq_some_iff.1 hmap
    exact ⟨f, rest, hf, hrest, rfl⟩
  · rintro ⟨f, rest, hf, hrest, rfl⟩
    exact ⟨f, hf, by rw [hrest]; rfl⟩

theorem form?_list {id : Identity} {items : List Value} {f : Form} :
    (list id items).form? = some f ↔ ∃ fs, forms? items = some fs ∧ f = .list fs := by
  rw [form?, Option.map_eq_some_iff]
  exact ⟨fun ⟨fs, h, heq⟩ => ⟨fs, h, heq.symm⟩, fun ⟨fs, h, heq⟩ => ⟨fs, h, heq.symm⟩⟩

theorem eq_int_of_form? {v : Value} {n : Int64} (h : v.form? = some (.int n)) : v = .int n := by
  cases v with
  | int m => cases h; rfl
  | list id items => obtain ⟨_, -, heq⟩ := form?_list.1 h; cases heq
  | _ => cases h

theorem eq_sym_of_form? {v : Value} {name : String} (h : v.form? = some (.sym name)) :
    v = .sym name := by
  cases v with
  | sym name' => cases h; rfl
  | list id items => obtain ⟨_, -, heq⟩ := form?_list.1 h; cases heq
  | _ => cases h

theorem exists_list_of_form? {v : Value} {fs : List Form} (h : v.form? = some (.list fs)) :
    ∃ id items, v = .list id items ∧ forms? items = some fs := by
  cases v with
  | list id items =>
    obtain ⟨_, hitems, heq⟩ := form?_list.1 h
    cases heq
    exact ⟨id, items, rfl, hitems⟩
  | _ => cases h

/-- The form of a symbolic value is no float and no string. -/
theorem Symbolic.form?_ne {v : Value} (h : v.Symbolic) :
    (∀ x, v.form? ≠ some (.float x)) ∧ ∀ s, v.form? ≠ some (.str s) := by
  obtain ⟨hstring, hfloat⟩ := h.self
  cases v with
  | float x => exact absurd rfl hfloat
  | str s => exact absurd rfl hstring
  | list id items =>
    constructor <;> intro x hx <;> obtain ⟨_, -, heq⟩ := form?_list.1 hx <;> cases heq
  | _ => exact ⟨fun _ hx => (by cases hx), fun _ hx => (by cases hx)⟩

/-- Each of some values has one of their forms. -/
theorem exists_form?_of_mem {vs : List Value} {fs : List Form} (h : forms? vs = some fs) {v : Value}
    (hv : v ∈ vs) : ∃ f ∈ fs, v.form? = some f := by
  induction vs generalizing fs with
  | nil => cases hv
  | cons w vs ih =>
    obtain ⟨f, rest, hf, hrest, rfl⟩ := forms?_cons.1 h
    rcases List.mem_cons.1 hv with rfl | hv
    · exact ⟨f, List.mem_cons_self, hf⟩
    · obtain ⟨g, hg, hform⟩ := ih hrest hv
      exact ⟨g, List.mem_cons_of_mem _ hg, hform⟩

end Value

namespace Eval

mutual

/-- A form has a value, which has that form. -/
theorem ofForm_form? (f : Form) (s : Store) :
    ∃ v t, ofForm f s = (.ok v, t) ∧ v.form? = some f := by
  cases f with
  | list items =>
    obtain ⟨vs, t, hvs, hforms⟩ := ofForms_forms? items s
    have hlist : ofForm (.list items) s = newList vs t := by rw [ofForm, Eval.bind, hvs]
    exact ⟨_, _, hlist, Value.form?_list.2 ⟨items, hforms, rfl⟩⟩
  | _ => exact ⟨_, s, rfl, rfl⟩

theorem ofForms_forms? (fs : List Form) (s : Store) :
    ∃ vs t, ofForms fs s = (.ok vs, t) ∧ Value.forms? vs = some fs := by
  cases fs with
  | nil => exact ⟨[], s, rfl, rfl⟩
  | cons f fs =>
    obtain ⟨v, t, hv, hform⟩ := ofForm_form? f s
    obtain ⟨vs, u, hvs, hforms⟩ := ofForms_forms? fs t
    refine ⟨v :: vs, u, ?_, Value.forms?_cons.2 ⟨f, fs, hform, hforms, rfl⟩⟩
    rw [ofForms, Eval.bind, hv]
    show ((ofForms fs).bind _) t = _
    rw [Eval.bind, hvs]
    rfl

end

/-- The values that a text is read as have the forms of the text. -/
theorem forms?_of_readForms {sourceName source : String} {s t : Store} {vs : List Value}
    (h : readForms sourceName source s = (.ok vs, t)) :
    ∃ fs, Form.read source = .ok fs ∧ Value.forms? vs = some fs := by
  cases hread : Form.read source with
  | ok fs =>
    rw [readForms, hread] at h
    obtain ⟨vs', t', hvs, hforms⟩ := ofForms_forms? fs s
    cases hvs.symm.trans h
    exact ⟨fs, rfl, hforms⟩
  | error fault =>
    rw [readForms, hread] at h
    cases h

end Eval

/-! ### Symbols are spelled as they are named -/

/-- Every symbol of a form has a name that is an atom and denotes the symbol. -/
inductive Form.Spelled : Form → Prop
  | int (n : Int64) : Spelled (.int n)
  | float (x : Float) : Spelled (.float x)
  | str (s : String) : Spelled (.str s)
  | sym {name : String} (hne : name.toList ≠ [])
      (hname : ∀ c ∈ name.toList, Reading.isDelimiter c = false)
      (hdenotes : Literal.Denotes name.toList (.sym name)) : Spelled (.sym name)
  | list {items : List Form} (hitems : ∀ f ∈ items, f.Spelled) : Spelled (.list items)

namespace Grammar

open Reading

theorem spelled_quoteName : (Form.sym Form.quoteName).Spelled := by
  have hplain : Form.quoteName.toList.all (!isDelimiter ·) = true := rfl
  refine .sym (by decide) (fun c hc => ?_) (Literal.denotes_iff.2 rfl)
  rw [← Bool.not_eq_true']
  exact List.all_eq_true.1 hplain c hc

mutual

/-- A form that has a text is spelled. -/
theorem FormText.spelled : ∀ {f : Form} {cs : List Char}, FormText f cs → f.Spelled
  | _, _, .atom hne hrun hf => by
    cases hf with
    | int => exact .int _
    | large => exact .float _
    | decimal => exact .float _
    | symbol hwhole hdecimal =>
      refine .sym ?_ ?_ ?_
      · simpa using hne
      · simpa using hrun
      · rw [String.toList_ofList]
        exact .symbol hwhole hdecimal
  | _, _, .string _ => .str _
  | _, _, .quote _ hf => .list <|
    List.forall_mem_cons.2 ⟨spelled_quoteName, List.forall_mem_singleton.2 (FormText.spelled hf)⟩
  | _, _, .list _ hfs => .list (Layout.spelled hfs)

theorem Layout.spelled : ∀ {fs : List Form} {cs : List Char}, Layout fs cs → ∀ f ∈ fs, f.Spelled
  | _, _, .nil _ => fun _ hmem => by cases hmem
  | _, _, .cons _ hf _ hfs => List.forall_mem_cons.2 ⟨FormText.spelled hf, Layout.spelled hfs⟩

end

/-- The forms of a text are spelled. -/
theorem Program.spelled {cs : List Char} {fs : List Form} (h : Program cs fs) :
    ∀ f ∈ fs, f.Spelled := by
  obtain ⟨_, _, -, hlayout, -⟩ := h
  exact hlayout.spelled

/-- A text is read as the forms that are laid out in it. -/
theorem Layout.read {text : String} {fs : List Form} (h : Layout fs text.toList) :
    Form.read text = .ok fs :=
  Program.read ⟨_, [], (List.append_nil _).symm, h, .inl rfl⟩

/-! ### Printed values are laid out -/

theorem whole_chars (i : Int) : Literal.Whole (Integer.chars i) i := by
  refine ⟨decide (i < 0), Integer.digits i.natAbs, Integer.digits_isDigits _, ?_, ?_⟩
  · by_cases h : i < 0 <;> simp [Integer.chars, Literal.sign, h]
  · rw [Integer.ofDigits_digits]
    by_cases h : i < 0
    · rw [decide_eq_true h, if_pos rfl, Int.ofNat_natAbs_of_nonpos (Int.le_of_lt h), Int.neg_neg]
    · rw [decide_eq_false h, if_neg Bool.false_ne_true, Int.natAbs_of_nonneg (Int.not_lt.1 h)]

/-- The decimal text of a machine integer is a text of that integer. -/
theorem formText_int (n : Int64) : FormText (.int n) (Integer.chars n.toInt) := by
  have hdigits : ∀ c ∈ Integer.digits n.toInt.natAbs, isDelimiter c = false :=
    fun c hc => isDelimiter_of_isDigit (Integer.isDigit_of_mem_digits hc)
  have hne := (Integer.digits_isDigits n.toInt.natAbs).1
  refine .atom ?_ ?_ (.int (whole_chars n.toInt))
  · unfold Integer.chars
    split
    · exact List.cons_ne_nil _ _
    · exact hne
  · unfold Integer.chars
    split
    · exact List.forall_mem_cons.2 ⟨rfl, hdigits⟩
    · exact hdigits

/-- Where a gap follows, no atom goes on. -/
theorem Gap.separates {gap : List Char} (h : Gap gap) (hne : gap ≠ []) (cs rest : List Char) :
    Separated cs (gap ++ rest) := by
  cases gap with
  | nil => exact absurd rfl hne
  | cons d gap => exact separated_of_head h.isDelimiter_head

/-- A gap can be laid out before forms. -/
theorem Layout.afterGap {gap base : List Char} {fs : List Form} (hgap : Gap gap)
    (h : Layout fs base) : Layout fs (gap ++ base) := by
  cases h with
  | nil hgap' => exact .nil (hgap.append hgap')
  | cons hgap' hf hseparated hfs =>
    rw [← List.append_assoc]
    exact .cons (hgap.append hgap') hf hseparated hfs

/-- The texts of some values, with a gap between them, are a layout of their forms. -/
theorem layout_intercalate {gap : List Char} (hgap : Gap gap) (hne : gap ≠ []) {vs : List Value}
    {fs : List Form} (hforms : Value.forms? vs = some fs)
    (htexts : ∀ v ∈ vs, ∀ f ∈ fs, v.form? = some f → FormText f v.display.toList) :
    Layout fs (List.intercalate gap (vs.map fun v => v.display.toList)) := by
  induction vs generalizing fs with
  | nil =>
    cases hforms
    exact .nil .nil
  | cons v vs ih =>
    obtain ⟨f, fs, hform, hrest, rfl⟩ := Value.forms?_cons.1 hforms
    have hfirst := htexts v List.mem_cons_self f List.mem_cons_self hform
    have hothers := ih hrest fun w hw g hg =>
      htexts w (List.mem_cons_of_mem _ hw) g (List.mem_cons_of_mem _ hg)
    cases vs with
    | nil =>
      cases hrest
      have hlayout := Layout.cons .nil hfirst (separated_of_head fun _ hc => by cases hc) (.nil .nil)
      simpa using hlayout
    | cons w vs =>
      have hlayout := Layout.cons .nil hfirst (hgap.separates hne _ _) (hothers.afterGap hgap)
      rwa [List.map_cons, List.map_cons, List.intercalate_cons_cons, List.append_assoc]

end Grammar

namespace Value

theorem toList_intercalate_display (separator : String) (vs : List Value) :
    (String.intercalate separator (vs.map display)).toList =
      List.intercalate separator.toList (vs.map fun v => v.display.toList) := by
  rw [String.toList_intercalate, List.map_map]
  rfl

/-- The text of a symbolic value is a text of its form, if the symbols in it are spelled. -/
theorem formText_display {f : Form} (hf : f.Spelled) {v : Value} (hform : v.form? = some f)
    (hv : v.Symbolic) : Grammar.FormText f v.display.toList := by
  induction hf generalizing v with
  | int n =>
    rw [eq_int_of_form? hform, display, Integer.text, String.toList_ofList]
    exact Grammar.formText_int n
  | float x => exact absurd hform (hv.form?_ne.1 x)
  | str s => exact absurd hform (hv.form?_ne.2 s)
  | sym hne hname hdenotes =>
    rw [eq_sym_of_form? hform]
    exact .atom hne hname hdenotes
  | list hitems ih =>
    obtain ⟨id, items, rfl, hforms⟩ := exists_list_of_form? hform
    have hparts := symbolic_list.1 hv
    have hblank : Grammar.Gap [' '] := .blank (by decide) .nil
    have hlayout := Grammar.layout_intercalate hblank (List.cons_ne_nil _ _) hforms
      fun w hw g hg hg' => ih g hg hg' (hparts w hw)
    rw [display, Relabelling.displayItems_eq, String.toList_append, String.toList_append,
      toList_intercalate_display, List.append_assoc]
    exact .list .round hlayout

theorem structItems_of_forms? {vs ws : List Value} {fs : List Form} (hvs : forms? vs = some fs)
    (hws : forms? ws = some fs)
    (h : ∀ v ∈ vs, ∀ f ∈ fs, ∀ w, v.form? = some f → w.form? = some f → v.structEq w = true) :
    structItems vs ws = true := by
  induction vs generalizing ws fs with
  | nil =>
    cases hvs
    cases ws with
    | nil => rfl
    | cons w ws => obtain ⟨_, _, -, -, heq⟩ := forms?_cons.1 hws; cases heq
  | cons v vs ih =>
    obtain ⟨f, fs, hf, hrest, rfl⟩ := forms?_cons.1 hvs
    cases ws with
    | nil => cases hws
    | cons w ws =>
      obtain ⟨g, gs, hg, hrest', heq⟩ := forms?_cons.1 hws
      cases heq
      rw [structItems, Bool.and_eq_true]
      refine ⟨h v List.mem_cons_self f List.mem_cons_self w hf hg, ih hrest hrest' ?_⟩
      exact fun x hx e he => h x (List.mem_cons_of_mem _ hx) e (List.mem_cons_of_mem _ he)

/-- Values of one form are structurally equal, if there is no float in it. -/
theorem structEq_of_form? {f : Form} (hf : f.Spelled) {v w : Value} (hv : v.form? = some f)
    (hw : w.form? = some f) (hsymbolic : v.Symbolic) : v.structEq w = true := by
  induction hf generalizing v w with
  | int n =>
    rw [eq_int_of_form? hv, eq_int_of_form? hw]
    simp [structEq, strictEq]
  | float x => exact absurd hv (hsymbolic.form?_ne.1 x)
  | str s => exact absurd hv (hsymbolic.form?_ne.2 s)
  | sym hne hname hdenotes =>
    rw [eq_sym_of_form? hv, eq_sym_of_form? hw]
    simp [structEq, strictEq]
  | list hitems ih =>
    obtain ⟨id, items, rfl, hforms⟩ := exists_list_of_form? hv
    obtain ⟨id', items', rfl, hforms'⟩ := exists_list_of_form? hw
    have hparts := symbolic_list.1 hsymbolic
    have hsame := structItems_of_forms? hforms hforms'
      fun x hx e he y hx' hy' => ih e he hx' hy' (hparts x hx)
    rw [structEq, hsame, Bool.or_true]

/-! ### Reading what was printed -/

theorem IsRead.spelled {v : Value} (h : v.IsRead) : ∃ f, v.form? = some f ∧ f.Spelled := by
  obtain ⟨_, source, s, vs, t, hread, hv⟩ := h
  obtain ⟨fs, hsource, hforms⟩ := Eval.forms?_of_readForms hread
  obtain ⟨f, hf, hform⟩ := exists_form?_of_mem hforms hv
  exact ⟨f, hform, (Grammar.program_of_read hsource).spelled f hf⟩

/-- The text of a symbolic value that was read has its form and no other. -/
theorem IsRead.read_display {v : Value} (h : v.IsRead) (hv : v.Symbolic) :
    ∃ f, v.form? = some f ∧ f.Spelled ∧ Form.read v.display = .ok [f] := by
  obtain ⟨f, hform, hspelled⟩ := h.spelled
  have hlayout := Grammar.Layout.cons .nil (formText_display hspelled hform hv)
    (Grammar.separated_of_head fun _ hc => by cases hc) (.nil .nil)
  rw [List.nil_append, List.append_nil] at hlayout
  exact ⟨f, hform, hspelled, hlayout.read⟩

/-- A value that was read and has no string and no float in it is read back from its text, up to the
identities of its lists. So two such values with one text are structurally equal, and a text of such
values has the same forms as their texts, whatever blanks and comments are put between these. -/
theorem display_reads_back :
    (∀ v : Value, v.IsRead → v.Symbolic → ∃ f, v.form? = some f ∧ Form.readOne v.display = .ok f ∧
      ∀ s, ∃ w t, Eval.ofForm f s = (.ok w, t) ∧ w.form? = some f ∧ v.structEq w = true) ∧
    (∀ v w : Value, v.IsRead → w.IsRead → v.Symbolic → w.Symbolic → v.display = w.display →
      v.form? = w.form? ∧ v.structEq w = true) ∧
    ∀ (sourceName source separator : String) (s t : Store) (vs : List Value),
      Eval.readForms sourceName source s = (.ok vs, t) → (∀ v ∈ vs, v.Symbolic) →
      Grammar.Gap separator.toList → separator ≠ "" →
      ∃ fs, Form.read source = .ok fs ∧ forms? vs = some fs ∧
        Form.read (String.intercalate separator (vs.map display)) = .ok fs := by
  refine ⟨fun v hread hv => ?_, fun v w hread hread' hv hw hsame => ?_, ?_⟩
  · obtain ⟨f, hform, hspelled, hback⟩ := hread.read_display hv
    refine ⟨f, hform, by rw [Form.readOne, hback], fun s => ?_⟩
    obtain ⟨w, t, hw, hform'⟩ := Eval.ofForm_form? f s
    exact ⟨w, t, hw, hform', structEq_of_form? hspelled hform hform' hv⟩
  · obtain ⟨f, hform, hspelled, hback⟩ := hread.read_display hv
    obtain ⟨g, hform', -, hback'⟩ := hread'.read_display hw
    rw [hsame, hback'] at hback
    cases hback
    exact ⟨hform.trans hform'.symm, structEq_of_form? hspelled hform hform' hv⟩
  · intro sourceName source separator s t vs hread hvs hgap hne
    obtain ⟨fs, hsource, hforms⟩ := Eval.forms?_of_readForms hread
    have hspelled := (Grammar.program_of_read hsource).spelled
    have hlayout := Grammar.layout_intercalate hgap (by simpa using hne) hforms
      fun v hv f hf hform => formText_display (hspelled f hf) hform (hvs v hv)
    rw [← toList_intercalate_display] at hlayout
    exact ⟨fs, hsource, hforms, hlayout.read⟩

/-- A quoted list in two kinds of brackets, with the least integer and with symbols that nearly are
numbers, is read back from its text; as are two forms with a comment between their texts. -/
theorem display_reads_back_nearly_numbers :
    (∃ f v t, Eval.readForms "" "'[-9223372036854775808 -0 1+ \x7b-\x7d]" .empty = (.ok [v], t) ∧
      v.display = "(quote (-9223372036854775808 0 1+ (-)))" ∧
      v.form? = some f ∧ Form.readOne v.display = .ok f) ∧
    ∃ vs t, Eval.readForms "" "nil'a" .empty = (.ok vs, t) ∧
      ∃ fs, Form.read "nil'a" = .ok fs ∧ fs.length = 2 ∧
        Form.read (String.intercalate ";x\n" (vs.map display)) = .ok fs := by
  obtain ⟨hback, -, hjoined⟩ := display_reads_back
  constructor
  · have hsource : Form.read "'[-9223372036854775808 -0 1+ \x7b-\x7d]" =
        .ok [.quoted (.list [.int Int64.minValue, .int 0, .sym "1+", .list [.sym "-"]])] := rfl
    have hread : ∃ t, Eval.readForms "" "'[-9223372036854775808 -0 1+ \x7b-\x7d]" .empty =
        (.ok [.list 2 [.sym "quote", .list 1 [.int Int64.minValue, .int 0, .sym "1+",
          .list 0 [.sym "-"]]]], t) := by
      rw [Eval.readForms, hsource]
      exact ⟨_, rfl⟩
    obtain ⟨t, hread⟩ := hread
    obtain ⟨f, hform, hone, -⟩ := hback _ ⟨_, _, _, _, _, hread, List.mem_singleton_self _⟩ (by simp)
    exact ⟨f, _, t, hread, rfl, hform, hone⟩
  · have hsource : Form.read "nil'a" = .ok [.sym "nil", .quoted (.sym "a")] := rfl
    have hread : ∃ t, Eval.readForms "" "nil'a" .empty =
        (.ok [.sym "nil", .list 0 [.sym "quote", .sym "a"]], t) := by
      rw [Eval.readForms, hsource]
      exact ⟨_, rfl⟩
    obtain ⟨t, hread⟩ := hread
    have hcomment : Grammar.Comment [';', 'x'] := ⟨['x'], rfl, by simp [Grammar.EndsLine]⟩
    have hgap : Grammar.Gap ";x\n".toList := .comment hcomment (.inl rfl) .nil
    obtain ⟨fs, hfs, -, hagain⟩ := hjoined _ _ ";x\n" _ _ _ hread (by simp) hgap (by decide)
    cases hsource.symm.trans hfs
    exact ⟨_, t, hread, _, hsource, rfl, hagain⟩

end Value

end ConfinedLisp
