import ConfinedLisp.Form

/-!
# What an atom denotes

An atom, a run of characters without delimiters, is a number if it has the shape of one, and the
symbol of that name otherwise. The shapes are stated here as grammars, apart from the way in which
an atom is taken to pieces, and every atom is shown to denote one form and no other.

## Main definitions

- `Literal.Whole`, `Literal.IsDecimal`: the shapes of whole numbers and of decimals.
- `Literal.Denotes`: the form that an atom denotes.

## Main results

- `Literal.denotes_iff`: an atom denotes what `Form.ofAtom` makes of it.
- `Literal.Whole.ofAtom`, `Literal.IsDecimal.ofAtom`: a text of one of the two shapes denotes a
  double.
-/

namespace ConfinedLisp

namespace Literal

/-- One digit or more. -/
def Digits (ds : List Char) : Prop := ds ≠ [] ∧ ∀ d ∈ ds, Integer.isDigit d = true

/-- The sign of a number. -/
def sign (negative : Bool) : List Char := if negative then ['-'] else []

/-- A whole number: an optional minus sign and digits. -/
def Whole (cs : List Char) (n : Int) : Prop :=
  ∃ negative ds, Digits ds ∧ cs = sign negative ++ ds ∧
    n = if negative then -(Integer.ofDigits ds : Int) else Integer.ofDigits ds

/-- A fraction that may be missing: a point and digits. -/
inductive Fraction : List Char → Option (List Char) → Prop
  | missing : Fraction [] none
  | point {ds : List Char} (hds : Digits ds) : Fraction ('.' :: ds) (some ds)

/-- An exponent that may be missing: a mark, an optional sign and digits. -/
inductive Exponent : List Char → Prop
  | missing : Exponent []
  | marked {mark : Char} {sign ds : List Char} (hmark : mark = 'e' ∨ mark = 'E')
      (hsign : sign = [] ∨ sign = ['+'] ∨ sign = ['-']) (hds : Digits ds) :
      Exponent (mark :: (sign ++ ds))

/-- A decimal: a whole number with a fraction, an exponent or both. -/
def IsDecimal (cs : List Char) : Prop :=
  ∃ negative whole fraction places exponent, Digits whole ∧ Fraction fraction places ∧
    Exponent exponent ∧ fraction ++ exponent ≠ [] ∧
    cs = sign negative ++ (whole ++ (fraction ++ exponent))

/-- What an atom denotes: a whole number the machine integer equal to it, or the double of the same
text if there is none; a decimal the double of the same text; anything else a symbol. -/
inductive Denotes (cs : List Char) : Form → Prop
  | int {i : Int64} (hwhole : Whole cs i.toInt) : Denotes cs (.int i)
  | large {n : Int} {x : Float} (hwhole : Whole cs n) (hlarge : ∀ i : Int64, i.toInt ≠ n)
      (hx : Decimal.ofText? cs = some x) : Denotes cs (.float x)
  | decimal {x : Float} (hdecimal : IsDecimal cs) (hx : Decimal.ofText? cs = some x) :
      Denotes cs (.float x)
  | symbol (hwhole : ∀ n, ¬ Whole cs n) (hdecimal : ¬ IsDecimal cs) :
      Denotes cs (.sym (String.ofList cs))

/-! ### Taking numbers to pieces -/

/-- A text that does not go on with a digit. -/
def NoDigit (cs : List Char) : Prop := ∀ c ∈ cs.head?, Integer.isDigit c = false

theorem Exponent.noDigit {cs : List Char} (h : Exponent cs) : NoDigit cs := by
  intro c hc
  cases h with
  | missing => cases hc
  | marked hmark =>
    cases hc
    rcases hmark with rfl | rfl <;> decide

theorem Fraction.noDigit {cs exponent : List Char} {places : Option (List Char)}
    (h : Fraction cs places) (hexponent : Exponent exponent) : NoDigit (cs ++ exponent) := by
  cases h with
  | missing => exact hexponent.noDigit
  | point => exact fun c hc => by cases hc; decide

theorem spanDigits_append {ds rest : List Char} (hds : Digits ds) (hrest : NoDigit rest) :
    Decimal.spanDigits (ds ++ rest) = (ds, rest) := by
  have hdrop : rest.dropWhile Integer.isDigit = rest ∧ rest.takeWhile Integer.isDigit = [] := by
    cases rest with
    | nil => exact ⟨rfl, rfl⟩
    | cons c rest => simp [hrest c rfl]
  rw [Decimal.spanDigits, List.takeWhile_append_of_pos hds.2, List.dropWhile_append_of_pos hds.2,
    hdrop.1, hdrop.2, List.append_nil]

/-- The parts of a number are the ones it was put together from. -/
theorem parts_append {whole fraction exponent : List Char} {places : Option (List Char)}
    (hwhole : Digits whole) (hfraction : Fraction fraction places) (hexponent : Exponent exponent) :
    Decimal.parts (whole ++ (fraction ++ exponent)) = (whole, places, exponent) := by
  rw [Decimal.parts, spanDigits_append hwhole (hfraction.noDigit hexponent)]
  cases hfraction with
  | missing =>
    cases hexponent with
    | missing => rfl
    | marked hmark => rcases hmark with rfl | rfl <;> rfl
  | point hds =>
    simp only [List.cons_append, spanDigits_append hds hexponent.noDigit]

/-- A text whose parts are not empty is put together from them. -/
theorem append_of_parts {cs whole rest : List Char} {places : Option (List Char)}
    (h : Decimal.parts cs = (whole, places, rest)) (hwhole : whole ≠ [])
    (hplaces : places ≠ some []) :
    Digits whole ∧ ∃ fraction, Fraction fraction places ∧ cs = whole ++ (fraction ++ rest) := by
  have hdigits : ∀ ds : List Char, ∀ d ∈ ds.takeWhile Integer.isDigit, Integer.isDigit d = true :=
    fun ds => List.all_eq_true.1 List.all_takeWhile
  have hsplit := List.takeWhile_append_dropWhile (p := Integer.isDigit) (l := cs)
  simp only [Decimal.parts, Decimal.spanDigits] at h
  split at h
  · next after hafter =>
    cases h
    refine ⟨⟨hwhole, hdigits cs⟩, _, .point ⟨fun h => hplaces (by rw [h]), hdigits after⟩, ?_⟩
    rw [hafter] at hsplit
    simpa using hsplit.symm
  · cases h
    exact ⟨⟨hwhole, hdigits cs⟩, [], .missing, hsplit.symm⟩

/-- Digits do not begin with a sign. -/
theorem Digits.exists_cons {ds : List Char} (h : Digits ds) :
    ∃ d rest, ds = d :: rest ∧ Integer.isDigit d = true ∧ d ≠ '+' ∧ d ≠ '-' := by
  obtain ⟨hne, hdigits⟩ := h
  cases ds with
  | nil => exact absurd rfl hne
  | cons d rest =>
    have hd := hdigits d (by simp)
    refine ⟨d, rest, rfl, hd, ?_, ?_⟩ <;> rintro rfl <;> revert hd <;> decide

theorem Digits.accepted {ds : List Char} (h : Digits ds) :
    (ds.isEmpty || !ds.all Integer.isDigit) = false := by
  obtain ⟨hne, hdigits⟩ := h
  simpa [List.isEmpty_iff, hne] using hdigits

theorem digits_of_accepted {ds : List Char}
    (h : ¬ (ds.isEmpty || !ds.all Integer.isDigit) = true) : Digits ds := by
  simpa [Digits, List.isEmpty_iff, not_or] using h

theorem Exponent.exists_eq {cs : List Char} (h : Exponent cs) :
    ∃ e, Decimal.exponent? cs = some e := by
  cases h with
  | missing => exact ⟨0, rfl⟩
  | @marked mark sign ds hmark hsign hds =>
    have hmark : (decide (mark = 'e') || decide (mark = 'E')) = true := by simpa using hmark
    have hds' := hds.accepted
    simp only [Decimal.exponent?, hmark, if_true]
    rcases hsign with rfl | rfl | rfl
    · obtain ⟨d, rest, rfl, -, hplus, hminus⟩ := hds.exists_cons
      simpa [hplus, hminus] using hds.2
    · simp [hds']
    · simp [hds']

theorem exponent_of_eq {cs : List Char} {e : Int} (h : Decimal.exponent? cs = some e) :
    Exponent cs := by
  cases cs with
  | nil => exact .missing
  | cons mark rest =>
    unfold Decimal.exponent? at h
    dsimp only at h
    split at h
    · next hmark =>
      have hmark : mark = 'e' ∨ mark = 'E' := by simpa using hmark
      -- What follows the mark is a sign and digits, or digits alone.
      have hshape : ∃ sign ds, rest = sign ++ ds ∧ (sign = [] ∨ sign = ['+'] ∨ sign = ['-']) ∧
          Digits ds := by
        have hdigits : ∀ {ds : List Char} {x : Option Int},
            (if ds.isEmpty || !ds.all Integer.isDigit then none else x) = some e → Digits ds := by
          intro ds x h
          refine digits_of_accepted fun hds => ?_
          rw [if_pos hds] at h
          cases h
        split at h
        · next ds => exact ⟨['-'], ds, rfl, by simp, hdigits h⟩
        · next ds => exact ⟨['+'], ds, rfl, by simp, hdigits h⟩
        · exact ⟨[], rest, rfl, by simp, hdigits h⟩
      obtain ⟨sign, ds, rfl, hsign, hds⟩ := hshape
      exact .marked hmark hsign hds
    · cases h

/-! ### Reading numbers -/

/-- The sign of a decimal goes over to its double. -/
theorem toFloat_ofDigits (negative : Bool) (whole fraction : List Char) (e : Int) :
    (Decimal.Scientific.ofDigits negative whole fraction e).toFloat =
      if negative then -(Decimal.Scientific.ofDigits false whole fraction e).toFloat
      else (Decimal.Scientific.ofDigits false whole fraction e).toFloat := by
  unfold Decimal.Scientific.ofDigits
  dsimp only
  split <;> simp only [Decimal.Scientific.toFloat, Bool.false_eq_true, if_false]

/-- The text of a number, put together. -/
def numeral (negative : Bool) (whole fraction exponent : List Char) : List Char :=
  sign negative ++ (whole ++ (fraction ++ exponent))

section

variable {whole fraction exponent : List Char} {places : Option (List Char)} {e : Int}

/-- A text that begins with a digit is not a word that begins otherwise. -/
theorem lower_ne_word {d c : Char} (hd : Integer.isDigit d = true) (hc : Integer.isDigit c = false)
    (rest cs : List Char) :
    String.ofList ((d :: rest).map Decimal.lowerAscii) ≠ String.ofList (c :: cs) := by
  have hlower : Decimal.lowerAscii d = d := by
    have hle : d ≤ '9' := by
      simp only [Integer.isDigit, Bool.and_eq_true, decide_eq_true_eq] at hd
      exact hd.2
    have hnot : ¬ 'A' ≤ d := fun hge => absurd (Char.le_trans hge hle) (by decide)
    simp [Decimal.lowerAscii, hnot]
  intro heq
  obtain ⟨rfl, -⟩ := List.cons.inj (String.ofList_inj.1 heq)
  rw [hlower, hd] at hc
  cases hc

/-- A text whose first character after the sign is a digit is read as a decimal. -/
theorem ofText?_of_digit {d : Char} (hd : Integer.isDigit d = true) (hplus : d ≠ '+')
    (hminus : d ≠ '-') (negative : Bool) (rest : List Char) :
    Decimal.ofText? (sign negative ++ d :: rest) =
      (Decimal.Scientific.ofUnsigned? (d :: rest)).map fun s =>
        if negative then -s.toFloat else s.toFloat := by
  have hinf : String.ofList ((d :: rest).map Decimal.lowerAscii) ≠ "inf" :=
    lower_ne_word hd rfl rest ['n', 'f']
  have hinfinity : String.ofList ((d :: rest).map Decimal.lowerAscii) ≠ "infinity" :=
    lower_ne_word hd rfl rest ['n', 'f', 'i', 'n', 'i', 't', 'y']
  have hnan : String.ofList ((d :: rest).map Decimal.lowerAscii) ≠ "nan" :=
    lower_ne_word hd rfl rest ['a', 'n']
  cases negative with
  | true => simp [sign, Decimal.ofText?, hinf, hinfinity, hnan, -List.map_cons]
  | false => simp [sign, Decimal.ofText?, hinf, hinfinity, hnan, hplus, hminus, -List.map_cons]

/-- A number denotes the double of its parts. -/
theorem ofText?_numeral (negative : Bool) (hwhole : Digits whole)
    (hfraction : Fraction fraction places) (hexponent : Decimal.exponent? exponent = some e) :
    Decimal.ofText? (numeral negative whole fraction exponent) =
      some (Decimal.Scientific.ofDigits negative whole (places.getD []) e).toFloat := by
  have hparts := parts_append hwhole hfraction (exponent_of_eq hexponent)
  have hunsigned : Decimal.Scientific.ofUnsigned? (whole ++ (fraction ++ exponent)) =
      some (Decimal.Scientific.ofDigits false whole (places.getD []) e) := by
    unfold Decimal.Scientific.ofUnsigned?
    rw [hparts]
    simp [hwhole.1, hexponent]
  obtain ⟨d, ds, rfl, hd, hplus, hminus⟩ := hwhole.exists_cons
  rw [numeral, List.cons_append, ofText?_of_digit hd hplus hminus, ← List.cons_append, hunsigned,
    toFloat_ofDigits negative]
  rfl

/-- An atom with the shape of a number is read as that number. -/
theorem ofAtom_numeral (negative : Bool) (hwhole : Digits whole)
    (hfraction : Fraction fraction places) (hexponent : Decimal.exponent? exponent = some e) :
    Form.ofAtom (numeral negative whole fraction exponent) =
      if fraction ++ exponent = [] then Form.ofInteger negative whole
      else .float (Decimal.Scientific.ofDigits negative whole (places.getD []) e).toFloat := by
  have hparts := parts_append hwhole hfraction (exponent_of_eq hexponent)
  obtain ⟨d, ds, rfl, -, -, hminus⟩ := hwhole.exists_cons
  unfold numeral Form.ofAtom
  cases hfraction with
  | missing =>
    cases exponent with
    | nil => cases negative <;> simp_all [sign]
    | cons mark rest => cases negative <;> simp_all [sign]
  | point hplaces =>
    obtain ⟨d', ds', rfl, -⟩ := hplaces.exists_cons
    cases negative <;> simp_all [sign]

/-- An atom is put together as a number, or it is read as a symbol. -/
theorem ofAtom_cases (cs : List Char) :
    Form.ofAtom cs = .sym (String.ofList cs) ∨
      ∃ negative whole fraction places exponent e, Digits whole ∧ Fraction fraction places ∧
        Decimal.exponent? exponent = some e ∧ cs = numeral negative whole fraction exponent := by
  unfold Form.ofAtom
  extract_lets symbol
  split
  next negative body hsign =>
  have hcs : cs = sign negative ++ body := by
    split at hsign <;> cases hsign <;> rfl
  split
  · exact Or.inl rfl
  · next whole hwhole hparts =>
    obtain ⟨hdigits, fraction, hfraction, hbody⟩ :=
      append_of_parts hparts (by simpa using hwhole) nofun
    refine Or.inr ⟨negative, whole, fraction, none, [], 0, hdigits, hfraction, rfl, ?_⟩
    rw [hcs, hbody, numeral]
  · exact Or.inl rfl
  · next whole places exponent hwhole _ hplaces hparts =>
    split
    · exact Or.inl rfl
    · next e he =>
      obtain ⟨hdigits, fraction, hfraction, hbody⟩ :=
        append_of_parts hparts (by simpa using hwhole) (by simpa using hplaces)
      refine Or.inr ⟨negative, whole, fraction, places, exponent, e, hdigits, hfraction, he, ?_⟩
      rw [hcs, hbody, numeral]

end

/-- There is a machine integer for a number exactly if one is equal to it. -/
theorem ofInt?_eq_some_iff_toInt {n : Int} {i : Int64} :
    Integer.ofInt? n = some i ↔ i.toInt = n := by
  constructor
  · exact Integer.toInt_of_ofInt?_eq_some
  · rintro rfl
    exact Integer.ofInt?_toInt i

/-- A whole number is read as the machine integer equal to it, or as the double of its text. -/
theorem Whole.ofAtom {cs : List Char} {n : Int} (h : Whole cs n) :
    (∀ i : Int64, i.toInt = n → Form.ofAtom cs = .int i) ∧
      ∃ x, Decimal.ofText? cs = some x ∧
        ((∀ i : Int64, i.toInt ≠ n) → Form.ofAtom cs = .float x) := by
  obtain ⟨negative, ds, hds, rfl, rfl⟩ := h
  have hexponent : Decimal.exponent? [] = some 0 := rfl
  have hatom := ofAtom_numeral negative hds .missing hexponent
  have htext := ofText?_numeral negative hds .missing hexponent
  simp only [numeral, List.append_nil, if_true] at hatom htext
  rw [hatom, Form.ofInteger]
  refine ⟨fun i hi => ?_, _, htext, fun hnone => ?_⟩
  · simp only [ofInt?_eq_some_iff_toInt.2 hi]
  · have hnot : Integer.ofInt? _ = none :=
      Option.eq_none_iff_forall_ne_some.2 fun i hi => hnone i (ofInt?_eq_some_iff_toInt.1 hi)
    simp only [hnot]
    rfl

theorem IsDecimal.ofAtom {cs : List Char} (h : IsDecimal cs) :
    ∃ x, Decimal.ofText? cs = some x ∧ Form.ofAtom cs = .float x := by
  obtain ⟨negative, whole, fraction, places, exponent, hwhole, hfraction, hmarked, hmore, rfl⟩ := h
  obtain ⟨e, he⟩ := hmarked.exists_eq
  refine ⟨_, ofText?_numeral negative hwhole hfraction he, ?_⟩
  exact (ofAtom_numeral negative hwhole hfraction he).trans (if_neg hmore)

theorem ofAtom_of_no_number {cs : List Char} (hwhole : ∀ n, ¬ Whole cs n)
    (hdecimal : ¬ IsDecimal cs) : Form.ofAtom cs = .sym (String.ofList cs) := by
  rcases ofAtom_cases cs with hsymbol |
    ⟨negative, whole, fraction, places, exponent, e, hdigits, hfraction, he, rfl⟩
  · exact hsymbol
  · by_cases hmore : fraction ++ exponent = []
    · have hcs : numeral negative whole fraction exponent = sign negative ++ whole := by
        rw [numeral, hmore, List.append_nil]
      exact absurd ⟨negative, whole, hdigits, hcs, rfl⟩ (hwhole _)
    · exact absurd ⟨negative, whole, fraction, places, exponent, hdigits, hfraction,
        exponent_of_eq he, hmore, rfl⟩ hdecimal

/-- An atom denotes what it is read as, and nothing else. -/
theorem denotes_iff {cs : List Char} {f : Form} : Denotes cs f ↔ f = Form.ofAtom cs := by
  constructor
  · intro h
    cases h with
    | @int i hwhole => exact (hwhole.ofAtom.1 i rfl).symm
    | large hwhole hlarge hx =>
      obtain ⟨x, htext, hfloat⟩ := hwhole.ofAtom.2
      cases htext.symm.trans hx
      exact (hfloat hlarge).symm
    | decimal hdecimal hx =>
      obtain ⟨x, htext, hfloat⟩ := hdecimal.ofAtom
      cases htext.symm.trans hx
      exact hfloat.symm
    | symbol hwhole hdecimal => exact (ofAtom_of_no_number hwhole hdecimal).symm
  · rintro rfl
    -- The shape decides which of the four cases applies, and every atom is in one of them.
    by_cases hwhole : ∃ n, Whole cs n
    · obtain ⟨n, hn⟩ := hwhole
      obtain ⟨hint, x, htext, hfloat⟩ := hn.ofAtom
      by_cases hi : ∃ i : Int64, i.toInt = n
      · obtain ⟨i, rfl⟩ := hi
        rw [hint i rfl]
        exact .int hn
      · have hlarge : ∀ i : Int64, i.toInt ≠ n := fun i h => hi ⟨i, h⟩
        rw [hfloat hlarge]
        exact .large hn hlarge htext
    · by_cases hdecimal : IsDecimal cs
      · obtain ⟨x, htext, hfloat⟩ := hdecimal.ofAtom
        rw [hfloat]
        exact .decimal hdecimal htext
      · have hwhole : ∀ n, ¬ Whole cs n := fun n hn => hwhole ⟨n, hn⟩
        rw [ofAtom_of_no_number hwhole hdecimal]
        exact .symbol hwhole hdecimal

end Literal

end ConfinedLisp
