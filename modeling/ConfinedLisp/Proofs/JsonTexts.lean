import ConfinedLisp.Proofs.JsonTokens
import ConfinedLisp.Proofs.Literal
import ConfinedLisp.Proofs.MemberOrder

/-!
# The text of a document denotes it

A document is written as a text and read back through tokens, a tree and the meaning of its leaves. Each
part of it is read in the same way by itself and inside of another document, because what follows it
there is punctuation.

## Main definitions

- `Json.Spells`: a text is read as a document, whatever closes it.
- `Json.Legible`: a document whose containers are nested at most so deep, whose members are in order
  and whose numbers are read as they were written.

## Main results

- `Json.Legible.spells`: every legible document is spelled by its text.
- `Json.Legible.ofText?_render`: the text of a legible document denotes it.
-/

namespace ConfinedLisp

namespace Integer

theorem isDigit_of_mem_digits {n : Nat} {c : Char} (h : c ∈ digits n) : isDigit c = true := by
  have hc := Nat.isDigit_of_mem_toDigits (by decide) (by decide) h
  simpa [isDigit, Char.isDigit, Char.le_def] using hc

theorem digits_isDigits (n : Nat) : Literal.Digits (digits n) :=
  ⟨Nat.toDigits_ne_nil, fun _ h => isDigit_of_mem_digits h⟩

/-- The digits of a number do not begin with a zero, unless it is zero. -/
theorem head?_digits {n : Nat} (h : 0 < n) : (digits n).head? ≠ some '0' := by
  induction n using Nat.strongRecOn with
  | _ n ih =>
    unfold digits at ih ⊢
    rw [Nat.toDigits_eq_if (by decide)]
    by_cases hsmall : n < 10
    · have hdigit : ∀ k < 10, 0 < k → Nat.digitChar k ≠ '0' := by decide
      rw [if_pos hsmall]
      simpa using hdigit n hsmall h
    · have hhead := ih (n / 10) (by omega) (by omega)
      rw [if_neg hsmall, List.head?_append]
      cases hdigits : Nat.toDigits 10 (n / 10) with
      | nil => exact absurd hdigits Nat.toDigits_ne_nil
      | cons c rest => simpa [hdigits] using hhead

/-- The digits of a number are a zero alone, or do not begin with one. -/
theorem digits_eq_zero_or (n : Nat) : digits n = ['0'] ∨ (digits n).head? ≠ some '0' := by
  by_cases h : 0 < n
  · exact Or.inr (head?_digits h)
  · rw [Nat.eq_zero_of_not_pos h]
    exact Or.inl rfl

end Integer

namespace Json

open Token (split?)

/-! ### Whole numbers -/

theorem unsigned?_digits (negative : Bool) (n : Nat) :
    Token.unsigned? negative (Integer.digits n) =
      some (⟨negative, Integer.digits n, none, none⟩, []) := by
  have hend : Literal.NoDigit [] := fun c hc => by cases hc
  have hspan := Literal.spanDigits_append (Integer.digits_isDigits n) hend
  rw [List.append_nil] at hspan
  have hne : Integer.digits n ≠ [] := (Integer.digits_isDigits n).1
  have hzero := Integer.digits_eq_zero_or n
  rw [Token.unsigned?, hspan]
  generalize Integer.digits n = ds at hne hzero
  split
  · next heq => exact absurd (Prod.mk.inj heq).1 hne
  · next heq =>
    obtain ⟨rfl, -⟩ := Prod.mk.inj heq
    simp at hzero
  · next heq =>
    obtain ⟨rfl, rfl⟩ := Prod.mk.inj heq
    rfl

theorem le_ofDigitChars (ds : List Char) (n : Nat) : n ≤ Nat.ofDigitChars 10 ds n := by
  induction ds generalizing n with
  | nil => exact Nat.le_of_eq Nat.ofDigitChars_nil.symm
  | cons c ds ih =>
    rw [Nat.ofDigitChars_cons]
    exact Nat.le_trans (by omega) (ih _)

/-- No digit is left out of a number in bounds. -/
theorem accumulate_of_le {ds : List Char} {n : Nat}
    (h : Nat.ofDigitChars 10 ds n ≤ greatestSignificand) :
    accumulate n ds = (Nat.ofDigitChars 10 ds n, 0) := by
  induction ds generalizing n with
  | nil => rw [accumulate, Nat.ofDigitChars_nil]
  | cons c ds ih =>
    rw [Nat.ofDigitChars_cons, Nat.mul_comm] at h
    have hnext := Nat.le_trans (le_ofDigitChars ds _) h
    rw [accumulate, if_neg (by omega), ih h, Nat.ofDigitChars_cons, Nat.mul_comm]

theorem accumulate_digits {n : Nat} (h : n ≤ greatestSignificand) :
    accumulate 0 (Integer.digits n) = (n, 0) := by
  have hn : Nat.ofDigitChars 10 (Integer.digits n) 0 = n := Integer.ofDigits_digits n
  rw [accumulate_of_le (by rwa [hn]), hn]

/-- The parts of an integer as a number. -/
def NumberText.ofInt (i : Int) : NumberText := ⟨decide (i < 0), Integer.digits i.natAbs, none, none⟩

theorem number?_chars (i : Int) :
    Token.number? (Integer.chars i) = some (NumberText.ofInt i, []) := by
  by_cases h : i < 0
  · rw [Integer.chars, if_pos h, Token.number?, unsigned?_digits, NumberText.ofInt, decide_eq_true h]
  · rw [Integer.chars, if_neg h, NumberText.ofInt, decide_eq_false h]
    have hdigit := (Integer.digits_isDigits i.natAbs).2
    rw [Token.number?, unsigned?_digits]
    intro rest hrest
    exact absurd (hdigit '-' (by rw [hrest]; exact List.mem_cons_self)) (by decide)

theorem denote?_ofInt {i : Int} (h : Integer.InRange i) :
    (NumberText.ofInt i).denote? = some (.whole i) := by
  obtain ⟨hlow, hhigh⟩ := h
  simp only [Integer.least, Integer.greatest] at hlow hhigh
  have hdigits : accumulate 0 (Integer.digits i.natAbs) = (i.natAbs, 0) :=
    accumulate_digits (by unfold greatestSignificand; omega)
  simp only [NumberText.denote?, NumberText.ofInt, hdigits]
  by_cases hneg : i < 0
  · have habs : -(i.natAbs : Int) = i := by omega
    have hbounds : 0 < i.natAbs ∧ i.natAbs ≤ 9223372036854775808 := by omega
    simp only [hneg, hbounds, habs, and_self, Option.isNone_none, Bool.and_self, decide_true,
      Bool.not_true, Bool.false_eq_true, ↓reduceIte]
  · have habs : (i.natAbs : Int) = i := by omega
    simp only [hneg, habs, Option.isNone_none, Bool.and_self, decide_true, decide_false,
      Bool.not_false, ↓reduceIte]

/-! ### Strings -/

theorem hexCode?_digitChar :
    ∀ n < 0x20, Token.hexCode? '0' '0' (Nat.digitChar (n / 16)) (Nat.digitChar (n % 16)) = some n := by
  decide

/-- A control character is written with a backslash, every other one as itself or with a backslash. -/
theorem stringUnits?_writeChar {cs r : List Char} {units : List StringUnit}
    (h : Token.stringUnits? cs = some (units, r)) (c : Char) :
    ∃ u, Token.stringUnits? (writeChar c ++ cs) = some (u :: units, r) ∧
      (u = .char c ∨ u = .code c.toNat ∧ c.toNat < 0x20) := by
  unfold writeChar
  iterate 7
    split
    · next heq =>
      exact ⟨.char c, Token.stringUnits?_escape (x := c) (by subst heq; decide) h, Or.inl rfl⟩
  split
  · next hcontrol =>
    exact ⟨_, Token.stringUnits?_code (hexCode?_digitChar _ hcontrol) h, Or.inr ⟨rfl, hcontrol⟩⟩
  · next hquote hback _ _ _ _ _ hcontrol =>
    exact ⟨_, Token.stringUnits?_char hquote hback (Nat.not_lt.1 hcontrol) h, Or.inl rfl⟩

theorem denoteUnits?_code {n : Nat} (h : n < 0x20) (units : List StringUnit) :
    denoteUnits? (.code n :: units) = (denoteUnits? units).map (Char.ofNat n :: ·) := by
  have hhigh : isHighSurrogate n = false := by simp [isHighSurrogate]; omega
  have hlow : isLowSurrogate n = false := by simp [isLowSurrogate]; omega
  cases units with
  | nil => simp [denoteUnits?, hhigh, hlow]
  | cons u units => cases u <;> simp [denoteUnits?, hhigh, hlow]

/-- The characters of a string are read as they were written. -/
theorem stringUnits?_flatMap_writeChar (cs rest : List Char) :
    ∃ units, Token.stringUnits? (cs.flatMap writeChar ++ '"' :: rest) = some (units, rest) ∧
      denoteUnits? units = some cs := by
  induction cs with
  | nil => exact ⟨[], rfl, rfl⟩
  | cons c cs ih =>
    obtain ⟨units, hunits, hcs⟩ := ih
    obtain ⟨u, hu, hc⟩ := stringUnits?_writeChar hunits c
    refine ⟨u :: units, by rw [List.flatMap_cons, List.append_assoc, hu], ?_⟩
    rcases hc with rfl | ⟨rfl, hcontrol⟩
    · rw [denoteUnits?, hcs, Option.map_some]
    · rw [denoteUnits?_code hcontrol, hcs, Option.map_some, Char.ofNat_toNat]

/-- A string is one token, and it denotes the text that was written. -/
theorem split?_writeString (s : String) :
    ∃ units, split? (writeString s) = some [.string units] ∧ denoteString? units = some s := by
  obtain ⟨units, hunits, hchars⟩ := stringUnits?_flatMap_writeChar s.toList []
  refine ⟨units, Token.split?_single (by decide) ?_, ?_⟩
  · rw [Token.first?]
    exact congrArg (Option.map _) hunits
  · rw [denoteString?, hchars, Option.map_some, String.ofList_toList]

/-! ### Trees of tokens -/

namespace Skeleton

variable {ts ts' : List Token} {v : Skeleton}

section

variable {β : Type} {read : Nat → List Token → Option (β × List Token)} {b : β}

/-- Tokens that a reader with fuel for them takes for `b`, whatever follows them. -/
def Consumes (read : Nat → List Token → Option (β × List Token)) (ts : List Token) (b : β) : Prop :=
  ∀ fuel rest, 2 * ts.length ≤ fuel → read fuel (ts ++ rest) = some (b, rest)

/-- With fuel for a token, a reader can take one step. -/
theorem Consumes.of_succ (hne : ts ≠ [])
    (h : ∀ fuel rest, 2 * ts.length ≤ fuel + 1 → read (fuel + 1) (ts ++ rest) = some (b, rest)) :
    Consumes read ts b := by
  intro fuel rest hfuel
  have hpos : 0 < ts.length := List.length_pos_iff.2 hne
  cases fuel with
  | zero => omega
  | succ fuel => exact h fuel rest hfuel

/-- What a reader takes does not begin with a token that it refuses. -/
theorem Consumes.exists_head (h : Consumes read ts b) (refused : Token)
    (hnil : ∀ fuel, read (fuel + 2) [] = none)
    (hrefused : ∀ fuel rest, read (fuel + 2) (refused :: rest) = none) :
    ∃ t rest, ts = t :: rest ∧ t ≠ refused := by
  have hread := h (2 * ts.length + 2) [] (by omega)
  rw [List.append_nil] at hread
  cases ts with
  | nil => cases (hnil _).symm.trans hread
  | cons t rest =>
    refine ⟨t, rest, rfl, ?_⟩
    rintro rfl
    cases (hrefused _ _).symm.trans hread

end

/-- Tokens that are read as a value, whatever follows them. -/
def Reads (ts : List Token) (v : Skeleton) : Prop := Consumes value? ts v

/-- Tokens that are read as the items of an array and its closing bracket, whatever follows them. -/
def ReadsItems (ts : List Token) (vs : List Skeleton) : Prop := Consumes items? ts vs

/-- Tokens that are read as the members of an object and its closing brace, whatever follows them. -/
def ReadsMembers (ts : List Token) (vs : List (List StringUnit × Skeleton)) : Prop :=
  Consumes members? ts vs

/-- A token that is a value by itself. -/
theorem Reads.single {t : Token} (h : ∀ fuel rest, value? (fuel + 1) (t :: rest) = some (v, rest)) :
    Reads [t] v :=
  Consumes.of_succ (List.cons_ne_nil _ _) fun fuel rest _ => h fuel rest

theorem Reads.array_nil : Reads [.openArray, .closeArray] (.array []) :=
  Consumes.of_succ (List.cons_ne_nil _ _) fun _ _ _ => rfl

theorem Reads.object_nil : Reads [.openObject, .closeObject] (.object []) :=
  Consumes.of_succ (List.cons_ne_nil _ _) fun _ _ _ => rfl

theorem ReadsItems.last (h : Reads ts v) : ReadsItems (ts ++ [.closeArray]) [v] := by
  refine Consumes.of_succ (by simp) fun fuel rest hfuel => ?_
  simp only [List.length_append, List.length_singleton] at hfuel
  rw [items?, List.append_assoc, h fuel _ (by omega)]
  rfl

theorem ReadsItems.cons {vs : List Skeleton} (h : Reads ts v) (h' : ReadsItems ts' vs) :
    ReadsItems (ts ++ .comma :: ts') (v :: vs) := by
  refine Consumes.of_succ (by simp) fun fuel rest hfuel => ?_
  simp only [List.length_append, List.length_cons] at hfuel
  rw [items?, List.append_assoc, h fuel _ (by omega)]
  simp only [List.cons_append]
  rw [h' fuel _ (by omega)]

theorem Reads.array {vs : List Skeleton} (h : ReadsItems ts vs) :
    Reads (.openArray :: ts) (.array vs) := by
  refine Consumes.of_succ (List.cons_ne_nil _ _) fun fuel rest hfuel => ?_
  have hitems := h fuel rest (by simp only [List.length_cons] at hfuel; omega)
  obtain ⟨t, ts, rfl, ht⟩ := Consumes.exists_head h .closeArray (fun _ => rfl) fun _ _ => rfl
  rw [List.cons_append] at hitems
  rw [List.cons_append, List.cons_append, value?, hitems]
  intro ts' heq
  exact ht (List.cons.inj heq).1

theorem ReadsMembers.last {key : List StringUnit} (h : Reads ts v) :
    ReadsMembers (.string key :: .colon :: (ts ++ [.closeObject])) [(key, v)] := by
  refine Consumes.of_succ (List.cons_ne_nil _ _) fun fuel rest hfuel => ?_
  simp only [List.length_cons, List.length_append, List.length_nil] at hfuel
  rw [List.cons_append, List.cons_append, members?, List.append_assoc, h fuel _ (by omega)]
  rfl

theorem ReadsMembers.cons {key : List StringUnit} {vs : List (List StringUnit × Skeleton)}
    (h : Reads ts v) (h' : ReadsMembers ts' vs) :
    ReadsMembers (.string key :: .colon :: (ts ++ .comma :: ts')) ((key, v) :: vs) := by
  refine Consumes.of_succ (List.cons_ne_nil _ _) fun fuel rest hfuel => ?_
  simp only [List.length_cons, List.length_append] at hfuel
  rw [List.cons_append, List.cons_append, members?, List.append_assoc, h fuel _ (by omega)]
  simp only [List.cons_append]
  rw [h' fuel _ (by omega)]

theorem Reads.object {vs : List (List StringUnit × Skeleton)} (h : ReadsMembers ts vs) :
    Reads (.openObject :: ts) (.object vs) := by
  refine Consumes.of_succ (List.cons_ne_nil _ _) fun fuel rest hfuel => ?_
  have hmembers := h fuel rest (by simp only [List.length_cons] at hfuel; omega)
  obtain ⟨t, ts, rfl, ht⟩ := Consumes.exists_head h .closeObject (fun _ => rfl) fun _ _ => rfl
  rw [List.cons_append] at hmembers
  rw [List.cons_append, List.cons_append, value?, hmembers]
  intro ts' heq
  exact ht (List.cons.inj heq).1

theorem Reads.ofTokens? (h : Reads ts v) : ofTokens? ts = some v := by
  have hvalue := h (2 * ts.length + 2) [] (by omega)
  rw [List.append_nil] at hvalue
  rw [Skeleton.ofTokens?, hvalue]

/-- Only a number is read as a number. -/
theorem eq_of_value?_number {n : NumberText} {fuel : Nat} {rest : List Token}
    (h : value? fuel ts = some (.number n, rest)) : ts = .number n :: rest := by
  rw [value?.eq_def] at h
  split at h
  case h_4 => cases h; rfl
  case h_7 | h_9 => split at h <;> cases h
  all_goals cases h

theorem eq_of_ofTokens?_number {n : NumberText} (h : Skeleton.ofTokens? ts = some (.number n)) :
    ts = [.number n] := by
  rw [Skeleton.ofTokens?] at h
  split at h
  · next hvalue =>
    cases h
    exact eq_of_value?_number hvalue
  · cases h

end Skeleton

/-! ### Texts of documents -/

variable {room : Nat} {cs cs' : List Char} {d : Document} {ds : List Document}

/-- A text that is read as a document, also inside of others, while containers are nested at most `room`
deep. -/
def Spells (room : Nat) (cs : List Char) (d : Document) : Prop :=
  ∃ ts v, split? cs = some ts ∧ Skeleton.Reads ts v ∧ Document.ofSkeleton? room v = some d

/-- A text that is read as the items of an array and its closing bracket. -/
def SpellsItems (room : Nat) (cs : List Char) (ds : List Document) : Prop :=
  ∃ ts vs, split? cs = some ts ∧ Skeleton.ReadsItems ts vs ∧ Document.ofItems? room vs = some ds

/-- A text that is read as the members of an object, as they are written, and its closing brace. -/
def SpellsMembers (room : Nat) (cs : List Char) (ms : List (String × Document)) : Prop :=
  ∃ ts vs, split? cs = some ts ∧ Skeleton.ReadsMembers ts vs ∧ Document.ofMembers? room vs = some ms

/-- A leaf is spelled by its token. -/
theorem Spells.token {t : Token} {v : Skeleton} (hsplit : split? cs = some [t])
    (hread : ∀ fuel rest, Skeleton.value? (fuel + 1) (t :: rest) = some (v, rest))
    (hdenote : Document.ofSkeleton? room v = some d) : Spells room cs d :=
  ⟨[t], v, hsplit, Skeleton.Reads.single hread, hdenote⟩

theorem Spells.string (s : String) : Spells room (writeString s) (.string s) := by
  obtain ⟨units, hsplit, hdenote⟩ := split?_writeString s
  exact Spells.token hsplit (fun _ _ => rfl) (by rw [Document.ofSkeleton?, hdenote, Option.map_some])

theorem isGap_of_isDigit {c : Char} (h : Integer.isDigit c = true) : Token.isGap c = false := by
  cases hgap : Token.isGap c with
  | false => rfl
  | true =>
    simp only [Token.isGap, Bool.or_eq_true, decide_eq_true_eq] at hgap
    rcases hgap with ((rfl | rfl) | rfl) | rfl <;> exact absurd h (by decide)

theorem Spells.whole {i : Int} (h : Integer.InRange i) : Spells room (Integer.chars i) (.whole i) := by
  refine Spells.token (t := .number (.ofInt i)) ?_ (fun _ _ => rfl) (denote?_ofInt h)
  obtain ⟨c, tail, hchars, hc⟩ := Token.number?_head (number?_chars i)
  have hgap : Token.isGap c = false := by
    rcases hc with rfl | hdigit
    · decide
    · exact isGap_of_isDigit hdigit
  have hfirst := Token.first?_of_number? (number?_chars i)
  rw [hchars] at hfirst ⊢
  exact Token.split?_single hgap hfirst

/-- A float is read back if its text denotes it. -/
def ReadsBack (x : Float) : Prop := Document.ofText? (floatStyle.render x) = some (.float x)

/-- Only a number denotes a float. -/
theorem exists_number_of_ofSkeleton?_float {v : Skeleton} {x : Float}
    (h : Document.ofSkeleton? room v = some (.float x)) :
    ∃ n, v = .number n ∧ n.denote? = some (.float x) := by
  cases v with
  | number n => exact ⟨n, rfl, h⟩
  | null | bool => cases h
  | string units =>
    obtain ⟨s, -, heq⟩ := Option.map_eq_some_iff.1 h
    cases heq
  | array items | object members =>
    cases room with
    | zero => cases h
    | succ room =>
      obtain ⟨parts, -, heq⟩ := Option.map_eq_some_iff.1 h
      cases heq

theorem Spells.float {x : Float} (h : ReadsBack x) :
    Spells room (floatStyle.render x).toList (.float x) := by
  unfold ReadsBack Document.ofText? Skeleton.ofText? at h
  obtain ⟨v, hv, hdenote⟩ := Option.bind_eq_some_iff.1 h
  obtain ⟨ts, hts, hv⟩ := Option.bind_eq_some_iff.1 hv
  obtain ⟨n, rfl, hdenote⟩ := exists_number_of_ofSkeleton?_float hdenote
  rw [Skeleton.eq_of_ofTokens?_number hv] at hts
  exact Spells.token hts (fun _ _ => rfl) hdenote

theorem SpellsItems.last (h : Spells room cs d) : SpellsItems room (cs ++ [']']) [d] := by
  obtain ⟨ts, v, hts, hv, hd⟩ := h
  refine ⟨_, _, Token.split?_append hts rfl (by simp [Token.Closed]), .last hv, ?_⟩
  simp [Document.ofItems?, hd]

theorem SpellsItems.cons (h : Spells room cs d) (h' : SpellsItems room cs' ds) :
    SpellsItems room (cs ++ ',' :: cs') (d :: ds) := by
  obtain ⟨ts, v, hts, hv, hd⟩ := h
  obtain ⟨ts', vs, hts', hvs, hds⟩ := h'
  have hcomma := Token.split?_cons (c := ',') (t := .comma) (by decide) (fun _ => rfl) hts'
  refine ⟨_, _, Token.split?_append hts hcomma (by simp [Token.Closed]), .cons hv hvs, ?_⟩
  simp [Document.ofItems?, hd, hds]

theorem Spells.array_nil : Spells (room + 1) ['[', ']'] (.array []) :=
  ⟨_, _, rfl, .array_nil, rfl⟩

theorem Spells.array (h : SpellsItems room cs ds) : Spells (room + 1) ('[' :: cs) (.array ds) := by
  obtain ⟨ts, vs, hts, hvs, hds⟩ := h
  refine ⟨_, _, Token.split?_cons (by decide) (fun _ => rfl) hts, .array hvs, ?_⟩
  simp [Document.ofSkeleton?, hds]

theorem split?_member {ts : List Token} (key : String) (h : split? cs = some ts) :
    ∃ units, denoteString? units = some key ∧
      split? (writeString key ++ ':' :: cs) = some (.string units :: .colon :: ts) := by
  obtain ⟨units, hsplit, hdenote⟩ := split?_writeString key
  have hcolon := Token.split?_cons (c := ':') (t := .colon) (by decide) (fun _ => rfl) h
  exact ⟨units, hdenote, Token.split?_append hsplit hcolon (by simp [Token.Closed])⟩

theorem SpellsMembers.last {key : String} (h : Spells room cs d) :
    SpellsMembers room (writeString key ++ ':' :: (cs ++ ['\x7d'])) [(key, d)] := by
  obtain ⟨ts, v, hts, hv, hd⟩ := h
  have hbrace : split? ['\x7d'] = some [.closeObject] := rfl
  have hclose := Token.split?_append hts hbrace (by simp [Token.Closed])
  obtain ⟨units, hkey, hsplit⟩ := split?_member key hclose
  refine ⟨_, _, hsplit, .last hv, ?_⟩
  simp [Document.ofMembers?, Document.ofMember?, hkey, hd]

theorem SpellsMembers.cons {key : String} {ms : List (String × Document)} (h : Spells room cs d)
    (h' : SpellsMembers room cs' ms) :
    SpellsMembers room (writeString key ++ ':' :: (cs ++ ',' :: cs')) ((key, d) :: ms) := by
  obtain ⟨ts, v, hts, hv, hd⟩ := h
  obtain ⟨ts', vs, hts', hvs, hms⟩ := h'
  have hcomma := Token.split?_cons (c := ',') (t := .comma) (by decide) (fun _ => rfl) hts'
  obtain ⟨units, hkey, hsplit⟩ :=
    split?_member key (Token.split?_append hts hcomma (by simp [Token.Closed]))
  refine ⟨_, _, hsplit, .cons hv hvs, ?_⟩
  simp [Document.ofMembers?, Document.ofMember?, hkey, hd, hms]

theorem Spells.object_nil : Spells (room + 1) ['\x7b', '\x7d'] (.object []) := by
  refine ⟨_, _, rfl, .object_nil, ?_⟩
  have hnil : Ordered ([] : List (String × Document)) := List.Pairwise.nil
  simp [Document.ofSkeleton?, Document.ofMembers?, orderMembers_of_ordered hnil]

theorem Spells.object {ms : List (String × Document)} (h : SpellsMembers room cs ms)
    (hordered : Ordered ms) : Spells (room + 1) ('\x7b' :: cs) (.object ms) := by
  obtain ⟨ts, vs, hts, hvs, hms⟩ := h
  refine ⟨_, _, Token.split?_cons (by decide) (fun _ => rfl) hts, .object hvs, ?_⟩
  simp [Document.ofSkeleton?, hms, orderMembers_of_ordered hordered]

/-! ### Legible documents -/

/-- A document that its text denotes: containers are nested at most `room` deep, members are in order,
whole numbers are machine integers and floats are read back. -/
inductive Legible : Nat → Document → Prop
  | null {room : Nat} : Legible room .null
  | bool {room : Nat} (b : Bool) : Legible room (.bool b)
  | whole {room : Nat} {n : Int} (h : Integer.InRange n) : Legible room (.whole n)
  | float {room : Nat} {x : Float} (h : ReadsBack x) : Legible room (.float x)
  | string {room : Nat} (s : String) : Legible room (.string s)
  | array {room : Nat} {items : List Document} (h : ∀ d ∈ items, Legible room d) :
      Legible (room + 1) (.array items)
  | object {room : Nat} {members : List (String × Document)} (hordered : Ordered members)
      (h : ∀ m ∈ members, Legible room m.2) : Legible (room + 1) (.object members)

theorem spellsItems_intercalate {d : Document} {ds : List Document}
    (h : ∀ e ∈ d :: ds, Spells room e.write e) :
    SpellsItems room (List.intercalate [','] (Document.writeItems (d :: ds)) ++ [']']) (d :: ds) := by
  induction ds generalizing d with
  | nil =>
    rw [Document.writeItems, Document.writeItems, List.intercalate_singleton]
    exact .last (h d List.mem_cons_self)
  | cons e ds ih =>
    have hrest := ih fun e he => h e (List.mem_cons_of_mem _ he)
    rw [Document.writeItems, Document.writeItems, List.intercalate_cons_cons, List.append_assoc,
      List.append_assoc]
    exact .cons (h d List.mem_cons_self) hrest

theorem spellsMembers_intercalate {m : String × Document} {ms : List (String × Document)}
    (h : ∀ n ∈ m :: ms, Spells room n.2.write n.2) :
    SpellsMembers room (List.intercalate [','] (Document.writeMembers (m :: ms)) ++ ['\x7d'])
      (m :: ms) := by
  induction ms generalizing m with
  | nil =>
    rw [Document.writeMembers, Document.writeMembers, List.intercalate_singleton,
      Document.writeMember, List.append_assoc, List.cons_append]
    exact .last (h m List.mem_cons_self)
  | cons n ms ih =>
    have hrest := ih fun n hn => h n (List.mem_cons_of_mem _ hn)
    rw [Document.writeMembers, Document.writeMembers, List.intercalate_cons_cons,
      Document.writeMember, List.append_assoc, List.append_assoc, List.append_assoc,
      List.cons_append]
    exact .cons (h m List.mem_cons_self) hrest

/-- Every legible document is spelled by its text. -/
theorem Legible.spells (h : Legible room d) : Spells room d.write d := by
  induction h with
  | null => exact Spells.token rfl (fun _ _ => rfl) rfl
  | bool b => cases b <;> exact Spells.token rfl (fun _ _ => rfl) rfl
  | whole h => exact Spells.whole h
  | float h => exact Spells.float h
  | string s => exact Spells.string s
  | @array room items h ih =>
    cases items with
    | nil => exact Spells.array_nil
    | cons d ds => exact Spells.array (spellsItems_intercalate ih)
  | @object room members hordered h ih =>
    cases members with
    | nil => exact Spells.object_nil
    | cons m ms => exact Spells.object (spellsMembers_intercalate ih) hordered

/-- The text of a legible document denotes it. -/
theorem Legible.ofText?_render (h : Legible deepestNesting d) : Document.ofText? d.render = some d := by
  obtain ⟨ts, v, hts, hv, hd⟩ := h.spells
  rw [Document.ofText?, Skeleton.ofText?, Document.render, String.toList_ofList, hts,
    Option.bind_some, hv.ofTokens?, Option.bind_some, hd]

end Json

end ConfinedLisp
