import ConfinedLisp.Json.Token

/-!
# Cutting JSON texts

A JSON text that is followed by a closing bracket, a comma, a colon or nothing at all is cut into the
same tokens as by itself. Numbers are the reason why something has to be asked of what follows: all
other tokens tell by themselves where they end.

## Main definitions

- `Token.Closed`: the texts before which every token ends.

## Main results

- `Token.split?_append`: a text and what follows it are cut one after the other.
-/

namespace ConfinedLisp

namespace Json

namespace Token

variable {cs rest r : List Char}

/-- A text before which every token ends: it is empty, or begins with punctuation other than an opening
bracket. -/
def Closed : List Char → Prop
  | [] => True
  | c :: _ => c = ',' ∨ c = ':' ∨ c = ']' ∨ c = '\x7d'

/-- A character with which a number may go on. -/
def Continues (c : Char) : Prop := Integer.isDigit c = true ∨ c = '.' ∨ c = 'e' ∨ c = 'E'

theorem Closed.not_continues {c : Char} (h : Closed (c :: rest)) : ¬ Continues c := by
  rcases h with rfl | rfl | rfl | rfl <;> simp [Continues] <;> decide

/-! ### Numbers -/

theorem spanDigits_append {ds : List Char} (h : Decimal.spanDigits cs = (ds, r))
    (hrest : r = [] → Closed rest) : Decimal.spanDigits (cs ++ rest) = (ds, r ++ rest) := by
  induction cs generalizing ds with
  | nil =>
    obtain ⟨rfl, rfl⟩ := Prod.mk.inj h
    cases rest with
    | nil => rfl
    | cons c rest =>
      have hdigit : Integer.isDigit c = false := by
        cases hc : Integer.isDigit c with
        | false => rfl
        | true => exact absurd (Or.inl hc) (hrest rfl).not_continues
      simp [Decimal.spanDigits, hdigit]
  | cons c cs ih =>
    by_cases hdigit : Integer.isDigit c = true
    · have hspan : Decimal.spanDigits (c :: cs) =
          (c :: (Decimal.spanDigits cs).1, (Decimal.spanDigits cs).2) := by
        simp [Decimal.spanDigits, hdigit]
      rw [hspan] at h
      obtain ⟨rfl, hr⟩ := Prod.mk.inj h
      have htail := @ih (Decimal.spanDigits cs).1 (Prod.ext rfl hr)
      simp only [Decimal.spanDigits, Prod.mk.injEq] at htail ⊢
      simp [hdigit, htail.1, htail.2]
    · obtain ⟨rfl, rfl⟩ : [] = ds ∧ c :: cs = r := by
        simpa [Decimal.spanDigits, hdigit] using h
      simp [Decimal.spanDigits, hdigit]

theorem fraction?_append {ds : Option (List Char)} (h : fraction? cs = some (ds, r))
    (hrest : r = [] → Closed rest) : fraction? (cs ++ rest) = some (ds, r ++ rest) := by
  unfold fraction? at h
  split at h
  · next tail =>
    cases hspan : Decimal.spanDigits tail with
    | mk digits after =>
      rw [hspan] at h
      cases digits with
      | nil => cases h
      | cons d digits =>
        cases h
        rw [List.cons_append, fraction?, spanDigits_append hspan hrest]
  · next hpoint =>
    cases h
    cases cs with
    | nil =>
      cases rest with
      | nil => rfl
      | cons c rest =>
        have hc : c ≠ '.' := fun hc => (hrest rfl).not_continues (by simp [Continues, hc])
        rw [List.nil_append, fraction?]
        intro tail htail
        cases htail
        exact hc rfl
    | cons c cs =>
      rw [List.cons_append, fraction?]
      intro tail htail
      cases htail
      exact hpoint cs rfl

theorem exponentDigits?_append {negative : Bool} {e : Option (Bool × List Char)}
    (h : exponentDigits? negative cs = some (e, r)) (hrest : r = [] → Closed rest) :
    exponentDigits? negative (cs ++ rest) = some (e, r ++ rest) := by
  unfold exponentDigits? at h
  cases hspan : Decimal.spanDigits cs with
  | mk digits after =>
    rw [hspan] at h
    cases digits with
    | nil => cases h
    | cons d digits =>
      cases h
      rw [exponentDigits?, spanDigits_append hspan hrest]

theorem exponent?_append {e : Option (Bool × List Char)} (h : exponent? cs = some (e, r))
    (hrest : r = [] → Closed rest) : exponent? (cs ++ rest) = some (e, r ++ rest) := by
  cases cs with
  | nil =>
    cases h
    cases rest with
    | nil => rfl
    | cons c rest =>
      have hc : ¬ (c = 'e' ∨ c = 'E') := fun hc =>
        (hrest rfl).not_continues (Or.inr (Or.inr hc))
      simp [exponent?, hc]
  | cons c cs =>
    by_cases hc : c = 'e' ∨ c = 'E'
    · cases cs with
      | nil => simp [exponent?, hc, exponentDigits?, Decimal.spanDigits] at h
      | cons d cs =>
        by_cases hminus : d = '-'
        · subst hminus
          have hdigits : exponentDigits? true cs = some (e, r) := by simpa [exponent?, hc] using h
          simpa [exponent?, hc] using exponentDigits?_append hdigits hrest
        · by_cases hplus : d = '+'
          · subst hplus
            have hdigits : exponentDigits? false cs = some (e, r) := by simpa [exponent?, hc] using h
            simpa [exponent?, hc] using exponentDigits?_append hdigits hrest
          · have hdigits : exponentDigits? false (d :: cs) = some (e, r) := by
              simpa [exponent?, hc, hminus, hplus] using h
            simpa [exponent?, hc, hminus, hplus] using exponentDigits?_append hdigits hrest
    · obtain ⟨rfl, rfl⟩ : none = e ∧ c :: cs = r := by simpa [exponent?, hc] using h
      simp [exponent?, hc]

/-- The parts of a number whose sign has been read. -/
theorem unsigned?_eq_some {negative : Bool} {n : NumberText}
    (h : unsigned? negative cs = some (n, r)) :
    ∃ whole fraction exponent after after', Decimal.spanDigits cs = (whole, after) ∧
      fraction? after = some (fraction, after') ∧ exponent? after' = some (exponent, r) ∧
      n = ⟨negative, whole, fraction, exponent⟩ := by
  unfold unsigned? at h
  split at h
  · cases h
  · cases h
  · next whole after _ _ hspan =>
    simp only [Option.bind_eq_bind, Option.bind_eq_some_iff] at h
    obtain ⟨⟨fraction, after'⟩, hfraction, ⟨exponent, after''⟩, hexponent, h⟩ := h
    cases h
    exact ⟨whole, fraction, exponent, after, after', hspan, hfraction, hexponent, rfl⟩

theorem unsigned?_append {negative : Bool} {n : NumberText}
    (h : unsigned? negative cs = some (n, r)) (hrest : r = [] → Closed rest) :
    unsigned? negative (cs ++ rest) = some (n, r ++ rest) := by
  obtain ⟨whole, fraction, exponent, after, after', hspan, hfraction, hexponent, rfl⟩ :=
    unsigned?_eq_some h
  -- Nothing is left after the number if nothing is left after one of its parts.
  have hafter' : after' = [] → r = [] := by
    rintro rfl
    cases hexponent
    rfl
  have hafter : after = [] → r = [] := by
    rintro rfl
    cases hfraction
    exact hafter' rfl
  have hspan' := spanDigits_append hspan fun hnil => hrest (hafter hnil)
  have hfraction' := fraction?_append hfraction fun hnil => hrest (hafter' hnil)
  have hexponent' := exponent?_append hexponent hrest
  unfold unsigned? at h ⊢
  rw [hspan] at h
  rw [hspan']
  cases whole with
  | nil => cases h
  | cons d whole =>
    cases whole with
    | nil => simp [hfraction', hexponent']
    | cons d' whole =>
      by_cases hzero : d = '0'
      · subst hzero
        cases h
      · simp [hzero, hfraction', hexponent']

/-- A number begins with a sign or a digit. -/
theorem number?_of_ne {c : Char} (h : c ≠ '-') (tail : List Char) :
    number? (c :: tail) = unsigned? false (c :: tail) := by
  rw [number?]
  rintro rest ⟨⟩
  exact h rfl

theorem number?_head {n : NumberText} (h : number? cs = some (n, r)) :
    ∃ c tail, cs = c :: tail ∧ (c = '-' ∨ Integer.isDigit c = true) := by
  cases cs with
  | nil => cases h
  | cons c tail =>
    refine ⟨c, tail, rfl, ?_⟩
    by_cases hminus : c = '-'
    · exact Or.inl hminus
    · cases hdigit : Integer.isDigit c with
      | true => exact Or.inr rfl
      | false =>
        have hnone : unsigned? false (c :: tail) = none := by
          simp [unsigned?, Decimal.spanDigits, hdigit]
        rw [number?_of_ne hminus, hnone] at h
        cases h

theorem number?_append {n : NumberText} (h : number? cs = some (n, r))
    (hrest : r = [] → Closed rest) : number? (cs ++ rest) = some (n, r ++ rest) := by
  obtain ⟨c, tail, rfl, -⟩ := number?_head h
  by_cases hminus : c = '-'
  · subst hminus
    exact unsigned?_append h hrest
  · rw [number?_of_ne hminus] at h
    exact (number?_of_ne hminus _).trans (unsigned?_append h hrest)

/-! ### Strings -/

section Strings

variable {units : List StringUnit}

theorem stringUnits?_code {a b c d : Char} {n : Nat} (hcode : hexCode? a b c d = some n)
    (h : stringUnits? cs = some (units, r)) :
    stringUnits? ('\\' :: 'u' :: a :: b :: c :: d :: cs) = some (.code n :: units, r) := by
  rw [stringUnits?, hcode, h]

theorem stringUnits?_escape {c x : Char} (hc : unescape? c = some x)
    (h : stringUnits? cs = some (units, r)) :
    stringUnits? ('\\' :: c :: cs) = some (.char x :: units, r) := by
  have hu : c ≠ 'u' := by
    rintro rfl
    cases hc
  rw [stringUnits?, hc, h]
  intro _ _ _ _ _ hcu
  exact absurd hcu hu

theorem stringUnits?_char {c : Char} (hquote : c ≠ '"') (hescape : c ≠ '\\')
    (hc : 0x20 ≤ c.toNat) (h : stringUnits? cs = some (units, r)) :
    stringUnits? (c :: cs) = some (.char c :: units, r) := by
  rw [stringUnits?]
  · rw [if_neg (by simp [hescape, hc]), h]
  · exact hquote
  · intro _ _ _ _ _ hcs
    exact absurd hcs hescape
  · intro _ _ hcs
    exact absurd hcs hescape

theorem stringUnits?_append (h : stringUnits? cs = some (units, r)) :
    stringUnits? (cs ++ rest) = some (units, r ++ rest) := by
  fun_induction stringUnits? cs generalizing units with
  | case1 => cases h
  | case2 tail =>
    cases h
    rfl
  | case3 a b c d tail n units' after htail hcode ih =>
    cases h
    exact stringUnits?_code hcode (ih htail)
  | case4 => cases h
  | case5 c tail _ x units' after htail hc ih =>
    cases h
    exact stringUnits?_escape hc (ih htail)
  | case6 => cases h
  | case7 => cases h
  | case8 c tail hquote _ _ hc units' after htail ih =>
    cases h
    simp only [Bool.or_eq_true, decide_eq_true_eq, not_or, Nat.not_lt] at hc
    exact stringUnits?_char hquote hc.2 hc.1 (ih htail)
  | case9 => cases h

end Strings

/-! ### Tokens -/

theorem first?_of_number? {n : NumberText} (h : number? cs = some (n, r)) :
    first? cs = some (.number n, r) := by
  obtain ⟨c, tail, rfl, hc⟩ := number?_head h
  have hne : ∀ d : Char, d ≠ '-' → Integer.isDigit d = false → c ≠ d := by
    rintro d hminus hdigit rfl
    rcases hc with hc | hc
    · exact hminus hc
    · rw [hc] at hdigit
      cases hdigit
  rw [first?, h]
  · rfl
  -- No other token begins with a sign or a digit.
  all_goals
    intro tail hcs
    exact absurd (List.cons.inj hcs).1 (hne _ (by decide) (by decide))

theorem first?_append {t : Token} (h : first? cs = some (t, r)) (hrest : r = [] → Closed rest) :
    first? (cs ++ rest) = some (t, r ++ rest) := by
  unfold first? at h
  split at h
  case h_10 tail =>
    obtain ⟨⟨units, after⟩, hunits, h⟩ := Option.map_eq_some_iff.1 h
    cases h
    rw [List.cons_append, first?, stringUnits?_append hunits]
    rfl
  case h_11 =>
    obtain ⟨⟨n, after⟩, hn, h⟩ := Option.map_eq_some_iff.1 h
    cases h
    exact first?_of_number? (number?_append hn hrest)
  all_goals
    cases h
    rfl

/-! ### Texts -/

variable {ts ts' : List Token}

theorem splitWithin_gap (hgap : cs.dropWhile isGap = []) (fuel : Nat) :
    splitWithin (fuel + 1) cs = some [] := by
  rw [splitWithin, hgap]

theorem splitWithin_token {c : Char} {cs' : List Char} {t : Token}
    (hgap : cs.dropWhile isGap = c :: cs') (hfirst : first? (c :: cs') = some (t, r)) (fuel : Nat) :
    splitWithin (fuel + 1) cs = (splitWithin fuel r).map (t :: ·) := by
  rw [splitWithin, hgap]
  simp only [hfirst]

/-- A text that is cut is empty but for gaps, or begins with a token and goes on with a text that is
cut. -/
theorem splitWithin_cases {fuel : Nat} (h : splitWithin (fuel + 1) cs = some ts) :
    (cs.dropWhile isGap = [] ∧ ts = []) ∨
      ∃ c cs' t r us, cs.dropWhile isGap = c :: cs' ∧ first? (c :: cs') = some (t, r) ∧
        splitWithin fuel r = some us ∧ ts = t :: us := by
  cases hgap : cs.dropWhile isGap with
  | nil =>
    rw [splitWithin_gap hgap] at h
    cases h
    exact Or.inl ⟨rfl, rfl⟩
  | cons c cs' =>
    rw [splitWithin, hgap] at h
    cases hfirst : first? (c :: cs') with
    | none => simp [hfirst] at h
    | some token =>
      obtain ⟨t, r⟩ := token
      simp only [hfirst] at h
      obtain ⟨us, hus, h⟩ := Option.map_eq_some_iff.1 h
      exact Or.inr ⟨c, cs', t, r, us, rfl, hfirst, hus, h.symm⟩

theorem splitWithin_more {fuel : Nat} (h : splitWithin fuel cs = some ts) (more : Nat) :
    splitWithin (fuel + more) cs = some ts := by
  induction fuel generalizing cs ts with
  | zero => cases h
  | succ fuel ih =>
    rw [Nat.succ_add]
    rcases splitWithin_cases h with ⟨hgap, rfl⟩ | ⟨c, cs', t, r, us, hgap, hfirst, hus, rfl⟩
    · exact splitWithin_gap hgap _
    · rw [splitWithin_token hgap hfirst, ih hus]
      rfl

theorem splitWithin_append_gap (hgap : cs.dropWhile isGap = []) (fuel : Nat) :
    splitWithin fuel (cs ++ rest) = splitWithin fuel rest := by
  have hdrop : (cs ++ rest).dropWhile isGap = rest.dropWhile isGap := by
    simp [List.dropWhile_append, hgap]
  cases fuel with
  | zero => rfl
  | succ fuel => rw [splitWithin, splitWithin, hdrop]

/-- The step that finds the end of the first text is not taken if another text follows. -/
theorem splitWithin_append {fuel fuel' : Nat} (h : splitWithin (fuel + 1) cs = some ts)
    (hrest : splitWithin fuel' rest = some ts') (hclosed : Closed rest) :
    splitWithin (fuel + fuel') (cs ++ rest) = some (ts ++ ts') := by
  induction fuel generalizing cs ts with
  | zero =>
    rcases splitWithin_cases h with ⟨hgap, rfl⟩ | ⟨c, cs', t, r, us, hgap, hfirst, hus, rfl⟩
    · rw [Nat.zero_add, splitWithin_append_gap hgap, hrest]
      rfl
    · cases hus
  | succ fuel ih =>
    rcases splitWithin_cases h with ⟨hgap, rfl⟩ | ⟨c, cs', t, r, us, hgap, hfirst, hus, rfl⟩
    · rw [splitWithin_append_gap hgap, Nat.add_comm]
      exact splitWithin_more hrest _
    · have hdrop : (cs ++ rest).dropWhile isGap = c :: (cs' ++ rest) := by
        simp [List.dropWhile_append, hgap]
      have hfirst' : first? (c :: (cs' ++ rest)) = some (t, r ++ rest) :=
        first?_append hfirst fun _ => hclosed
      rw [Nat.succ_add, splitWithin_token hdrop hfirst', ih hus]
      rfl

/-- A text and what follows it are cut one after the other. -/
theorem split?_append (h : split? cs = some ts) (hrest : split? rest = some ts')
    (hclosed : Closed rest) : split? (cs ++ rest) = some (ts ++ ts') := by
  rw [split?, List.length_append, Nat.add_assoc]
  exact splitWithin_append h hrest hclosed

/-- A bracket, a comma or a colon is a token by itself, whatever follows. -/
theorem split?_cons {c : Char} {t : Token} (hgap : isGap c = false)
    (hfirst : ∀ cs, first? (c :: cs) = some (t, cs)) (h : split? cs = some ts) :
    split? (c :: cs) = some (t :: ts) := by
  have hdrop : (c :: cs).dropWhile isGap = c :: cs := by simp [hgap]
  rw [split?, List.length_cons, splitWithin_token hdrop (hfirst cs)]
  exact congrArg (Option.map (t :: ·)) h

/-- A text that is one token. -/
theorem split?_single {c : Char} {t : Token} (hgap : isGap c = false)
    (hfirst : first? (c :: cs) = some (t, [])) : split? (c :: cs) = some [t] := by
  have hdrop : (c :: cs).dropWhile isGap = c :: cs := by simp [hgap]
  rw [split?, List.length_cons, splitWithin_token hdrop hfirst, splitWithin_gap rfl]
  rfl

end Token

end Json

end ConfinedLisp
