import ConfinedLisp.Proofs.Renumbering

/-!
# Parts of texts

The start and the length of a substring may be any machine integers. The positions at which the text is
cut are computed from them on machine integers, with sums that would be refused where they overflow:
none is, and the positions lie within the text in the right order. Two substrings that meet make up the
text.

## Main definitions

- `Host.Length`: the ways to give a length, or none.

## Main results

- `Span.within`: the bounds of a span lie within the sequence, in order.
- `Span.bounds?_eq`: they are computed without overflow.
- `HostFunction.substr_within_bounds`: a substring consists of the characters between them, and the
  first part of a text and the rest make up the text.
-/

namespace ConfinedLisp

namespace Span

/-- The bounds of a span lie within the sequence, in order. -/
theorem within (size : Nat) (start : Int64) (length : Option Int64) :
    let span := of size start length
    (span.begin : Int) = position size start ∧
      (span.stop : Int) = ending size span.begin length ∧
      span.begin ≤ span.stop ∧ span.stop ≤ size := by
  have hbegin := position_within size start
  have hstop := ending_within hbegin length
  have hcast : ((position size start).toNat : Int) = position size start :=
    Int.toNat_of_nonneg hbegin.1
  simp only [of_eq, hcast, true_and]
  omega

/-- On machine integers no sum overflows, and the bounds are those of the span. -/
theorem bounds?_eq {size : Nat} (h : Integer.InRange size) (start : Int64) (length : Option Int64) :
    bounds? (Int64.ofInt size) start length =
      some (Int64.ofInt (of size start length).begin, Int64.ofInt (of size start length).stop) := by
  obtain ⟨begin, stop, hbounds, hbegin, hstop⟩ := bounds?_eq_exact h start length
  obtain ⟨hposition, hending, -, -⟩ := within size start length
  rw [hbounds, hending, hposition, ← hstop, ← hbegin, Int64.ofInt_toInt, Int64.ofInt_toInt]

end Span

/-! ### Substrings -/

namespace Host

/-- The length among the arguments after the start: one that is left out or nil is none, and a float
stands for the machine integer nearest to it. -/
inductive Length (callee : String) : List Value → Option Int64 → Prop where
  | absent : Length callee [] none
  | nil : Length callee [.nil] none
  | given {v : Value} {n : Int64} (h : Operands.integer callee v = .ok n) : Length callee [v] (some n)

variable {callee : String} {rest : List Value} {length : Option Int64}

theorem Length.count (h : Length callee rest length) (first start : Value) :
    Operands.count callee (.between 2 3) (first :: start :: rest) = .ok () := by
  cases h <;> rfl

theorem Length.spanOf {start : Value} {i : Int64} (hstart : Operands.integer callee start = .ok i)
    (h : Length callee rest length) (size : Nat) (first : Value) :
    spanOf callee size (first :: start :: rest) = .ok (.of size i length) := by
  rw [Host.spanOf]
  have hsecond : (first :: start :: rest).getD 1 .nil = start := rfl
  rw [hsecond, hstart]
  cases h with
  | absent => rfl
  | nil => rfl
  | @given v n hv =>
    cases v with
    | int m => exact congrArg (fun x => x.map fun n => Span.of size i (some n)) hv
    | float x => exact congrArg (fun x => x.map fun n => Span.of size i (some n)) hv
    | _ => cases hv

/-- A substring consists of the characters in its span. -/
theorem run_substr {start : Value} {i : Int64} (hstart : Operands.integer "substr" start = .ok i)
    (h : Length "substr" rest length) (t : String) (s : Store) :
    let span := Span.of t.toList.length i length
    HostFunction.substr.run (.str t :: start :: rest) s =
      (.ok (.str (String.ofList (t.toList.extract span.begin span.stop))), s) := by
  have hspan := h.spanOf hstart t.toList.length (.str t)
  rw [HostFunction.run, substr, h.count]
  change Eval.ofExcept (Host.spanOf "substr" t.toList.length (.str t :: start :: rest) >>= _) s = _
  rw [hspan]
  rfl

end Host

/-- Whatever machine integers are given, or floats that stand for some, the bounds of a substring lie
within the text, in order and computed without overflow, and the substring consists of the characters
between them. The first characters up to any number and the characters from there on make up the
text. -/
theorem HostFunction.substr_within_bounds (t : String) (s : Store) :
    (∀ {start : Value} {i : Int64} {rest : List Value} {length : Option Int64},
      Operands.integer "substr" start = .ok i → Host.Length "substr" rest length →
      ∃ begin stop : Nat,
        (begin : Int) = Span.position t.toList.length i ∧
        (stop : Int) = Span.ending t.toList.length begin length ∧
        begin ≤ stop ∧ stop ≤ t.toList.length ∧
        (Integer.InRange t.toList.length →
          Span.bounds? (Int64.ofInt t.toList.length) i length =
            some (Int64.ofInt begin, Int64.ofInt stop)) ∧
        substr.run (.str t :: start :: rest) s =
          (.ok (.str (String.ofList (t.toList.extract begin stop))), s)) ∧
    ∀ {zero k : Value} {n : Int64},
      Operands.integer "substr" zero = .ok 0 → Operands.integer "substr" k = .ok n →
      ∃ front back : String,
        substr.run [.str t, zero, k] s = (.ok (.str front), s) ∧
        substr.run [.str t, k] s = (.ok (.str back), s) ∧ front ++ back = t := by
  constructor
  · intro start i rest length hstart hlength
    obtain ⟨hbegin, hstop, hordered, hsize⟩ := Span.within t.toList.length i length
    exact ⟨_, _, hbegin, hstop, hordered, hsize, fun hrange => Span.bounds?_eq hrange i length,
      Host.run_substr hstart hlength t s⟩
  · intro zero k n hzero hk
    obtain ⟨i, hfirst, hrest⟩ := Span.of_meets t.toList.length n
    refine ⟨_, _, Host.run_substr hzero (.given hk) t s, Host.run_substr hk .absent t s, ?_⟩
    rw [hfirst, hrest, ← String.ofList_append]
    have hback : t.toList.extract i t.toList.length = t.toList.drop i := by
      rw [List.extract, ← List.length_drop, List.take_length]
    have hfront : t.toList.extract 0 i = t.toList.take i := by
      rw [List.extract, List.drop_zero, Nat.sub_zero]
    rw [hfront, hback, List.take_append_drop, String.ofList_toList]

/-- A start below the least integer, given as a float, with the greatest integer as the length, and a
text that is cut where the start says. -/
theorem HostFunction.substr_within_bounds_extremes :
    let t := "aé😀"
    let start : Value := .float (Float.ofBits 0xC3F0000000000000)
    (Operands.integer "substr" start = .ok Int64.minValue ∧
      Host.Length "substr" [.int Int64.maxValue] (some Int64.maxValue)) ∧
    (∃ begin stop : Nat, begin ≤ stop ∧ stop ≤ t.toList.length ∧
      Span.bounds? (Int64.ofInt t.toList.length) Int64.minValue (some Int64.maxValue) =
        some (Int64.ofInt begin, Int64.ofInt stop) ∧
      substr.run [.str t, start, .int Int64.maxValue] .empty =
        (.ok (.str (String.ofList (t.toList.extract begin stop))), .empty)) ∧
    ∃ front back, substr.run [.str t, .int 0, start] .empty = (.ok (.str front), .empty) ∧
      substr.run [.str t, start] .empty = (.ok (.str back), .empty) ∧ front ++ back = t := by
  intro t start
  have hstart : Operands.integer "substr" start = .ok Int64.minValue := rfl
  have hlength : Host.Length "substr" [.int Int64.maxValue] (some Int64.maxValue) := .given rfl
  obtain ⟨hbounds, hmeet⟩ := substr_within_bounds t .empty
  obtain ⟨begin, stop, -, -, hordered, hsize, hmachine, hrun⟩ := hbounds hstart hlength
  exact ⟨⟨hstart, hlength⟩,
    ⟨begin, stop, hordered, hsize, hmachine (by decide), hrun⟩, @hmeet (.int 0) start _ rfl hstart⟩

end ConfinedLisp
