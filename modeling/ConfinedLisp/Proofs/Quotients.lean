import ConfinedLisp.Proofs.ExactArithmetic

/-!
# Quotients and remainders

`/` and `%` go over their divisors from left to right, and a divisor that is zero makes them fail
wherever it stands. A quotient of integers is an integer as long as every division on the way is exact.
A remainder of integers always is one. The two agree: a remainder is zero where the quotient is an
integer. Only the least integer, divided by minus one, leaves no remainder and has a quotient that no
machine integer can hold.

## Main results

- `Integer.overflow_of_quotient`: which quotient does not fit.
- `Arithmetic.fold_dividing`: a division by numbers, or its failure.
- `Arithmetic.Steps.foldl_mul`, `Arithmetic.Steps.tmod_sign`, `Arithmetic.Steps.tmod_lt_getLast`: what
  successive quotients and remainders have to do with the dividend and the divisors.
- `Operation.remainder_zero_iff_exact`: how the two agree.
- `Operation.quotient_and_remainder`: the results of `/` and `%` on integers.
-/

namespace ConfinedLisp

open Integer (InRange)

/-! ### Checked division -/

namespace Integer

variable {x y n : Int64}

theorem toInt_ne_zero (h : y ≠ 0) : y.toInt ≠ 0 :=
  fun hy => h (Int64.toInt_inj.1 (hy.trans Int64.toInt_zero.symm))

/-- A quotient that no machine integer can hold is that of the least integer and minus one. -/
theorem overflow_of_quotient (hy : y ≠ 0) (hout : ¬ InRange (x.toInt.tdiv y.toInt)) :
    x = Int64.minValue ∧ y = -1 := by
  obtain ⟨hleast, hgreatest⟩ := inRange_toInt x
  have hne := toInt_ne_zero hy
  have hquotient : (x.toInt.tdiv y.toInt).natAbs = x.toInt.natAbs / y.toInt.natAbs :=
    Int.natAbs_tdiv ..
  unfold InRange least greatest at *
  -- A divisor of two or more leaves a quotient that is half as large at most.
  have hunit : y.toInt.natAbs = 1 := by
    refine Classical.byContradiction fun hunit => hout ?_
    have hhalf : x.toInt.natAbs / y.toInt.natAbs ≤ x.toInt.natAbs / 2 :=
      Nat.div_le_div_left (by omega) (by decide)
    omega
  rcases Int.natAbs_eq y.toInt with hy | hy
  · rw [hunit] at hy
    rw [hy, Int.natCast_one, Int.tdiv_one] at hout
    omega
  · rw [hunit] at hy
    have hy : y.toInt = (-1 : Int64).toInt := hy
    have hx : x.toInt = Int64.minValue.toInt := by
      rw [hy] at hout
      have hneg : x.toInt.tdiv (-1 : Int64).toInt = -x.toInt := by
        show x.toInt.tdiv (-1) = _
        rw [Int.tdiv_neg, Int.tdiv_one]
      show x.toInt = -9223372036854775808
      omega
    exact ⟨Int64.toInt_inj.1 hx, Int64.toInt_inj.1 hy⟩

theorem quotient?_eq_some_iff : quotient? x y = some n ↔ y ≠ 0 ∧ x.toInt.tdiv y.toInt = n.toInt := by
  unfold quotient?
  by_cases hy : y = 0
  · simp [hy]
  · rw [if_neg hy, ofInt?_eq_some_iff]
    constructor
    · rintro ⟨hrange, rfl⟩
      exact ⟨hy, (toInt_ofInt hrange).symm⟩
    · rintro ⟨-, hn⟩
      rw [hn]
      exact ⟨inRange_toInt n, Int64.ofInt_toInt n⟩

/-- A remainder has the sign of the dividend, if any. -/
theorem tmod_sign (a b : Int) : (0 ≤ a → 0 ≤ a.tmod b) ∧ (a ≤ 0 → a.tmod b ≤ 0) := by
  refine ⟨Int.tmod_nonneg b, fun ha => ?_⟩
  have hneg := Int.tmod_nonneg b (Int.neg_nonneg.2 ha)
  rw [Int.neg_tmod] at hneg
  omega

/-- A remainder of a machine integer is one. -/
theorem inRange_tmod (x y : Int64) : InRange (x.toInt.tmod y.toInt) := by
  obtain ⟨hleast, hgreatest⟩ := inRange_toInt x
  obtain ⟨hnonneg, hnonpos⟩ := tmod_sign x.toInt y.toInt
  have hle : (x.toInt.tmod y.toInt).natAbs ≤ x.toInt.natAbs := by
    rw [Int.natAbs_tmod]
    exact Nat.mod_le _ _
  unfold InRange least greatest at *
  omega

theorem remainder?_eq_some_iff {r : Int64} :
    remainder? x y = some r ↔ (∃ n, quotient? x y = some n) ∧ x.toInt.tmod y.toInt = r.toInt := by
  have hmod : Int64.ofInt (x.toInt.tmod y.toInt) = r ↔ x.toInt.tmod y.toInt = r.toInt := by
    rw [← Int64.toInt_inj, toInt_ofInt (inRange_tmod x y)]
  rw [remainder?, Option.map_eq_some_iff, ← hmod]
  exact exists_and_right

/-- Where there is no quotient that fits, there is no remainder either, and zero stands for it. -/
theorem toInt_remainder?_getD (hy : y ≠ 0) :
    ((remainder? x y).getD 0).toInt = x.toInt.tmod y.toInt := by
  cases hremainder : remainder? x y with
  | some r => exact (remainder?_eq_some_iff.1 hremainder).2.symm
  | none =>
    have hout : ¬ InRange (x.toInt.tdiv y.toInt) := by
      intro hrange
      have hquotient : quotient? x y = some (Int64.ofInt (x.toInt.tdiv y.toInt)) :=
        quotient?_eq_some_iff.2 ⟨hy, (toInt_ofInt hrange).symm⟩
      rw [remainder?, hquotient] at hremainder
      cases hremainder
    obtain ⟨rfl, rfl⟩ := overflow_of_quotient hy hout
    rfl

end Integer

/-! ### Steps on integers -/

namespace Number

/-- A quotient that leaves no remainder is exact. -/
theorem tdiv_exact_iff {a b c : Int} (hb : b ≠ 0) :
    a.tmod b = 0 ∧ a.tdiv b = c ↔ c * b = a := by
  constructor
  · rintro ⟨hmod, rfl⟩
    exact Int.tdiv_mul_cancel_of_tmod_eq_zero hmod
  · rintro rfl
    exact ⟨Int.mul_tmod_left c b, Int.mul_tdiv_cancel c hb⟩

/-- Two integers have an integer for a quotient exactly if it is exact. -/
theorem divide_follows : Follows divide fun a b c => b ≠ 0 ∧ c * b = a where
  int_iff x y n := by
    have hchecked : divide (.int x) (.int y) = .int n ↔
        Integer.remainder? x y = some 0 ∧ Integer.quotient? x y = some n := by
      rw [divide]
      by_cases hremainder : Integer.remainder? x y = some 0
      · rw [if_pos hremainder]
        cases Integer.quotient? x y <;> simp [hremainder]
      · rw [if_neg hremainder]
        simp [hremainder]
    rw [hchecked, Integer.remainder?_eq_some_iff]
    constructor
    · rintro ⟨⟨-, hmod⟩, hquotient⟩
      obtain ⟨hy, hdiv⟩ := Integer.quotient?_eq_some_iff.1 hquotient
      have hne := Integer.toInt_ne_zero hy
      exact ⟨hne, (tdiv_exact_iff hne).1 ⟨hmod, hdiv⟩⟩
    · rintro ⟨hne, hexact⟩
      obtain ⟨hmod, hdiv⟩ := (tdiv_exact_iff hne).2 hexact
      have hy : y ≠ 0 := fun hy => hne (hy ▸ rfl)
      have hquotient := Integer.quotient?_eq_some_iff.2 ⟨hy, hdiv⟩
      exact ⟨⟨⟨n, hquotient⟩, hmod⟩, hquotient⟩
  floats _ b := by cases b <;> exact ⟨⟨_, rfl⟩, _, rfl⟩

theorem remainder_follows : Follows remainder fun a b c => if b = 0 then c = 0 else a.tmod b = c where
  int_iff x y n := by
    rw [remainder, Number.int.injEq, ← Int64.toInt_inj]
    by_cases hy : y = 0
    · subst hy
      exact eq_comm
    · rw [if_neg (Integer.toInt_ne_zero hy), Integer.toInt_remainder?_getD hy]
  floats _ b := by cases b <;> exact ⟨⟨_, rfl⟩, _, rfl⟩

/-- A fold over integers. -/
theorem Follows.foldl_integers {f : Number → Number → Number} {R : Int → Int → Int → Prop}
    (h : Follows f R) {x n : Int64} {ys : List Int64} :
    (ys.map Number.int).foldl f (.int x) = .int n ↔
      Arithmetic.Steps R x.toInt (ys.map Int64.toInt) n.toInt := by
  rw [h.foldl_eq_int_iff]
  constructor
  · rintro ⟨x', ys', hx, hys, hsteps⟩
    obtain rfl := Number.int.inj hx
    obtain rfl := (List.map_inj_right fun _ _ => Number.int.inj).1 hys
    exact hsteps
  · exact fun hsteps => ⟨x, ys, rfl, rfl, hsteps⟩

theorem exists_foldl_remainder (x : Int64) (ys : List Int64) :
    ∃ r, (ys.map Number.int).foldl remainder (.int x) = .int r := by
  induction ys generalizing x with
  | nil => exact ⟨x, rfl⟩
  | cons y ys ih => exact ih _

end Number

namespace Arithmetic

variable {callee : String} {f : Number → Number → Number} {a c : Int} {bs : List Int}

namespace Steps

/-- The last of exact quotients, multiplied by all divisors, gives the dividend. -/
theorem foldl_mul (h : Steps (fun a b c => c * b = a) a bs c) : bs.foldl (· * ·) c = a := by
  induction bs generalizing a with
  | nil => exact h
  | cons b bs ih =>
    obtain ⟨next, hnext, -, hsteps⟩ := h
    calc bs.foldl (· * ·) (c * b) = bs.foldl (· * ·) (b * c) := by rw [Int.mul_comm]
      _ = b * bs.foldl (· * ·) c := List.foldl_assoc
      _ = a := by rw [ih hsteps, Int.mul_comm, hnext]

theorem tmod_sign (h : Steps (fun a b c => a.tmod b = c) a bs c) :
    (0 ≤ a → 0 ≤ c) ∧ (a ≤ 0 → c ≤ 0) := by
  induction bs generalizing a with
  | nil =>
    obtain rfl : c = a := h
    exact ⟨id, id⟩
  | cons b bs ih =>
    obtain ⟨next, rfl, -, hsteps⟩ := h
    obtain ⟨hnonneg, hnonpos⟩ := Integer.tmod_sign a b
    exact ⟨fun ha => (ih hsteps).1 (hnonneg ha), fun ha => (ih hsteps).2 (hnonpos ha)⟩

/-- The last of some remainders is less than the last divisor. -/
theorem tmod_lt_getLast {b : Int} (hne : ∀ d ∈ b :: bs, d ≠ 0)
    (h : Steps (fun a b c => a.tmod b = c) a (b :: bs) c) :
    c.natAbs < ((b :: bs).getLast (List.cons_ne_nil b bs)).natAbs := by
  induction bs generalizing a b with
  | nil =>
    obtain ⟨next, rfl, -, rfl⟩ := h
    rw [List.getLast_singleton, Int.natAbs_tmod]
    exact Nat.mod_lt _ (Int.natAbs_pos.2 (hne b (by simp)))
  | cons b' bs ih =>
    obtain ⟨next, -, -, hsteps⟩ := h
    rw [List.getLast_cons (List.cons_ne_nil b' bs)]
    exact ih (fun d hd => hne d (List.mem_cons_of_mem b hd)) hsteps

end Steps

/-! ### Folds over divisors -/

variable {n acc : Number} {ns : List Number}

theorem foldFrom_dividing : foldFrom callee (dividing callee f) acc (ns.map Number.toValue) =
    if ns.any Number.isZero then .error (.divisionByZero callee) else .ok (ns.foldl f acc) := by
  induction ns generalizing acc with
  | nil => rfl
  | cons n ns ih =>
    rw [List.map_cons, foldFrom, Operands.number_toValue, List.any_cons]
    cases hn : n.isZero with
    | true => simp [dividing, hn]
    | false => simp [dividing, hn, ih]

/-- A division fails if one of the divisors is zero, wherever it stands. -/
theorem fold_dividing : fold callee (dividing callee f) ((n :: ns).map Number.toValue) =
    if ns.any Number.isZero then .error (.divisionByZero callee)
    else .ok (ns.foldl f n).toValue := by
  rw [List.map_cons, fold, Operands.number_toValue]
  show Except.map Number.toValue (foldFrom _ _ n (ns.map Number.toValue)) = _
  rw [foldFrom_dividing]
  split <;> rfl

theorem fold_dividing_integers (x : Int64) (ys : List Int64) :
    fold callee (dividing callee f) ((x :: ys).map Value.int) =
      if 0 ∈ ys then .error (.divisionByZero callee)
      else .ok ((ys.map Number.int).foldl f (.int x)).toValue := by
  have hvalues : (Number.int x :: ys.map Number.int).map Number.toValue = (x :: ys).map Value.int :=
    Number.map_toValue_eq_iff.2 rfl
  have hzero : (ys.map Number.int).any Number.isZero = true ↔ 0 ∈ ys := by
    simp [List.any_map, Number.isZero]
  rw [← hvalues, fold_dividing]
  simp only [hzero]

end Arithmetic

/-! ### The operations -/

namespace Operation

open Arithmetic (Steps)

variable {x y : Int64} {ys : List Int64}

theorem toInt_ne_zero (h : 0 ∉ ys) : ∀ d ∈ ys.map Int64.toInt, d ≠ 0 := by
  rintro d hd rfl
  obtain ⟨z, hz, hzero⟩ := List.mem_map.1 hd
  exact Integer.toInt_ne_zero (fun hsame => h (hsame ▸ hz)) hzero

/-- Integers are divided exactly if each successive quotient is exact. -/
theorem exists_run_divide (h : 0 ∉ y :: ys) (s : Store) : ∃ quotient : Number,
    Operation.divide.run ((x :: y :: ys).map .int) s = (.ok quotient.toValue, s) ∧
      ∀ q, quotient = .int q ↔
        Steps (fun a b c => c * b = a) x.toInt ((y :: ys).map Int64.toInt) q.toInt := by
  refine ⟨((y :: ys).map Number.int).foldl Number.divide (.int x), ?_, fun q => ?_⟩
  · show Eval.ofExcept (Arithmetic.fold "/" _ ((x :: y :: ys).map .int)) s = _
    rw [Arithmetic.fold_dividing_integers, if_neg h]
    rfl
  · rw [Number.divide_follows.foldl_integers]
    exact Steps.congr fun d hd a c => and_iff_right (toInt_ne_zero h d hd)

/-- The remainders of integers are integers. -/
theorem exists_run_remainder (h : 0 ∉ y :: ys) (s : Store) : ∃ r : Int64,
    Operation.remainder.run ((x :: y :: ys).map .int) s = (.ok (.int r), s) ∧
      Steps (fun a b c => a.tmod b = c) x.toInt ((y :: ys).map Int64.toInt) r.toInt := by
  obtain ⟨r, hr⟩ := Number.exists_foldl_remainder x (y :: ys)
  have hcongr : ∀ d ∈ (y :: ys).map Int64.toInt, ∀ a c : Int,
      (if d = 0 then c = 0 else a.tmod d = c) ↔ a.tmod d = c := fun d hd a c => by
    rw [if_neg (toInt_ne_zero h d hd)]
  refine ⟨r, ?_, (Steps.congr hcongr).1 (Number.remainder_follows.foldl_integers.1 hr)⟩
  show Eval.ofExcept (Arithmetic.fold "%" _ ((x :: y :: ys).map .int)) s = _
  rw [Arithmetic.fold_dividing_integers, if_neg h, hr]
  rfl

/-- An integer that divides another one does so with a machine integer, but for the least integer and
minus one. -/
theorem exists_quotient_iff (hy : y ≠ 0) (hover : ¬ (x = Int64.minValue ∧ y = -1)) :
    (∃ q : Int64, q.toInt * y.toInt = x.toInt) ↔ x.toInt.tmod y.toInt = 0 := by
  constructor
  · rintro ⟨q, hq⟩
    rw [← hq, Int.mul_tmod_left]
  · intro hmod
    have hmul := Int.tdiv_mul_cancel_of_tmod_eq_zero hmod
    have hrange : InRange (x.toInt.tdiv y.toInt) :=
      Classical.byContradiction fun hout => hover (Integer.overflow_of_quotient hy hout)
    exact ⟨Int64.ofInt (x.toInt.tdiv y.toInt), by rw [Integer.toInt_ofInt hrange, hmul]⟩

/-- Of two integers, the remainder is zero exactly if the quotient is an integer. -/
theorem remainder_zero_iff_exact (hy : y ≠ 0) (hover : ¬ (x = Int64.minValue ∧ y = -1)) (s : Store) :
    Operation.remainder.run [.int x, .int y] s = (.ok (.int 0), s) ↔
      ∃ q, Operation.divide.run [.int x, .int y] s = (.ok (.int q), s) := by
  have h : 0 ∉ [y] := by simpa using hy.symm
  obtain ⟨quotient, hdivide, hint⟩ := exists_run_divide (x := x) h s
  obtain ⟨r, hremainder, next, rfl, -, hr⟩ := exists_run_remainder (x := x) h s
  have hexact (q : Int64) : quotient.toValue = .int q ↔ q.toInt * y.toInt = x.toInt := by
    rw [Number.toValue_eq_int_iff, hint q]
    constructor
    · rintro ⟨c, hc, -, hq⟩
      exact hq ▸ hc
    · exact fun hq => ⟨q.toInt, hq, Integer.inRange_toInt q, rfl⟩
  have hzero : r = 0 ↔ x.toInt.tmod y.toInt = 0 := by
    rw [← Int64.toInt_inj, hr, Int64.toInt_zero]
  calc Operation.remainder.run [.int x, .int y] s = (.ok (.int 0), s)
      ↔ (.ok (.int r), s) = ((.ok (.int 0), s) : Except Halt Value × Store) := by rw [← hremainder]; rfl
    _ ↔ x.toInt.tmod y.toInt = 0 := by simp [hzero]
    _ ↔ ∃ q : Int64, q.toInt * y.toInt = x.toInt := (exists_quotient_iff hy hover).symm
    _ ↔ ∃ q, (.ok quotient.toValue, s) = ((.ok (.int q), s) : Except Halt Value × Store) := by
      simp [hexact]
    _ ↔ ∃ q, Operation.divide.run [.int x, .int y] s = (.ok (.int q), s) := by rw [← hdivide]; rfl

/-- What `/` and `%` give of two integers or more. They fail exactly if one of the divisors is zero.
Else `/` gives an integer exactly if each successive quotient is an exact integer in range, and then it
is the dividend if it is multiplied by all divisors; in all other cases `/` gives a float. `%` gives the
successive truncated remainder, which has the sign of the dividend and is less than the last divisor.
Of two integers, the remainder is zero exactly if the quotient is an integer, but for the least integer
and minus one. -/
theorem quotient_and_remainder (x y : Int64) (ys : List Int64) (s : Store) :
    let operands := (x :: y :: ys).map Value.int
    let divisors := (y :: ys).map Int64.toInt
    (Operation.divide.run operands s = (.error (.error (.divisionByZero "/")), s) ↔ 0 ∈ y :: ys) ∧
    (Operation.remainder.run operands s = (.error (.error (.divisionByZero "%")), s) ↔
      0 ∈ y :: ys) ∧
    (0 ∉ y :: ys →
      (∃ quotient, Operation.divide.run operands s = (.ok quotient, s) ∧
        (∀ q, quotient = .int q ↔ Steps (fun a b c => c * b = a) x.toInt divisors q.toInt) ∧
        (∀ q, quotient = .int q → divisors.foldl (· * ·) q.toInt = x.toInt) ∧
        ((∀ q, quotient ≠ .int q) → ∃ z, quotient = .float z)) ∧
      ∃ r : Int64, Operation.remainder.run operands s = (.ok (.int r), s) ∧
        r.toInt = divisors.foldl Int.tmod x.toInt ∧
        (0 ≤ x.toInt → 0 ≤ r.toInt) ∧ (x.toInt ≤ 0 → r.toInt ≤ 0) ∧
        r.toInt.natAbs < (divisors.getLast (List.cons_ne_nil _ _)).natAbs) ∧
    (y ≠ 0 → ¬ (x = Int64.minValue ∧ y = -1) →
      (Operation.remainder.run [.int x, .int y] s = (.ok (.int 0), s) ↔
        ∃ q, Operation.divide.run [.int x, .int y] s = (.ok (.int q), s))) := by
  intro operands divisors
  refine ⟨⟨fun herror => ?_, fun h => ?_⟩, ⟨fun herror => ?_, fun h => ?_⟩, fun h => ⟨?_, ?_⟩,
    fun hy hover => ?_⟩
  · refine Classical.byContradiction fun h => ?_
    obtain ⟨quotient, hrun, -⟩ := exists_run_divide (x := x) h s
    cases herror.symm.trans hrun
  · show Eval.ofExcept (Arithmetic.fold "/" _ ((x :: y :: ys).map .int)) s = _
    rw [Arithmetic.fold_dividing_integers, if_pos h]
    rfl
  · refine Classical.byContradiction fun h => ?_
    obtain ⟨r, hrun, -⟩ := exists_run_remainder (x := x) h s
    cases herror.symm.trans hrun
  · show Eval.ofExcept (Arithmetic.fold "%" _ ((x :: y :: ys).map .int)) s = _
    rw [Arithmetic.fold_dividing_integers, if_pos h]
    rfl
  · obtain ⟨quotient, hrun, hint⟩ := exists_run_divide (x := x) h s
    refine ⟨quotient.toValue, hrun, fun q => ?_, fun q hq => ?_, fun hno => ?_⟩
    · rw [Number.toValue_eq_int_iff, hint q]
    · exact ((hint q).1 (Number.toValue_eq_int_iff.1 hq)).foldl_mul
    · cases quotient with
      | int q => exact absurd rfl (hno q)
      | float z => exact ⟨z, rfl⟩
  · obtain ⟨r, hrun, hsteps⟩ := exists_run_remainder (x := x) h s
    obtain ⟨-, hfold⟩ := (Steps.iff_scanl Int.tmod (Integer.inRange_toInt x)).1 hsteps
    obtain ⟨hnonneg, hnonpos⟩ := hsteps.tmod_sign
    exact ⟨r, hrun, hfold.symm, hnonneg, hnonpos, hsteps.tmod_lt_getLast (toInt_ne_zero h)⟩
  · exact remainder_zero_iff_exact hy hover s

/-- The least integer divided by minus one is out of range, and leaves no remainder. -/
theorem quotient_and_remainder_least :
    let operands : List Value := [.int Int64.minValue, .int (-1)]
    (∃ z, Operation.divide.run operands .empty = (.ok (.float z), .empty)) ∧
      Operation.remainder.run operands .empty = (.ok (.int 0), .empty) := by
  intro operands
  have h : (0 : Int64) ∉ [-1] := by decide
  obtain ⟨-, -, hresults, -⟩ := quotient_and_remainder Int64.minValue (-1) [] .empty
  obtain ⟨⟨quotient, hdivide, hint, -, hfloat⟩, r, hremainder, -, -, -, hlt⟩ := hresults h
  constructor
  · obtain ⟨z, rfl⟩ := hfloat fun q hq => by
      obtain ⟨next, hnext, ⟨-, hgreatest⟩, -⟩ := (hint q).1 hq
      have hproduct : next * -1 = -9223372036854775808 := hnext
      unfold Integer.greatest at hgreatest
      omega
    exact ⟨z, hdivide⟩
  · have hzero : r.toInt = 0 := Int.natAbs_eq_zero.1 (Nat.lt_one_iff.1 hlt)
    obtain rfl : r = 0 := Int64.toInt_inj.1 hzero
    exact hremainder

end Operation

end ConfinedLisp
