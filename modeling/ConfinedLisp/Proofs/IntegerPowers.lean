import ConfinedLisp.Host.Function
import Mathlib

/-!
# Powers of integers

`pow` of two integers squares the base repeatedly, and each product on the way must fit. Nothing is lost
by that: if the power fits, so does every product that is needed for it. So the power is exact whenever
it fits, as long as the exponent has at most 32 bits. For a wider exponent no integer is sought, though
the powers of zero, one and minus one always fit, and what is given then is the power of the doubles.

## Main results

- `Integer.timesPower?_eq`: repeated squaring fails exactly if the result does not fit.
- `HostFunction.pow_exact_unless_wide`: what `pow` gives of two integers.
-/

namespace ConfinedLisp

namespace Integer

/-! ### Factors of integers in range -/

variable {i j b : Int} {k : Nat}

theorem InRange.natAbs_le (h : InRange i) : i.natAbs ≤ 2 ^ 63 := by
  simp only [InRange, least, greatest] at h
  omega

theorem inRange_of_natAbs_lt (h : i.natAbs < 2 ^ 63) : InRange i := by
  simp only [InRange, least, greatest]
  omega

theorem InRange.of_mul (h : InRange (i * j)) (hj : 2 ≤ j.natAbs) : InRange i := by
  have hle := h.natAbs_le
  rw [Int.natAbs_mul] at hle
  have htwice := Nat.mul_le_mul_left i.natAbs hj
  exact inRange_of_natAbs_lt (by omega)

/-- The greatest absolute value that an integer has is no square. -/
theorem InRange.square_of_mul (h : InRange (b * b * j)) (hj : j ≠ 0) : InRange (b * b) := by
  by_cases hlarge : 2 ≤ j.natAbs
  · exact h.of_mul hlarge
  · have hle := h.natAbs_le
    rw [Int.natAbs_mul, show j.natAbs = 1 by omega, Nat.mul_one, Int.natAbs_mul] at hle
    have hroot : b.natAbs ≤ 3037000499 := by
      by_contra hroot
      have := Nat.mul_le_mul (Nat.lt_of_not_le hroot) (Nat.lt_of_not_le hroot)
      omega
    have hsquare := Nat.mul_le_mul hroot hroot
    refine inRange_of_natAbs_lt ?_
    rw [Int.natAbs_mul]
    omega

theorem inRange_pow_of_natAbs_le_one (hb : b.natAbs ≤ 1) (k : Nat) : InRange (b ^ k) := by
  refine inRange_of_natAbs_lt ?_
  rw [Int.natAbs_pow]
  exact (pow_le_one₀ (Nat.zero_le _) hb).trans_lt (by norm_num)

theorem not_inRange_pow (hb : 2 ≤ b.natAbs) (hk : 64 ≤ k) : ¬ InRange (b ^ k) := by
  intro h
  have hle := h.natAbs_le
  rw [Int.natAbs_pow] at hle
  have hpow : 2 ^ 64 ≤ b.natAbs ^ k := calc
    2 ^ 64 ≤ 2 ^ k := Nat.pow_le_pow_right (by decide) hk
    _ ≤ b.natAbs ^ k := Nat.pow_le_pow_left hb k
  omega

/-- The first factor of an odd power is in range with the product. -/
theorem InRange.of_mul_odd_power {a : Int} (h : InRange (a * b * (b * b) ^ k)) : InRange (a * b) := by
  by_cases hone : b.natAbs ≤ 1
  · obtain rfl | hsquare : b = 0 ∨ b * b = 1 := by
      obtain rfl | rfl | rfl : b = 0 ∨ b = 1 ∨ b = -1 := by omega
      all_goals simp
    · simp [InRange, least, greatest]
    · rwa [hsquare, one_pow, mul_one] at h
  · cases k with
    | zero => rwa [pow_zero, mul_one] at h
    | succ k =>
      refine h.of_mul ?_
      rw [Int.natAbs_pow, Int.natAbs_mul]
      have hlarge : 2 * 2 ≤ b.natAbs * b.natAbs := Nat.mul_le_mul (by omega) (by omega)
      exact (show 2 ≤ b.natAbs * b.natAbs by omega).trans (Nat.le_self_pow (by omega) _)

/-! ### Repeated squaring -/

variable {acc base : Int64}

theorem times?_eq_none_iff {x y : Int64} : times? x y = none ↔ ¬ InRange (x.toInt * y.toInt) :=
  ofInt?_eq_none_iff

/-- Going on from a square gives the result if it fits, and fails otherwise. -/
theorem bind_square (h : acc.toInt = 0 → base.toInt = 0) (hk : k ≠ 0)
    (hrest : ∀ square : Int64, (acc.toInt = 0 → square.toInt = 0) →
      timesPower? acc square k = ofInt? (acc.toInt * square.toInt ^ k)) :
    ((times? base base).bind fun square => timesPower? acc square k) =
      ofInt? (acc.toInt * (base.toInt * base.toInt) ^ k) := by
  cases hsquare : times? base base with
  | some square =>
    have hvalue := toInt_of_ofInt?_eq_some hsquare
    rw [Option.bind_some, hrest square fun hacc => by rw [hvalue, h hacc, mul_zero], hvalue]
  | none =>
    have hout := times?_eq_none_iff.1 hsquare
    rw [Option.bind_none, eq_comm, ofInt?_eq_none_iff]
    intro hin
    obtain ⟨k, rfl⟩ := Nat.exists_eq_succ_of_ne_zero hk
    rw [pow_succ', mul_left_comm] at hin
    by_cases hbase : base.toInt = 0
    · exact hout (by simp [hbase, InRange, least, greatest])
    · have hothers := mul_ne_zero (mt h hbase) (pow_ne_zero k (mul_ne_zero hbase hbase))
      exact hout (hin.square_of_mul hothers)

/-- Repeated squaring fails exactly if the result does not fit. Zero may only be multiplied by powers of
zero: otherwise the squares could fail to fit though they do not matter. -/
theorem timesPower?_eq (h : acc.toInt = 0 → base.toInt = 0) (exponent : Nat) :
    timesPower? acc base exponent = ofInt? (acc.toInt * base.toInt ^ exponent) := by
  -- The exponent is halved with each square, and `acc` takes up what is left over.
  induction exponent using Nat.strong_induction_on generalizing acc base with
  | _ exponent ih =>
    rw [timesPower?]
    by_cases hzero : exponent = 0
    · rw [if_pos hzero, hzero, pow_zero, mul_one, ofInt?_toInt]
    rw [if_neg hzero]
    by_cases hone : exponent = 1
    · rw [if_pos hone, hone, pow_one, times?]
    rw [if_neg hone]
    obtain ⟨k, hk, hparity⟩ : ∃ k, k ≠ 0 ∧ (exponent = 2 * k ∨ exponent = 2 * k + 1) :=
      ⟨exponent / 2, by omega, by omega⟩
    have hhalf : exponent / 2 = k := by omega
    have hrest : ∀ {acc square : Int64}, (acc.toInt = 0 → square.toInt = 0) →
        timesPower? acc square k = ofInt? (acc.toInt * square.toInt ^ k) := ih k (by omega)
    rw [hhalf]
    rcases hparity with heven | hodd
    · rw [if_neg (by omega), heven, pow_mul, pow_two]
      exact bind_square h hk fun _ => hrest
    · rw [if_pos (by omega), hodd, pow_succ', pow_mul, pow_two, ← mul_assoc]
      cases hnext : times? acc base with
      | some next =>
        have hvalue := toInt_of_ofInt?_eq_some hnext
        rw [← hvalue]
        refine bind_square (fun hnext => ?_) hk fun _ => hrest
        rw [hvalue] at hnext
        exact (mul_eq_zero.1 hnext).elim h id
      | none =>
        have hout := times?_eq_none_iff.1 hnext
        exact (ofInt?_eq_none_iff.2 fun hin => hout hin.of_mul_odd_power).symm

end Integer

/-! ### The host function -/

theorem Operands.count_pair (callee : String) (x y : Value) :
    Operands.count callee (.exactly 2) [x, y] = .ok () :=
  rfl

namespace Host

open Integer (InRange)

variable {b e : Int64}

/-- For an exponent of at most 32 bits the power is sought among the integers. -/
theorem exactPower?_eq (he : 0 ≤ e.toInt) (hwidth : e.toInt ≤ widestExponent) :
    exactPower? b e = Integer.ofInt? (b.toInt ^ e.toInt.toNat) := by
  have hone : (1 : Int64).toInt = 1 := rfl
  rw [exactPower?, if_neg (by omega), Integer.timesPower?_eq (by rw [hone]; omega), hone, one_mul]

theorem exactPower?_of_wide (hwidth : widestExponent < e.toInt) : exactPower? b e = none :=
  if_pos (.inr hwidth)

theorem pow_of_exactPower?_eq_some {n : Int64} (h : exactPower? b e = some n) :
    pow [.int b, .int e] = .ok (.int n) := by
  rw [pow, Operands.count_pair]
  simp only [List.headD_cons, List.getD_cons_succ, List.getD_cons_zero, h]
  rfl

theorem pow_of_exactPower?_eq_none (h : exactPower? b e = none) :
    pow [.int b, .int e] = .ok (.float ((Double.ofInteger b).pow (Double.ofInteger e))) := by
  rw [pow, Operands.count_pair]
  simp only [List.headD_cons, List.getD_cons_succ, List.getD_cons_zero, h]
  rfl

end Host

namespace HostFunction

open Integer (InRange)

variable {b e : Int64}

theorem run_pow_of_inRange (he : 0 ≤ e.toInt) (hwidth : e.toInt ≤ Host.widestExponent)
    (hfits : InRange (b.toInt ^ e.toInt.toNat)) (s : Store) :
    HostFunction.pow.run [.int b, .int e] s =
      (.ok (.int (Int64.ofInt (b.toInt ^ e.toInt.toNat))), s) := by
  have hpower := Integer.ofInt?_eq_some_iff.2 ⟨hfits, rfl⟩
  rw [HostFunction.run, Host.pow_of_exactPower?_eq_some ((Host.exactPower?_eq he hwidth).trans hpower)]
  rfl

theorem run_pow_of_none (h : Host.exactPower? b e = none) (s : Store) :
    HostFunction.pow.run [.int b, .int e] s =
      (.ok (.float ((Double.ofInteger b).pow (Double.ofInteger e))), s) := by
  rw [HostFunction.run, Host.pow_of_exactPower?_eq_none h]
  rfl

/-- What `pow` gives of an integer and an exponent that is not negative. It gives the exact power as an
integer if a machine integer can hold it, and the power of the doubles otherwise, unless the exponent
has more than 32 bits and the base is zero, one or minus one. Then it gives the power of the doubles
though the exact power fits. -/
theorem pow_exact_unless_wide (he : 0 ≤ e.toInt) (s : Store) :
    let power : Int := b.toInt ^ e.toInt.toNat
    let answer := HostFunction.pow.run [.int b, .int e] s
    let float : Value := .float ((Double.ofInteger b).pow (Double.ofInteger e))
    ((2 ≤ b.toInt.natAbs ∨ e.toInt < 2 ^ 32) →
      ((∃ n : Int64, n.toInt = power ∧ answer = (.ok (.int n), s)) ↔ InRange power) ∧
      (¬ InRange power → answer = (.ok float, s))) ∧
    (b.toInt.natAbs ≤ 1 → 2 ^ 32 ≤ e.toInt → InRange power ∧ answer = (.ok float, s)) := by
  intro power answer float
  have hnarrow : e.toInt ≤ Host.widestExponent ↔ e.toInt < 2 ^ 32 := by
    rw [Host.widestExponent]
    omega
  have hwide : 2 ^ 32 ≤ e.toInt → answer = (.ok float, s) := fun hwidth =>
    run_pow_of_none (Host.exactPower?_of_wide (by rw [Host.widestExponent]; omega)) s
  refine ⟨fun hcase => ⟨⟨?_, fun hfits => ?_⟩, fun hout => ?_⟩, fun hbase hwidth =>
    ⟨Integer.inRange_pow_of_natAbs_le_one hbase _, hwide hwidth⟩⟩
  · rintro ⟨n, hn, -⟩
    exact hn ▸ Integer.inRange_toInt n
  · have hwidth : e.toInt < 2 ^ 32 := by
      refine hcase.elim (fun hbase => ?_) id
      by_contra hwidth
      exact Integer.not_inRange_pow hbase (by omega) hfits
    exact ⟨_, Integer.toInt_ofInt hfits, run_pow_of_inRange he (hnarrow.2 hwidth) hfits s⟩
  · rcases lt_or_ge e.toInt (2 ^ 32) with hwidth | hwidth
    · have hnone := Integer.ofInt?_eq_none_iff.2 hout
      exact run_pow_of_none ((Host.exactPower?_eq he (hnarrow.2 hwidth)).trans hnone) s
    · exact hwide hwidth

/-- The least integer is a power, though its absolute value is out of range. -/
theorem pow_exact_unless_wide_least :
    (0 ≤ (63 : Int64).toInt) ∧
      (∃ n : Int64, n.toInt = Integer.least ∧
        HostFunction.pow.run [.int (-2), .int 63] .empty = (.ok (.int n), .empty)) ∧
      HostFunction.pow.run [.int 2, .int 63] .empty =
        (.ok (.float ((Double.ofInteger 2).pow (Double.ofInteger 63))), .empty) := by
  have he : 0 ≤ (63 : Int64).toInt := by decide
  obtain ⟨hleast, -⟩ := pow_exact_unless_wide (b := -2) he .empty
  obtain ⟨hgreater, -⟩ := pow_exact_unless_wide (b := 2) he .empty
  exact ⟨he, (hleast (.inl (by decide))).1.2 (by decide), (hgreater (.inl (by decide))).2 (by decide)⟩

/-- With wide exponents minus one has the same power for an odd and an even one, as both are the same
double. Its exact powers fit, and differ. -/
theorem pow_of_wide_exponents_confused :
    let odd : Int64 := 9007199254740993
    let even : Int64 := 9007199254740992
    (-1 : Int64).toInt ^ odd.toInt.toNat = -1 ∧ (-1 : Int64).toInt ^ even.toInt.toNat = 1 ∧
      ∃ x, HostFunction.pow.run [.int (-1), .int odd] .empty = (.ok (.float x), .empty) ∧
        HostFunction.pow.run [.int (-1), .int even] .empty = (.ok (.float x), .empty) := by
  intro odd even
  have hbase : (-1 : Int64).toInt = -1 := rfl
  have hodd : odd.toInt.toNat = 9007199254740993 := rfl
  have heven : even.toInt.toNat = 9007199254740992 := rfl
  have hsame : Double.ofInteger even = Double.ofInteger odd := by decide +kernel
  have hwide : ∀ {e : Int64}, e = odd ∨ e = even → Host.exactPower? (-1) e = none := by
    rintro e (rfl | rfl) <;> exact Host.exactPower?_of_wide (by decide)
  refine ⟨?_, ?_, _, run_pow_of_none (hwide (.inl rfl)) _, ?_⟩
  · rw [hbase, hodd]
    exact Odd.neg_one_pow ⟨4503599627370496, by norm_num⟩
  · rw [hbase, heven]
    exact Even.neg_one_pow ⟨4503599627370496, by norm_num⟩
  · rw [run_pow_of_none (hwide (.inr rfl)), hsame]

end HostFunction

end ConfinedLisp
