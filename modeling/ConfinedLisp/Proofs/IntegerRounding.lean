import ConfinedLisp.Double.Nearest
import ConfinedLisp.Proofs.Comparison

/-!
# Integers as doubles

A double has room for 53 binary digits. The double of a machine integer with more digits is that of an
integer nearby, and two doubles of integers compare as these integers do. Rounding keeps the order of
integers but not their differences: it leaves those up to `2^53` as they are, and brings others
together that are at most 1024 apart.

## Main definitions

- `Double.roundNat`, `Double.roundInt`: the number nearest to a number among those that doubles express.
- `Double.Stands`: a double, taken apart, that stands for an integer.

## Main results

- `Double.roundInt_mono`, `Double.roundInt_of_natAbs_le`, `Double.roundInt_near`: what rounding does.
- `Double.Stands.compare`: doubles that stand for integers compare as these do.
- `Double.stands_ofInteger`: the double of a machine integer stands for the rounded integer.
- `Double.ofInteger_lt_iff`: doubles of machine integers compare as the rounded integers do.
-/

namespace ConfinedLisp

namespace Double

open Float.Model UnpackedFloat

/-! ### Rounding a quotient -/

section

variable {a b d : Nat}

theorem roundQuotient_bounds (a d : Nat) :
    a / d ≤ roundQuotient a d ∧ roundQuotient a d ≤ a / d + 1 := by
  unfold roundQuotient
  dsimp only
  split <;> omega

theorem roundQuotient_mono (d : Nat) (h : a ≤ b) : roundQuotient a d ≤ roundQuotient b d := by
  rcases Nat.lt_or_eq_of_le (Nat.div_le_div_right (c := d) h) with hlt | heq
  · calc roundQuotient a d ≤ a / d + 1 := (roundQuotient_bounds a d).2
      _ ≤ b / d := hlt
      _ ≤ roundQuotient b d := (roundQuotient_bounds b d).1
  · have hmod : a % d ≤ b % d := by
      have ha := Nat.div_add_mod a d
      have hb := Nat.div_add_mod b d
      rw [heq] at ha
      omega
    unfold roundQuotient
    dsimp only
    rw [heq]
    split <;> split <;> omega

theorem roundQuotient_mul (q : Nat) (hd : 0 < d) : roundQuotient (q * d) d = q := by
  unfold roundQuotient
  dsimp only
  rw [Nat.mul_mod_left, Nat.mul_div_cancel _ hd, if_neg (by omega)]

end

/-! ### Rounding a natural number -/

section

variable {n n' : Nat}

/-- How many binary digits of a number a double has no room for. -/
def excess (n : Nat) : Nat := n.log2 - 52

/-- The natural number nearest to another one among those that doubles express. -/
def roundNat (n : Nat) : Nat := roundQuotient n (2 ^ excess n) * 2 ^ excess n

/-- The powers of two around a number with at least 53 digits. -/
theorem two_pow_log2_eq (h : 52 ≤ n.log2) :
    2 ^ n.log2 = 2 ^ 52 * 2 ^ excess n ∧ 2 ^ (n.log2 + 1) = 2 ^ 53 * 2 ^ excess n := by
  rw [← Nat.pow_add, ← Nat.pow_add, excess, Nat.add_sub_cancel' h,
    show 53 + (n.log2 - 52) = n.log2 + 1 by omega]
  exact ⟨rfl, rfl⟩

/-- Of a number with at least 53 digits, the rounded quotient has 53 digits or is the next power of
two. -/
theorem roundQuotient_range (h : 52 ≤ n.log2) :
    2 ^ 52 ≤ roundQuotient n (2 ^ excess n) ∧ roundQuotient n (2 ^ excess n) ≤ 2 ^ 53 := by
  have hd : 0 < 2 ^ excess n := Nat.two_pow_pos _
  have hn : n ≠ 0 := by
    rintro rfl
    simp at h
  obtain ⟨hpow, hpow'⟩ := two_pow_log2_eq h
  have hlow : 2 ^ 52 * 2 ^ excess n ≤ n := hpow ▸ Nat.log2_self_le hn
  have hhigh : n ≤ 2 ^ 53 * 2 ^ excess n := hpow' ▸ Nat.lt_log2_self.le
  have hfirst := roundQuotient_mono (2 ^ excess n) hlow
  have hlast := roundQuotient_mono (2 ^ excess n) hhigh
  rw [roundQuotient_mul _ hd] at hfirst hlast
  exact ⟨hfirst, hlast⟩

theorem roundNat_of_log2_le (h : n.log2 ≤ 52) : roundNat n = n := by
  have hquotient := roundQuotient_mul (d := 1) n one_pos
  rw [roundNat, excess, Nat.sub_eq_zero_of_le h, Nat.pow_zero, Nat.mul_one]
  rwa [Nat.mul_one] at hquotient

/-- Rounding does not go beyond a power of two. -/
theorem roundNat_range (hn : n ≠ 0) : 2 ^ n.log2 ≤ roundNat n ∧ roundNat n ≤ 2 ^ (n.log2 + 1) := by
  rcases Nat.le_total n.log2 52 with hlog | hlog
  · rw [roundNat_of_log2_le hlog]
    exact ⟨Nat.log2_self_le hn, Nat.lt_log2_self.le⟩
  · obtain ⟨hlow, hhigh⟩ := roundQuotient_range hlog
    obtain ⟨hpow, hpow'⟩ := two_pow_log2_eq hlog
    rw [hpow, hpow', roundNat]
    exact ⟨Nat.mul_le_mul_right _ hlow, Nat.mul_le_mul_right _ hhigh⟩

theorem roundNat_mono (h : n ≤ n') : roundNat n ≤ roundNat n' := by
  rcases Nat.eq_zero_or_pos n with rfl | hn
  · exact (roundNat_of_log2_le (by simp)).trans_le (Nat.zero_le _)
  · have hn' : n' ≠ 0 := (hn.trans_le h).ne'
    have hlog : n.log2 ≤ n'.log2 := (Nat.le_log2 hn').2 ((Nat.log2_self_le hn.ne').trans h)
    rcases Nat.lt_or_eq_of_le hlog with hlt | heq
    · calc roundNat n ≤ 2 ^ (n.log2 + 1) := (roundNat_range hn.ne').2
        _ ≤ 2 ^ n'.log2 := Nat.pow_le_pow_right two_pos hlt
        _ ≤ roundNat n' := (roundNat_range hn').1
    · rw [roundNat, roundNat, excess, excess, heq]
      exact Nat.mul_le_mul_right _ (roundQuotient_mono _ h)

/-- Rounding goes at most half a unit of the last digit that stays. -/
theorem roundNat_near (n : Nat) :
    2 * n ≤ 2 * roundNat n + 2 ^ excess n ∧ 2 * roundNat n ≤ 2 * n + 2 ^ excess n := by
  rw [roundNat, Nat.mul_comm _ (2 ^ _)]
  exact roundQuotient_near n (Nat.two_pow_pos _)

theorem roundNat_of_le (h : n ≤ 2 ^ 53) : roundNat n = n := by
  rcases Nat.lt_or_eq_of_le h with hlt | rfl
  · refine roundNat_of_log2_le ?_
    rcases Nat.eq_zero_or_pos n with rfl | hn
    · simp
    · exact Nat.lt_succ_iff.1 ((Nat.log2_lt hn.ne').2 hlt)
  · decide

/-- The greatest power of two is kept, and below it at most ten digits are lost. -/
theorem roundNat_near_of_le (h : n ≤ 2 ^ 63) :
    n ≤ roundNat n + 512 ∧ roundNat n ≤ n + 512 := by
  rcases Nat.lt_or_eq_of_le h with hlt | rfl
  · have hpow : 2 ^ excess n ≤ 2 ^ 10 := by
      refine Nat.pow_le_pow_right two_pos ?_
      rcases Nat.eq_zero_or_pos n with rfl | hn
      · decide
      · have := (Nat.log2_lt hn.ne').2 hlt
        rw [excess]
        omega
    obtain ⟨hbelow, habove⟩ := roundNat_near n
    omega
  · decide

end

/-! ### Rounding an integer -/

section

variable {i j : Int}

/-- The integer nearest to another one among those that doubles express. -/
def roundInt (i : Int) : Int := if i < 0 then -roundNat i.natAbs else roundNat i.natAbs

theorem roundInt_mono (h : i ≤ j) : roundInt i ≤ roundInt j := by
  unfold roundInt
  split <;> split
  · have := roundNat_mono (show j.natAbs ≤ i.natAbs by omega)
    omega
  · omega
  · omega
  · have := roundNat_mono (show i.natAbs ≤ j.natAbs by omega)
    omega

theorem roundInt_of_natAbs_le (h : i.natAbs ≤ 2 ^ 53) : roundInt i = i := by
  rw [roundInt, roundNat_of_le h]
  split <;> omega

theorem roundInt_near (h : Integer.InRange i) : i ≤ roundInt i + 512 ∧ roundInt i ≤ i + 512 := by
  obtain ⟨hlow, hhigh⟩ := h
  rw [Integer.least] at hlow
  rw [Integer.greatest] at hhigh
  have hnear := roundNat_near_of_le (show i.natAbs ≤ 2 ^ 63 by omega)
  unfold roundInt
  split <;> omega

end

/-! ### Significand and exponent -/

/-- A significand of full length and an exponent express a natural number. -/
structure Expresses (m : Nat) (e : Int) (n : Nat) : Prop where
  low : 2 ^ 52 ≤ m
  high : m < 2 ^ 53
  exponent : -52 ≤ e
  value : m * 2 ^ (e + 52).toNat = n * 2 ^ 52

namespace Expresses

variable {m m' n n' : Nat} {e e' : Int}

theorem pos (h : Expresses m e n) : 0 < n := by
  have hvalue : 0 < m * 2 ^ (e + 52).toNat :=
    Nat.mul_pos ((Nat.two_pow_pos 52).trans_le h.low) (Nat.two_pow_pos _)
  rw [h.value] at hvalue
  exact Nat.pos_of_mul_pos_right hvalue

theorem lt_of_exponent_lt (h : Expresses m e n) (h' : Expresses m' e' n') (he : e < e') : n < n' := by
  have hexponent := h.exponent
  have hpow : 2 ^ (e + 52).toNat * 2 ≤ 2 ^ (e' + 52).toNat := by
    rw [← Nat.pow_succ]
    exact Nat.pow_le_pow_right two_pos (by omega)
  have hlt : n * 2 ^ 52 < n' * 2 ^ 52 := by
    calc n * 2 ^ 52 = m * 2 ^ (e + 52).toNat := h.value.symm
      _ < 2 ^ 53 * 2 ^ (e + 52).toNat := Nat.mul_lt_mul_of_pos_right h.high (Nat.two_pow_pos _)
      _ = 2 ^ 52 * (2 ^ (e + 52).toNat * 2) := by ring
      _ ≤ m' * 2 ^ (e' + 52).toNat := Nat.mul_le_mul h'.low hpow
      _ = n' * 2 ^ 52 := h'.value
  exact Nat.lt_of_mul_lt_mul_right hlt

theorem lt_of_significand_lt (h : Expresses m e n) (h' : Expresses m' e n') (hm : m < m') : n < n' := by
  have hlt : n * 2 ^ 52 < n' * 2 ^ 52 := by
    rw [← h.value, ← h'.value]
    exact Nat.mul_lt_mul_of_pos_right hm (Nat.two_pow_pos _)
  exact Nat.lt_of_mul_lt_mul_right hlt

/-- Numbers compare as their exponents do, and if these are equal as their significands do. -/
theorem compare (h : Expresses m e n) (h' : Expresses m' e' n') :
    (compare e e').then (compare m m') = compare (n : Int) n' := by
  rcases lt_trichotomy e e' with he | rfl | he
  · rw [compare_lt_iff_lt.2 he, compare_lt_iff_lt.2 (Int.ofNat_lt.2 (h.lt_of_exponent_lt h' he))]
    rfl
  · rw [compare_eq_iff_eq.2 rfl, Ordering.then]
    rcases lt_trichotomy m m' with hm | rfl | hm
    · rw [compare_lt_iff_lt.2 hm, compare_lt_iff_lt.2 (Int.ofNat_lt.2 (h.lt_of_significand_lt h' hm))]
    · have hn : n = n' := Nat.eq_of_mul_eq_mul_right (Nat.two_pow_pos 52) (h.value.symm.trans h'.value)
      rw [compare_eq_iff_eq.2 rfl, compare_eq_iff_eq.2 (Int.ofNat_inj.2 hn)]
    · rw [compare_gt_iff_gt.2 hm, compare_gt_iff_gt.2 (Int.ofNat_lt.2 (h'.lt_of_significand_lt h hm))]
  · rw [compare_gt_iff_gt.2 he, compare_gt_iff_gt.2 (Int.ofNat_lt.2 (h'.lt_of_exponent_lt h he))]
    rfl

end Expresses

/-- A double, taken apart, stands for an integer. -/
inductive Stands : UnpackedFloat → Int → Prop where
  | zero (sign : Sign) : Stands (.zero sign) 0
  | positive {m n : Nat} {e : Int} (hm : 0 < m) :
      Expresses m e n → Stands (.finite .positive m e hm) n
  | negative {m n : Nat} {e : Int} (hm : 0 < m) :
      Expresses m e n → Stands (.finite .negative m e hm) (-n)

/-- Doubles that stand for integers compare as these do. -/
theorem Stands.compare {f g : UnpackedFloat} {i j : Int} (hf : Stands f i) (hg : Stands g j) :
    f.compare g = some (compare i j) := by
  cases hf with
  | zero sign =>
    cases hg with
    | zero sign' => rfl
    | positive hm' h' =>
      have := h'.pos
      rw [compare_lt_iff_lt.2 (by omega)]
      rfl
    | negative hm' h' =>
      have := h'.pos
      rw [compare_gt_iff_gt.2 (by omega)]
      rfl
  | positive hm h =>
    have := h.pos
    cases hg with
    | zero sign' =>
      rw [compare_gt_iff_gt.2 (by omega)]
      rfl
    | positive hm' h' => exact congrArg some (h.compare h')
    | negative hm' h' =>
      have := h'.pos
      rw [compare_gt_iff_gt.2 (by omega)]
      rfl
  | negative hm h =>
    have := h.pos
    cases hg with
    | zero sign' =>
      rw [compare_lt_iff_lt.2 (by omega)]
      rfl
    | positive hm' h' =>
      have := h'.pos
      rw [compare_lt_iff_lt.2 (by omega)]
      rfl
    | negative hm' h' =>
      refine congrArg some ((congrArg Ordering.swap (h.compare h')).trans ?_)
      rw [Int.compare_swap]
      simp [Ord.compare, compareOfLessAndEq, eq_comm]

/-! ### Rounding in the model of doubles -/

/-- What is left of a number that has lost its last `k` binary digits: the digits that stay, and where
the lost part lies with respect to a half. -/
structure Truncates (n k : Nat) (em : ExtendedMantissa) : Prop where
  mantissa : em.mantissa = n / 2 ^ k
  roundBit : em.roundBit = true ↔ 2 ^ k ≤ 2 * (n % 2 ^ k)
  stickyBit : em.stickyBit = true ↔ 2 * (n % 2 ^ k) ≠ 0 ∧ 2 * (n % 2 ^ k) ≠ 2 ^ k

namespace Truncates

variable {n k : Nat} {em : ExtendedMantissa}

theorem shiftRightOne (h : Truncates n k em) : Truncates n (k + 1) em.shiftRightOne := by
  have hlost : n % 2 ^ k < 2 ^ k := Nat.mod_lt _ (Nat.two_pow_pos k)
  have hmod : n % 2 ^ (k + 1) = n % 2 ^ k + 2 ^ k * (n / 2 ^ k % 2) := Nat.mod_pow_succ
  have hpow : 2 ^ (k + 1) = 2 * 2 ^ k := Nat.pow_succ'
  have hround : em.shiftRightOne.roundBit = true ↔ n / 2 ^ k % 2 = 1 := by
    rw [← h.mantissa, ← Nat.mod_two_ne_zero]
    exact bne_iff_ne
  have hsticky : em.shiftRightOne.stickyBit = true ↔ n % 2 ^ k ≠ 0 := by
    refine Bool.or_eq_true _ _ ▸ ?_
    rw [h.roundBit, h.stickyBit]
    omega
  refine ⟨?_, hround.trans ?_, hsticky.trans ?_⟩
  · rw [Nat.pow_succ, ← Nat.div_div_eq_div_mul, ← h.mantissa]
    rfl
  all_goals
    rw [hmod, hpow]
    rcases Nat.mod_two_eq_zero_or_one (n / 2 ^ k) with hbit | hbit
    all_goals
      rw [hbit]
      omega

theorem shiftRight (n k : Nat) :
    Truncates n k (ExtendedMantissa.ofMantissaAndAccuracy n .exact >>> k) := by
  show Truncates n k (k.repeat ExtendedMantissa.shiftRightOne _)
  induction k with
  | zero => constructor <;> simp [Nat.repeat, ExtendedMantissa.ofMantissaAndAccuracy, Nat.mod_one]
  | succ k ih => exact ih.shiftRightOne

/-- Rounding what is left rounds the quotient. -/
theorem roundedMantissa (h : Truncates n k em) : em.roundedMantissa = roundQuotient n (2 ^ k) := by
  obtain ⟨m, round, sticky⟩ := em
  obtain ⟨hm, hround, hsticky⟩ := h
  obtain rfl : m = n / 2 ^ k := hm
  rw [ExtendedMantissa.roundedMantissa]
  unfold roundQuotient
  cases round <;> cases sticky <;>
    simp only [ExtendedMantissa.accuracy, Accuracy.roundToNearestEven, Bool.false_eq_true, false_iff,
      true_iff] at hround hsticky ⊢ <;>
    split <;> omega

end Truncates

theorem log2_mul_two_pow {n : Nat} (hn : n ≠ 0) (k : Nat) : (n * 2 ^ k).log2 = n.log2 + k := by
  have hpow : 0 < 2 ^ k := Nat.two_pow_pos k
  rw [Nat.log2_eq_iff (Nat.mul_pos (Nat.pos_of_ne_zero hn) hpow).ne', Nat.pow_add,
    show n.log2 + k + 1 = n.log2 + 1 + k by omega, Nat.pow_add]
  exact ⟨Nat.mul_le_mul_right _ (Nat.log2_self_le hn),
    Nat.mul_lt_mul_of_pos_right Nat.lt_log2_self hpow⟩

section

variable {n : Nat} {e : Int}

theorem targetExponent_eq (h : -1074 ≤ n.log2 + e - 52) :
    Format.binary64.targetExponent (totalExponent n e) = n.log2 + e - 52 := by
  simp only [Format.targetExponent, totalExponent, Format.mantissaBits, Format.minExponent]
  omega

theorem shiftToTargetExponent_eq (hlog : 52 ≤ n.log2) (he : -1074 ≤ e) :
    shiftToTargetExponent Format.binary64 n e .exact =
      (ExtendedMantissa.ofMantissaAndAccuracy n .exact >>> excess n, e + excess n) := by
  have hshift : (n.log2 + e - 52 - e).toNat = excess n := by
    rw [excess]
    omega
  rw [shiftToTargetExponent, targetExponent_eq (by omega), shiftToExponent, hshift]

/-- The significand is cut to its length twice, as it may grow by a digit when it is rounded. -/
theorem roundWithAccuracy_eq_finite (sign : Sign) {r m : Nat} {e₁ e₂ : Int}
    {em₁ em₂ : ExtendedMantissa}
    (h₁ : shiftToTargetExponent Format.binary64 n e .exact = (em₁, e₁)) (hr : em₁.roundedMantissa = r)
    (h₂ : shiftToTargetExponent Format.binary64 r e₁ .exact = (em₂, e₂)) (hm : em₂.mantissa = m)
    (hpos : 0 < m) :
    roundWithAccuracy Format.binary64 sign n e .exact = .finite sign m e₂ hpos := by
  subst hr hm
  simp only [roundWithAccuracy, h₁, h₂]
  exact dif_neg hpos.ne'

/-- Rounding a number of at least 53 digits. -/
theorem exists_roundWithAccuracy (sign : Sign) (hlog : 52 ≤ n.log2) (he : -1074 ≤ e) :
    ∃ (m k : Nat) (hm : 0 < m),
      roundWithAccuracy Format.binary64 sign n e .exact = .finite sign m (e + k) hm ∧
        2 ^ 52 ≤ m ∧ m < 2 ^ 53 ∧ k ≤ excess n + 1 ∧ m * 2 ^ k = roundNat n := by
  obtain ⟨hlow, hhigh⟩ := roundQuotient_range hlog
  have hrounded := (Truncates.shiftRight n (excess n)).roundedMantissa
  have h₁ := shiftToTargetExponent_eq hlog he
  rw [roundNat]
  generalize roundQuotient n (2 ^ excess n) = r at *
  have hrlog : 52 ≤ r.log2 := (Nat.le_log2 (by omega)).2 hlow
  have h₂ := shiftToTargetExponent_eq (e := e + excess n) hrlog (by omega)
  have hcarry : excess r = 0 ∧ r < 2 ^ 53 ∨ excess r = 1 ∧ r = 2 ^ 53 := by
    rcases Nat.lt_or_eq_of_le hhigh with hlt | rfl
    · have := (Nat.log2_lt (by omega)).2 hlt
      exact Or.inl ⟨Nat.sub_eq_zero_of_le (by omega), hlt⟩
    · exact Or.inr ⟨by decide, rfl⟩
  obtain ⟨m, hm⟩ : ∃ m, r / 2 ^ excess r = m := ⟨_, rfl⟩
  have hm' : 2 ^ 52 ≤ m ∧ m < 2 ^ 53 ∧ m * 2 ^ excess r = r := by
    rcases hcarry with ⟨hexcess, hlt⟩ | ⟨hexcess, rfl⟩
    all_goals
      rw [hexcess] at hm ⊢
      omega
  obtain ⟨hmlow, hmhigh, hvalue⟩ := hm'
  refine ⟨m, excess r + excess n, by omega, ?_, hmlow, hmhigh, by omega, ?_⟩
  · rw [roundWithAccuracy_eq_finite sign h₁ hrounded h₂
      ((Truncates.shiftRight r (excess r)).mantissa.trans hm), Nat.cast_add,
      Int.add_comm (excess r : Int), Int.add_assoc]
  · rw [Nat.pow_add, ← Nat.mul_assoc, hvalue]

/-- Rounding a natural number. -/
theorem exists_round (sign : Sign) (hn : n ≠ 0) :
    ∃ (m : Nat) (e : Int) (hm : 0 < m),
      UnpackedFloat.round Format.binary64 sign n 0 = .finite sign m e hm ∧ e ≤ n.log2 ∧
        Expresses m e (roundNat n) := by
  -- A number with fewer than 53 digits is first filled up with zeros.
  obtain ⟨k, hk⟩ : ∃ k, k = 52 - n.log2 := ⟨_, rfl⟩
  have hround : UnpackedFloat.round Format.binary64 sign n 0 =
      roundWithAccuracy Format.binary64 sign (n * 2 ^ k) (-k) .exact := by
    have hshift : (0 - (n.log2 + 0 - 52 : Int)).toNat = k := by omega
    rw [UnpackedFloat.round, targetExponent_eq (by omega), decreaseExponent, hshift]
    simp only [Nat.shiftLeft_eq, Int.zero_sub]
  have hlog : (n * 2 ^ k).log2 = n.log2 + k := log2_mul_two_pow hn k
  obtain ⟨m, j, hm, heq, hlow, hhigh, hj, hvalue⟩ :=
    exists_roundWithAccuracy sign (n := n * 2 ^ k) (e := -k) (by omega) (by omega)
  refine ⟨m, -k + j, hm, hround.trans heq, ?_, hlow, hhigh, by omega, ?_⟩
  · rw [excess, hlog] at hj
    omega
  · rw [show (-(k : Int) + j + 52).toNat = j + (52 - k) by omega, Nat.pow_add, ← Nat.mul_assoc, hvalue]
    rcases Nat.le_total 52 n.log2 with hle | hle
    · obtain rfl : k = 0 := by omega
      simp
    · rw [roundNat_of_log2_le hle, roundNat_of_log2_le (by omega), Nat.mul_assoc, ← Nat.pow_add,
        show k + (52 - k) = 52 by omega]

end

/-! ### Doubles from significand and exponent -/

theorem unpackSign_packComponents {spec : Format} (sign : Sign) (exponent : BitVec spec.exponentBits)
    (mantissa : BitVec spec.mantissaBitsWithoutImplicit) :
    Sign.ofBitVec (unpackSign (packComponents spec sign exponent mantissa)) = sign := by
  have hbits : unpackSign (packComponents spec sign exponent mantissa) = sign.toBitVec := by
    ext i hi
    simp [unpackSign, packComponents, BitVec.getLsbD_append, BitVec.getElem_append,
      Nat.lt_one_iff.1 hi]
  rw [hbits]
  cases sign <;> rfl

/-- The leading digit, which is left out of the bits, is put back. -/
theorem toNat_one_append {m : Nat} (hlow : 2 ^ 52 ≤ m) (hhigh : m < 2 ^ 53) :
    (1#1 ++ BitVec.ofNat 52 m).toNat = m := by
  rw [BitVec.toNat_append, ← Nat.shiftLeft_add_eq_or_of_lt (BitVec.isLt _), BitVec.toNat_ofNat,
    Nat.shiftLeft_eq]
  show 1 * 2 ^ 52 + m % 2 ^ 52 = m
  omega

/-- A significand of full length and its exponent can be read off the bits again. -/
theorem unpack_pack_finite (sign : Sign) {m : Nat} {e : Int} (hm : 0 < m) (hlow : 2 ^ 52 ≤ m)
    (hhigh : m < 2 ^ 53) (he : -1074 ≤ e) (he' : e ≤ 971) :
    (Float.Model.pack (.finite sign m e hm)).unpack = .finite sign m e hm := by
  obtain ⟨b, hb⟩ : ∃ b : Nat, (b : Int) = e + 1075 := ⟨(e + 1075).toNat, by omega⟩
  have hbits : (BitVec.ofNat 11 b).toNat = b := by
    rw [BitVec.toNat_ofNat, Nat.mod_eq_of_lt (by omega)]
  have hones : BitVec.ofNat 11 b ≠ -1#11 := by
    intro h
    have hb' : b = 2047 := hbits.symm.trans (congrArg BitVec.toNat h)
    omega
  have hzero : BitVec.ofNat 11 b ≠ 0#11 := by
    intro h
    have hb' : b = 0 := hbits.symm.trans (congrArg BitVec.toNat h)
    omega
  have hlog : m.log2 + 1 = Format.binary64.mantissaBits :=
    congrArg (· + 1) ((Nat.log2_eq_iff hm.ne').2 ⟨hlow, hhigh⟩)
  have hbiased : (e + Format.binary64.exponentBias +
      Format.binary64.mantissaBitsWithoutImplicit).toNat = b := by
    show (e + (1023 : Nat) + (52 : Nat)).toNat = b
    omega
  have hpack : UnpackedFloat.pack Format.binary64 (.finite sign m e hm) =
      packComponents Format.binary64 sign (BitVec.ofNat 11 b) (BitVec.ofNat 52 m) := by
    rw [UnpackedFloat.pack]
    simp only [hbiased, hlog, if_true]
    refine if_neg ?_
    show ¬ 2048 ≤ b + 1
    omega
  show UnpackedFloat.unpack Format.binary64 (UnpackedFloat.pack Format.binary64 _) = _
  rw [hpack, UnpackedFloat.unpack]
  simp only [unpackExponent_packComponents, unpackMantissa_packComponents, unpackSign_packComponents,
    hones, hzero, if_false, hbits, toNat_one_append hlow hhigh]
  congr 1
  show (b : Int) - ((1023 : Nat) + (52 : Nat)) = e
  omega

/-- Rounding a natural number to a double leaves it standing for a number nearby. -/
theorem exists_unpack_pack_round (sign : Sign) {n : Nat} (hn : n ≠ 0) (hle : n ≤ 2 ^ 63) :
    ∃ (m : Nat) (e : Int) (hm : 0 < m), Expresses m e (roundNat n) ∧
      (Float.Model.pack (UnpackedFloat.round Format.binary64 sign n 0)).unpack =
        .finite sign m e hm := by
  obtain ⟨m, e, hm, hround, he, hexpresses⟩ := exists_round sign hn
  have hlog : n.log2 < 64 := (Nat.log2_lt hn).2 (by omega)
  have hexponent := hexpresses.exponent
  refine ⟨m, e, hm, hexpresses, ?_⟩
  rw [hround]
  exact unpack_pack_finite sign hm hexpresses.low hexpresses.high (by omega) (by omega)

/-- The double of a machine integer stands for the integer that it is rounded to. -/
theorem stands_ofInteger (n : Int64) : Stands (ofInteger n).toModel.unpack (roundInt n.toInt) := by
  obtain ⟨hlow, hhigh⟩ := Integer.inRange_toInt n
  rw [Integer.least] at hlow
  rw [Integer.greatest] at hhigh
  show Stands (Float.Model.pack (UnpackedFloat.normalize Format.binary64 n.toInt 0 .positive)).unpack _
  generalize n.toInt = i at *
  rw [UnpackedFloat.normalize, roundInt]
  rcases lt_trichotomy i 0 with hneg | rfl | hpos
  · obtain ⟨m, e, hm, hexpresses, heq⟩ :=
      exists_unpack_pack_round .negative (n := (-i).toNat) (by omega) (by omega)
    rw [compare_lt_iff_lt.2 hneg, if_pos hneg, show i.natAbs = (-i).toNat by omega]
    exact heq ▸ .negative hm hexpresses
  · exact .zero .positive
  · obtain ⟨m, e, hm, hexpresses, heq⟩ :=
      exists_unpack_pack_round .positive (n := i.toNat) (by omega) (by omega)
    rw [compare_gt_iff_gt.2 hpos, if_neg hpos.not_gt, show i.natAbs = i.toNat by omega]
    exact heq ▸ .positive hm hexpresses

theorem lt_iff_compare {x y : Float} :
    x < y ↔ x.toModel.unpack.compare y.toModel.unpack = some .lt := by
  have hlt : x < y ↔ x.toModel < y.toModel := decide_eq_true_iff
  exact hlt.trans beq_iff_eq

/-- Doubles of machine integers compare as the integers do that they are rounded to. -/
theorem ofInteger_lt_iff {x y : Int64} :
    ofInteger x < ofInteger y ↔ roundInt x.toInt < roundInt y.toInt := by
  rw [lt_iff_compare, (stands_ofInteger x).compare (stands_ofInteger y), Option.some.injEq,
    compare_lt_iff_lt]

end Double

end ConfinedLisp
