import ConfinedLisp.Operation.Run
import ConfinedLisp.Proofs.IntegerRounding

/-!
# Chains of comparisons

`<`, `>`, `<=` and `>=` compare each operand with the next one. Two integers are compared exactly, and
a float is compared with the double of an integer. Taken alone each of the two rules is transitive. A
chain that mixes them is ordered by its doubles, which decides every pair but one of integers that
become the same double: there `<=` and `>=` may hold along the chain and fail on the pair.

## Main definitions

- `Double.rank`: the place of a float among the others, in a linear order.
- `Logic.Compared`: how two values compare.
- `Logic.Linked`: what a chain of comparisons says about its first and its last operand.
- `Logic.TiedByFloat`: integers that become the same double, with that double between them.

## Main results

- `Double.compareFloats_eq_some_iff`: floats compare as their ranks do.
- `Logic.Linked.cons`, `Logic.linked_of_isChain`: one comparison more, and a whole chain.
- `Operation.comparison_orders_pairs`: what a comparison that holds says about every pair.
-/

namespace ConfinedLisp

/-! ### The order of floats -/

namespace Double

open Float.Model UnpackedFloat

/-- The place of a float among the others. Its class and sign come first; within them the exponent
decides, and then the significand. -/
def rank : UnpackedFloat → Int ×ₗ Int ×ₗ Int
  | .infinity .negative => toLex (-2, toLex (0, 0))
  | .finite .negative m e _ => toLex (-1, toLex (-e, -(m : Int)))
  | .zero _ | .notANumber => toLex (0, toLex (0, 0))
  | .finite .positive m e _ => toLex (1, toLex (e, (m : Int)))
  | .infinity .positive => toLex (2, toLex (0, 0))

theorem compare_neg (i j : Int) : compare (-i) (-j) = (compare i j).swap := by
  rw [Int.compare_swap]
  rcases lt_trichotomy i j with h | rfl | h
  · rw [compare_gt_iff_gt.2 h, compare_gt_iff_gt.2 (Int.neg_lt_neg h)]
  · rw [compare_eq_iff_eq.2 rfl, compare_eq_iff_eq.2 rfl]
  · rw [compare_lt_iff_lt.2 h, compare_lt_iff_lt.2 (Int.neg_lt_neg h)]

theorem compare_natCast (m n : Nat) : compare (m : Int) (n : Int) = compare m n := by
  rcases lt_trichotomy m n with h | rfl | h
  · rw [compare_lt_iff_lt.2 h, compare_lt_iff_lt.2 (Int.ofNat_lt.2 h)]
  · rw [compare_eq_iff_eq.2 rfl, compare_eq_iff_eq.2 rfl]
  · rw [compare_gt_iff_gt.2 h, compare_gt_iff_gt.2 (Int.ofNat_lt.2 h)]

/-- Floats other than NaN compare as their ranks do. -/
theorem compare_eq_rank {f g : UnpackedFloat} (hf : f.isNaN = false) (hg : g.isNaN = false) :
    f.compare g = some (compare (rank f) (rank g)) := by
  cases f with
  | notANumber => cases hf
  | infinity sign =>
    cases g with
    | notANumber => cases hg
    | _ sign' => cases sign <;> cases sign' <;> rfl
  | zero sign =>
    cases g with
    | notANumber => cases hg
    | _ sign' => cases sign <;> cases sign' <;> rfl
  | finite sign m e hm =>
    cases g with
    | notANumber => cases hg
    | finite sign' m' e' hm' =>
      -- Between two of one sign the exponents decide, and then the significands.
      cases sign with
      | negative =>
        cases sign' with
        | negative =>
          show some ((compare e e').then (compare m m')).swap =
            some ((compare (-e) (-e')).then (compare (-(m : Int)) (-(m' : Int))))
          rw [compare_neg, compare_neg, compare_natCast, Ordering.swap_then]
        | positive => rfl
      | positive =>
        cases sign' with
        | negative => rfl
        | positive =>
          show some ((compare e e').then (compare m m')) =
            some ((compare e e').then (compare (m : Int) m'))
          rw [compare_natCast]
    | _ sign' => cases sign <;> cases sign' <;> rfl

/-- The place of a double. -/
def standing (x : Float) : Int ×ₗ Int ×ₗ Int := rank x.toModel.unpack

theorem compare_eq_none {f g : UnpackedFloat} (h : f.isNaN = true ∨ g.isNaN = true) :
    f.compare g = none := by
  cases f with
  | notANumber => rfl
  | _ =>
    cases g with
    | notANumber => rfl
    | _ => exact absurd h (by simp [UnpackedFloat.isNaN])

/-- Comparing two floats in turn by `<`, `==` and `>` is comparing them in the model. -/
theorem compareFloats_eq (x y : Float) :
    Logic.compareFloats x y = x.toModel.unpack.compare y.toModel.unpack := by
  unfold Logic.compareFloats
  simp only [lt_iff_compare, beq_eq_true_iff]
  by_cases hnan : x.toModel.unpack.isNaN = true ∨ y.toModel.unpack.isNaN = true
  · rw [compare_eq_none hnan, compare_eq_none hnan.symm]
    rfl
  · obtain ⟨hx, hy⟩ := not_or.1 hnan
    rw [Bool.not_eq_true] at hx hy
    rw [compare_eq_rank hx hy, compare_eq_rank hy hx]
    simp only [Option.some.injEq, compare_lt_iff_lt, compare_eq_iff_eq]
    rcases lt_trichotomy (rank x.toModel.unpack) (rank y.toModel.unpack) with h | h | h
    · rw [if_pos h, compare_lt_iff_lt.2 h]
    · rw [if_neg h.not_lt, if_pos h, compare_eq_iff_eq.2 h]
    · rw [if_neg h.not_gt, if_neg h.ne', if_pos h, compare_gt_iff_gt.2 h]

/-- Floats compare as their places do, and NaN does not compare. -/
theorem compareFloats_eq_some_iff {x y : Float} {o : Ordering} :
    Logic.compareFloats x y = some o ↔
      x.isNaN = false ∧ y.isNaN = false ∧ compare (standing x) (standing y) = o := by
  rw [compareFloats_eq]
  by_cases hnan : x.toModel.unpack.isNaN = true ∨ y.toModel.unpack.isNaN = true
  · rw [compare_eq_none hnan]
    refine ⟨fun h => (by cases h), fun ⟨hx, hy, _⟩ => ?_⟩
    rcases hnan with hnan | hnan
    · exact absurd (hx.symm.trans hnan) Bool.false_ne_true
    · exact absurd (hy.symm.trans hnan) Bool.false_ne_true
  · obtain ⟨hx, hy⟩ := not_or.1 hnan
    rw [Bool.not_eq_true] at hx hy
    rw [compare_eq_rank hx hy, Option.some.injEq]
    exact ⟨fun h => ⟨hx, hy, h⟩, fun h => h.2.2⟩

theorem beq_iff_standing {x y : Float} (hx : x.isNaN = false) (hy : y.isNaN = false) :
    (x == y) = true ↔ standing x = standing y := by
  rw [beq_eq_true_iff, ← compareFloats_eq, compareFloats_eq_some_iff, compare_eq_iff_eq]
  exact ⟨fun h => h.2.2, fun h => ⟨hx, hy, h⟩⟩

theorem Stands.isNaN {f : UnpackedFloat} {i : Int} (h : Stands f i) : f.isNaN = false := by
  cases h <;> rfl

theorem isNaN_ofInteger (n : Int64) : (ofInteger n).isNaN = false := (stands_ofInteger n).isNaN

/-- The doubles of integers compare as the rounded integers do. -/
theorem compareFloats_ofInteger (x y : Int64) :
    Logic.compareFloats (ofInteger x) (ofInteger y) =
      some (compare (roundInt x.toInt) (roundInt y.toInt)) := by
  rw [compareFloats_eq]
  exact (stands_ofInteger x).compare (stands_ofInteger y)

/-- Rounding keeps the order of integers. -/
theorem standing_ofInteger_mono {x y : Int64} (h : x.toInt ≤ y.toInt) :
    standing (ofInteger x) ≤ standing (ofInteger y) := by
  obtain ⟨-, -, hcompare⟩ := compareFloats_eq_some_iff.1 (compareFloats_ofInteger y x)
  rw [← not_lt, ← compare_lt_iff_lt, hcompare, compare_lt_iff_lt, not_lt]
  exact roundInt_mono h

end Double

/-! ### One comparison -/

namespace Number

/-- Whether a number is a float. -/
def IsFloat (n : Number) : Prop := ∃ x, n = .float x

theorem eq_int_of_ofValue? {v : Value} {x : Int64} (h : ofValue? v = some (.int x)) : v = .int x := by
  cases v with
  | int y =>
    cases h
    rfl
  | _ => cases h

/-- The place of the double of a number. -/
def standing (n : Number) : Int ×ₗ Int ×ₗ Int := Double.standing n.toFloat

end Number

namespace Logic

open Double

/-- How two values compare. Integers compare exactly, a float and another number by their doubles. -/
inductive Compared : Value → Value → Ordering → Prop where
  | integers (x y : Int64) : Compared (.int x) (.int y) (Ord.compare x.toInt y.toInt)
  | numbers {a b : Value} {m n : Number} : Number.ofValue? a = some m → Number.ofValue? b = some n →
      m.IsFloat ∨ n.IsFloat → m.toFloat.isNaN = false → n.toFloat.isNaN = false →
        Compared a b (Ord.compare m.standing n.standing)
  | texts (s t : String) : Compared (.str s) (.str t) (Ord.compare s t)

theorem compareTexts_eq (s t : String) : compareTexts s t = Ord.compare s t := by
  unfold compareTexts
  rcases lt_trichotomy s t with h | h | h
  · rw [if_pos h, compare_lt_iff_lt.2 h]
  · rw [if_neg h.not_lt, if_pos h, compare_eq_iff_eq.2 h]
  · rw [if_neg h.not_gt, if_neg h.ne', compare_gt_iff_gt.2 h]

theorem compared_of_compareFloats {a b : Value} {m n : Number} (ha : Number.ofValue? a = some m)
    (hb : Number.ofValue? b = some n) (hfloat : m.IsFloat ∨ n.IsFloat) {o : Ordering}
    (h : compareFloats m.toFloat n.toFloat = some o) : Compared a b o := by
  obtain ⟨hm, hn, rfl⟩ := compareFloats_eq_some_iff.1 h
  exact .numbers ha hb hfloat hm hn

/-- A float and another number are compared as floats. -/
theorem compare_numbers (callee : String) {a b : Value} {m n : Number}
    (ha : Number.ofValue? a = some m) (hb : Number.ofValue? b = some n)
    (hfloat : m.IsFloat ∨ n.IsFloat) :
    compare callee a b = .ok (compareFloats m.toFloat n.toFloat) := by
  cases a with
  | int x =>
    cases ha
    cases b with
    | int y =>
      cases hb
      obtain ⟨z, hz⟩ | ⟨z, hz⟩ := hfloat <;> cases hz
    | float y =>
      cases hb
      rfl
    | _ => cases hb
  | float x =>
    cases ha
    cases b with
    | int y | float y =>
      cases hb
      rfl
    | _ => cases hb
  | _ => cases ha

/-- Comparing two values gives an ordering exactly if they compare so. -/
theorem compare_eq_ok_iff {callee : String} {a b : Value} {o : Ordering} :
    compare callee a b = .ok (some o) ↔ Compared a b o := by
  constructor
  · intro h
    unfold compare at h
    split at h
    · cases h
      exact .integers _ _
    · next x y =>
      exact compared_of_compareFloats (m := .int x) (n := .float y) rfl rfl (Or.inr ⟨y, rfl⟩)
        (Except.ok.inj h)
    · next x y =>
      exact compared_of_compareFloats (m := .float x) (n := .int y) rfl rfl (Or.inl ⟨x, rfl⟩)
        (Except.ok.inj h)
    · next x y =>
      exact compared_of_compareFloats (m := .float x) (n := .float y) rfl rfl (Or.inl ⟨x, rfl⟩)
        (Except.ok.inj h)
    · rw [compareTexts_eq] at h
      cases h
      exact .texts _ _
    all_goals cases h
  · intro h
    cases h with
    | integers x y => rfl
    | texts s t =>
      rw [compare, compareTexts_eq]
    | numbers ha hb hfloat hm hn =>
      rw [compare_numbers callee ha hb hfloat, compareFloats_eq_some_iff.2 ⟨hm, hn, rfl⟩]
      rfl

theorem Compared.swap {a b : Value} {o : Ordering} (h : Compared a b o) : Compared b a o.swap := by
  cases h with
  | integers x y =>
    rw [← Std.OrientedOrd.eq_swap]
    exact .integers y x
  | numbers ha hb hfloat hm hn =>
    rw [← Std.OrientedOrd.eq_swap]
    exact .numbers hb ha hfloat.symm hn hm
  | texts s t =>
    rw [← Std.OrientedOrd.eq_swap]
    exact .texts t s

/-! ### A chain of comparisons -/

/-- Upwards, and never level if `strict`. -/
def ascends (strict : Bool) (o : Ordering) : Bool := if strict then o.isLT else o.isLE

/-- The same of what was compared. -/
def Up {α : Type} [LinearOrder α] (strict : Bool) (a b : α) : Prop := a ≤ b ∧ (strict = true → a < b)

section

variable {α : Type} [LinearOrder α] {strict : Bool} {a b c : α}

theorem ascends_compare_iff : ascends strict (Ord.compare a b) = true ↔ Up strict a b := by
  cases strict with
  | true =>
    rw [ascends, if_pos rfl, Ordering.isLT_iff_eq_lt, compare_lt_iff_lt]
    exact ⟨fun h => ⟨h.le, fun _ => h⟩, fun h => h.2 rfl⟩
  | false =>
    rw [ascends, if_neg Bool.false_ne_true, ← Ordering.ne_gt_iff_isLE, compare_gt_iff_gt, not_lt]
    exact ⟨fun h => ⟨h, fun hs => (by cases hs)⟩, fun h => h.1⟩

theorem Up.trans_le (h : Up strict a b) (hbc : b ≤ c) : Up strict a c :=
  ⟨h.1.trans hbc, fun hs => (h.2 hs).trans_le hbc⟩

theorem Up.le_trans (hab : a ≤ b) (h : Up strict b c) : Up strict a c :=
  ⟨hab.trans h.1, fun hs => hab.trans_lt (h.2 hs)⟩

end

/-- What a chain of comparisons, each one upwards, says about its first and its last operand. Integers
among themselves go up exactly. Once a float is involved the doubles go up, and a float between two
integers stands between their doubles. -/
inductive Linked (strict : Bool) (between : List Value) : Value → Value → Prop where
  | texts {s t : String} : Up strict s t → Linked strict between (.str s) (.str t)
  | integers {x y : Int64} : Up strict x.toInt y.toInt → Linked strict between (.int x) (.int y)
  | numbers {a b : Value} {m n : Number} : Number.ofValue? a = some m → Number.ofValue? b = some n →
      m.toFloat.isNaN = false → n.toFloat.isNaN = false →
      (m.IsFloat ∨ n.IsFloat ∨ ∃ z, .float z ∈ between ∧ z.isNaN = false ∧
        m.standing ≤ Double.standing z ∧ Double.standing z ≤ n.standing) →
      Up strict m.standing n.standing → Linked strict between a b

section

variable {strict : Bool} {a b c : Value} {between : List Value} {o : Ordering}

theorem linked_of_compared (h : Compared a b o) (ho : ascends strict o = true) :
    Linked strict between a b := by
  cases h with
  | integers x y => exact .integers (ascends_compare_iff.1 ho)
  | texts s t => exact .texts (ascends_compare_iff.1 ho)
  | numbers ha hb hfloat hm hn =>
    exact .numbers ha hb hm hn (hfloat.imp_right Or.inl) (ascends_compare_iff.1 ho)

theorem standing_int_le {x y : Int64} (h : x.toInt ≤ y.toInt) :
    (Number.int x).standing ≤ (Number.int y).standing :=
  standing_ofInteger_mono h

/-- One comparison more, before the others. -/
theorem Linked.cons (h : Compared a c o) (ho : ascends strict o = true)
    (hlinked : Linked strict between c b) : Linked strict (c :: between) a b := by
  cases h with
  | texts s t =>
    cases hlinked with
    | texts hup => exact .texts ((ascends_compare_iff.1 ho).trans_le hup.1)
    | numbers hc => cases hc
  | integers x y =>
    have hxy := ascends_compare_iff.1 ho
    cases hlinked with
    | integers hup => exact .integers (hxy.trans_le hup.1)
    | numbers hc hb hm hn hfloat hup =>
      cases hc
      have hle := standing_int_le hxy.1
      refine .numbers rfl hb (isNaN_ofInteger x) hn ?_ (Up.le_trans hle hup)
      rcases hfloat with ⟨z, hz⟩ | hfloat | ⟨z, hz, hnan, hlow, hhigh⟩
      · cases hz
      · exact Or.inr (Or.inl hfloat)
      · exact Or.inr (Or.inr ⟨z, List.mem_cons_of_mem _ hz, hnan, hle.trans hlow, hhigh⟩)
  | numbers ha hc hfloat hm hn =>
    have hac := ascends_compare_iff.1 ho
    cases hlinked with
    | texts hup => cases hc
    | integers hup =>
      cases hc
      -- The float is the first operand, because the next one is an integer.
      obtain hfloat | ⟨z, hz⟩ := hfloat
      · exact .numbers ha rfl hm (isNaN_ofInteger _) (Or.inl hfloat)
          (hac.trans_le (standing_int_le hup.1))
      · cases hz
    | numbers hc' hb hm' hn' hfloat' hup =>
      cases hc.symm.trans hc'
      refine .numbers ha hb hm hn' ?_ (hac.trans_le hup.1)
      rcases hfloat with hfloat | ⟨z, rfl⟩
      · exact Or.inl hfloat
      · -- The operand that was last so far is a float, and is now between the two.
        refine Or.inr (Or.inr ⟨z, ?_, hn, hac.1, hup.1⟩)
        cases c with
        | float z' =>
          cases hc
          exact List.mem_cons_self
        | _ => cases hc

/-- What a whole chain says about its first and its last operand. -/
theorem linked_of_isChain
    (h : List.IsChain (fun a b => ∃ o, Compared a b o ∧ ascends strict o = true)
      (a :: (between ++ [b]))) : Linked strict between a b := by
  induction between generalizing a with
  | nil =>
    obtain ⟨⟨o, hcompared, ho⟩, -⟩ := List.isChain_cons_cons.1 h
    exact linked_of_compared hcompared ho
  | cons c between ih =>
    obtain ⟨⟨o, hcompared, ho⟩, hrest⟩ := List.isChain_cons_cons.1 h
    exact (ih hrest).cons hcompared ho

/-- Two different integers become the same double, and this double is among the operands between
them. -/
def TiedByFloat (a : Value) (between : List Value) (b : Value) : Prop :=
  ∃ (x y : Int64) (z : Float), a = .int x ∧ b = .int y ∧ x ≠ y ∧
    (ofInteger x == ofInteger y) = true ∧ .float z ∈ between ∧ (z == ofInteger x) = true

theorem TiedByFloat.reverse (h : TiedByFloat a between b) : TiedByFloat b between.reverse a := by
  obtain ⟨x, y, z, ha, hb, hne, hsame, hz, hzx⟩ := h
  refine ⟨y, x, z, hb, ha, hne.symm, ?_, List.mem_reverse.2 hz, beq_trans hzx hsame⟩
  rwa [beq_comm]

/-- Integers whose doubles go up go up themselves, unless their doubles are the same. -/
theorem up_or_tied {x y : Int64} {z : Float} (hz : .float z ∈ between) (hnan : z.isNaN = false)
    (hlow : (Number.int x).standing ≤ Double.standing z)
    (hhigh : Double.standing z ≤ (Number.int y).standing)
    (hup : Up strict (Number.int x).standing (Number.int y).standing) :
    Up strict x.toInt y.toInt ∨
      strict = false ∧ y.toInt < x.toInt ∧ TiedByFloat (.int x) between (.int y) := by
  rcases le_or_gt x.toInt y.toInt with hle | hgt
  · by_cases heq : x.toInt = y.toInt
    · refine Or.inl ⟨hle, fun hs => absurd (hup.2 hs) ?_⟩
      rw [Int64.toInt_inj.1 heq]
      exact lt_irrefl _
    · exact Or.inl ⟨hle, fun _ => lt_of_le_of_ne hle heq⟩
  · have hback := standing_int_le hgt.le
    have hsame := le_antisymm hup.1 hback
    refine Or.inr ⟨?_, hgt, x, y, z, rfl, rfl, ?_, ?_, hz, ?_⟩
    · cases strict with
      | false => rfl
      | true => exact absurd (hup.2 rfl) hback.not_gt
    · rintro rfl
      exact lt_irrefl _ hgt
    · exact (beq_iff_standing (isNaN_ofInteger x) (isNaN_ofInteger y)).2 hsame
    · exact (beq_iff_standing hnan (isNaN_ofInteger x)).2 (le_antisymm (hhigh.trans hback) hlow)

/-- The order of two operands is as accepted, or it is not and they are tied by a float. The latter
is possible only if the comparison is not strict. -/
def Settled (accept : Ordering → Bool) (strict : Bool) (a : Value) (between : List Value)
    (b : Value) : Prop :=
  ∃ o, Compared a b o ∧
    (accept o = true ∨ strict = false ∧ accept o = false ∧ TiedByFloat a between b)

/-- How the ends of a chain compare. -/
theorem Linked.settled (h : Linked strict between a b) :
    Settled (ascends strict) strict a between b := by
  cases h with
  | texts hup => exact ⟨_, .texts _ _, Or.inl (ascends_compare_iff.2 hup)⟩
  | integers hup => exact ⟨_, .integers _ _, Or.inl (ascends_compare_iff.2 hup)⟩
  | @numbers a b m n ha hb hm hn hfloat hup =>
    have hmixed : m.IsFloat ∨ n.IsFloat → Settled (ascends strict) strict a between b :=
      fun hfloat => ⟨_, .numbers ha hb hfloat hm hn, Or.inl (ascends_compare_iff.2 hup)⟩
    rcases hfloat with hfloat | hfloat | ⟨z, hz, hnan, hlow, hhigh⟩
    · exact hmixed (Or.inl hfloat)
    · exact hmixed (Or.inr hfloat)
    · cases m with
      | float x => exact hmixed (Or.inl ⟨x, rfl⟩)
      | int x =>
        cases n with
        | float y => exact hmixed (Or.inr ⟨y, rfl⟩)
        | int y =>
          obtain rfl := Number.eq_int_of_ofValue? ha
          obtain rfl := Number.eq_int_of_ofValue? hb
          refine ⟨_, .integers x y, ?_⟩
          rcases up_or_tied hz hnan hlow hhigh hup with hexact | ⟨rfl, hgt, htied⟩
          · exact Or.inl (ascends_compare_iff.2 hexact)
          · refine Or.inr ⟨rfl, ?_, htied⟩
            rw [compare_gt_iff_gt.2 hgt]
            rfl

end

/-! ### The operations -/

section

variable {callee : String} {accept : Ordering → Bool} {operands : List Value} {a b : Value}

/-- A comparison holds exactly if each operand and the next compare as accepted. -/
theorem ordered_eq_true_iff :
    ordered callee accept operands = .ok true ↔
      operands.IsChain fun a b => ∃ o, Compared a b o ∧ accept o = true := by
  induction operands with
  | nil => simp [ordered]
  | cons a rest ih =>
    cases rest with
    | nil => simp [ordered]
    | cons b rest =>
      rw [ordered, List.isChain_cons_cons, ← ih]
      simp only [← @compare_eq_ok_iff callee]
      cases compare callee a b with
      | error e => simp
      | ok answer =>
        cases answer with
        | none => simp
        | some o => by_cases ho : accept o = true <;> simp [ho]

theorem chain_eq_true_iff :
    chain callee accept operands = .ok (.bool true) ↔ 2 ≤ operands.length ∧
      operands.IsChain fun a b => ∃ o, Compared a b o ∧ accept o = true := by
  rw [← @ordered_eq_true_iff callee]
  have hchain : chain callee accept operands =
      Operands.count callee (.atLeast 2) operands >>= fun _ =>
        (ordered callee accept operands).map .bool := rfl
  rw [hchain, Operands.count]
  by_cases hlength : 2 ≤ operands.length
  · rw [if_pos (by simpa [Arity.allows] using hlength)]
    show (ordered callee accept operands).map Value.bool = _ ↔ _
    cases ordered callee accept operands <;> simp [Except.map, hlength]
  · rw [if_neg (by simpa [Arity.allows] using hlength)]
    exact ⟨fun h => (by cases h), fun h => absurd h.1 hlength⟩

theorem chain_pair {o : Ordering} (h : Compared a b o) :
    chain callee accept [a, b] = .ok (.bool (accept o)) := by
  have hordered : ordered callee accept [a, b] = .ok (accept o) := by
    rw [ordered, compare_eq_ok_iff.2 h]
    cases haccept : accept o <;> simp [haccept, ordered]
  show Except.map Value.bool (ordered callee accept [a, b]) = _
  rw [hordered]
  rfl

variable {before between after : List Value} {strict : Bool}

/-- Two operands of a chain that goes up. -/
theorem settled_of_ascending
    (h : operands.IsChain fun a b => ∃ o, Compared a b o ∧ ascends strict o = true)
    (hsplit : operands = before ++ a :: (between ++ b :: after)) :
    Settled (ascends strict) strict a between b := by
  have hpart : a :: (between ++ [b]) <:+: operands := ⟨before, after, by simp [hsplit]⟩
  have hchain := List.IsChain.infix h hpart
  exact (linked_of_isChain hchain).settled

/-- Two operands of a chain that goes down: read backwards it goes up. -/
theorem settled_of_descending
    (h : operands.IsChain fun a b => ∃ o, Compared a b o ∧ ascends strict o.swap = true)
    (hsplit : operands = before ++ a :: (between ++ b :: after)) :
    Settled (fun o => ascends strict o.swap) strict a between b := by
  have hback : operands.reverse.IsChain fun a b => ∃ o, Compared a b o ∧ ascends strict o = true := by
    rw [List.isChain_reverse]
    exact h.imp fun x y ⟨o, hxy, ho⟩ => ⟨o.swap, hxy.swap, ho⟩
  have hsplit' : operands.reverse = after.reverse ++ b :: (between.reverse ++ a :: before.reverse) := by
    simp [hsplit]
  obtain ⟨o, hba, ho⟩ := settled_of_ascending hback hsplit'
  refine ⟨o.swap, hba.swap, ?_⟩
  dsimp only
  rw [Ordering.swap_swap]
  refine ho.imp_right fun ⟨hs, hnot, htied⟩ => ⟨hs, hnot, ?_⟩
  rw [← between.reverse_reverse]
  exact htied.reverse

end

end Logic

namespace Operation

open Double Logic

/-- What an operation that compares in one direction says about two of its operands. -/
theorem run_pair_of_run {op : Operation} {callee : String} {accept : Ordering → Bool} {strict : Bool}
    {operands before between after : List Value} {a b : Value} {s s' : Store}
    (hop : ∀ xs, op.run xs = Eval.ofExcept (chain callee accept xs))
    (haccept : accept = ascends strict ∨ accept = fun o => ascends strict o.swap)
    (h : op.run operands s = (.ok (.bool true), s'))
    (hsplit : operands = before ++ a :: (between ++ b :: after)) :
    op.run [a, b] s = (.ok (.bool true), s) ∨
      strict = false ∧ op.run [a, b] s = (.ok (.bool false), s) ∧ TiedByFloat a between b := by
  have hchain : chain callee accept operands = .ok (.bool true) := by
    rw [hop] at h
    cases hresult : chain callee accept operands with
    | error e =>
      rw [hresult] at h
      cases h
    | ok v =>
      rw [hresult] at h
      cases h
      rfl
  have hsettled : Settled accept strict a between b := by
    rcases haccept with rfl | rfl
    · exact settled_of_ascending (chain_eq_true_iff.1 hchain).2 hsplit
    · exact settled_of_descending (chain_eq_true_iff.1 hchain).2 hsplit
  obtain ⟨o, hcompared, hholds | ⟨hs, hfails, htied⟩⟩ := hsettled
  · left
    rw [hop, chain_pair hcompared, hholds]
    rfl
  · right
    refine ⟨hs, ?_, htied⟩
    rw [hop, chain_pair hcompared, hfails]
    rfl

/-- A comparison that holds along its operands holds of every two of them, the earlier one first. The
one exception is that `<=` and `>=` may fail on two different integers that become the same double, with
this double among the operands between them. -/
theorem comparison_orders_pairs {op : Operation} (hop : op ∈ [.less, .greater, .atMost, .atLeast])
    {operands before between after : List Value} {a b : Value} {s s' : Store}
    (h : op.run operands s = (.ok (.bool true), s'))
    (hsplit : operands = before ++ a :: (between ++ b :: after)) :
    op.run [a, b] s = (.ok (.bool true), s) ∨
      op ∈ [.atMost, .atLeast] ∧ op.run [a, b] s = (.ok (.bool false), s) ∧
        TiedByFloat a between b := by
  have hgreater : Ordering.isGT = fun o => ascends true o.swap := by
    funext o
    cases o <;> rfl
  have hatLeast : Ordering.isGE = fun o => ascends false o.swap := by
    funext o
    cases o <;> rfl
  have hless : Ordering.isLT = ascends true := rfl
  have hatMost : Ordering.isLE = ascends false := rfl
  simp only [List.mem_cons, List.not_mem_nil, or_false] at hop
  rcases hop with rfl | rfl | rfl | rfl
  · refine (run_pair_of_run (fun _ => rfl) (Or.inl hless) h hsplit).imp_right ?_
    exact fun ⟨hs, _⟩ => (by cases hs)
  · refine (run_pair_of_run (fun _ => rfl) (Or.inr hgreater) h hsplit).imp_right ?_
    exact fun ⟨hs, _⟩ => (by cases hs)
  · refine (run_pair_of_run (fun _ => rfl) (Or.inl hatMost) h hsplit).imp_right ?_
    exact fun ⟨_, hfails⟩ => ⟨by simp, hfails⟩
  · refine (run_pair_of_run (fun _ => rfl) (Or.inr hatLeast) h hsplit).imp_right ?_
    exact fun ⟨_, hfails⟩ => ⟨by simp, hfails⟩

/-- Three operands, the one in the middle a float. -/
theorem run_around_double {op : Operation} {callee : String} {accept : Ordering → Bool}
    (hop : ∀ xs, op.run xs = Eval.ofExcept (chain callee accept xs)) {x y z : Int64}
    (hxy : accept (compare (roundInt x.toInt) (roundInt y.toInt)) = true)
    (hyz : accept (compare (roundInt y.toInt) (roundInt z.toInt)) = true) (s : Store) :
    op.run [.int x, .float (ofInteger y), .int z] s = (.ok (.bool true), s) := by
  have hchain : chain callee accept [.int x, .float (ofInteger y), .int z] = .ok (.bool true) := by
    rw [chain_eq_true_iff]
    refine ⟨by simp, .cons_cons ⟨_, ?_, hxy⟩ (.cons_cons ⟨_, ?_, hyz⟩ (.singleton _))⟩
    · exact compared_of_compareFloats (m := .int x) (n := .float (ofInteger y)) rfl rfl
        (Or.inr ⟨_, rfl⟩) (compareFloats_ofInteger x y)
    · exact compared_of_compareFloats (m := .float (ofInteger y)) (n := .int z) rfl rfl
        (Or.inl ⟨_, rfl⟩) (compareFloats_ofInteger y z)
  rw [hop, hchain]
  rfl

/-- A float between two integers, in a chain that goes up. -/
theorem comparison_orders_pairs_mixed :
    let xs : List Value := [.int 1, .float (ofInteger 2), .int 3]
    Operation.run .less xs .empty = (.ok (.bool true), .empty) ∧
      xs = [] ++ .int 1 :: ([.float (ofInteger 2)] ++ .int 3 :: []) ∧
      Operation.run .less [.int 1, .int 3] .empty = (.ok (.bool true), .empty) := by
  intro xs
  have hholds : Operation.run .less xs .empty = (.ok (.bool true), .empty) :=
    run_around_double (fun _ => rfl) (by decide +kernel) (by decide +kernel) _
  have hsplit : xs = [] ++ .int 1 :: ([.float (ofInteger 2)] ++ .int 3 :: []) := rfl
  refine ⟨hholds, hsplit, ?_⟩
  obtain hpair | ⟨hop, -⟩ := comparison_orders_pairs (by simp) hholds hsplit
  · exact hpair
  · simp at hop

/-- Each number is at most the next one, and yet the first is greater than the last. -/
theorem atMost_fails_on_tied_pair :
    let x : Int64 := 9007199254740993
    let y : Int64 := 9007199254740992
    (ofInteger y).isNaN = false ∧
      Operation.run .atMost [.int x, .float (ofInteger y), .int y] .empty =
        (.ok (.bool true), .empty) ∧
      Operation.run .atMost [.int x, .int y] .empty = (.ok (.bool false), .empty) ∧
      Operation.run .atLeast [.int y, .float (ofInteger y), .int x] .empty =
        (.ok (.bool true), .empty) ∧
      Operation.run .atLeast [.int y, .int x] .empty = (.ok (.bool false), .empty) :=
  ⟨isNaN_ofInteger _,
    run_around_double (fun _ => rfl) (by decide +kernel) (by decide +kernel) _, rfl,
    run_around_double (fun _ => rfl) (by decide +kernel) (by decide +kernel) _, rfl⟩

end Operation

end ConfinedLisp
