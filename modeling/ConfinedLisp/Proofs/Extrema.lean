import ConfinedLisp.Host.Function
import ConfinedLisp.Proofs.IntegerRounding

/-!
# Extrema of integers

`min` and `max` compare their candidates as doubles, and keep the first one where two compare equal. Of
integers they give the first one whose double is extreme. This is the least or greatest integer as long
as no two of them become the same double. It may be off by as much as 1024 otherwise.

## Main definitions

- `Host.Gives`: some integers as separate arguments, as one list or as one table.
- `Host.IsFirstLeast`: the first of some integers for which a quantity is the least.

## Main results

- `Host.bestFrom_integers`: what going through the candidates finds.
- `HostFunction.extrema_up_to_rounding`: what `min` and `max` give.
-/

namespace ConfinedLisp

namespace Host

/-- The arguments give some integers: one by one, as a list or as a table. -/
inductive Gives (xs : List Int64) : List Value → Prop where
  | separately : Gives xs (xs.map .int)
  | list (id : Identity) : Gives xs [.list id (xs.map .int)]
  | table {t : Table Value} : t.values = xs.map .int → Gives xs [.array t]

/-- The first of some integers for which a quantity is the least. -/
def IsFirstLeast (key : Int64 → Int) (m : Int64) (xs : List Int64) : Prop :=
  ∃ before after, xs = before ++ m :: after ∧ (∀ x ∈ before, key m < key x) ∧
    ∀ x ∈ after, key m ≤ key x

namespace IsFirstLeast

variable {key : Int64 → Int} {m x : Int64} {xs : List Int64}

theorem mem (h : IsFirstLeast key m xs) : m ∈ xs := by
  obtain ⟨before, after, rfl, -⟩ := h
  simp

theorem le (h : IsFirstLeast key m xs) (hx : x ∈ xs) : key m ≤ key x := by
  obtain ⟨before, after, rfl, hbefore, hafter⟩ := h
  rcases List.mem_append.1 hx with hx | hx
  · exact (hbefore x hx).le
  · rcases List.mem_cons.1 hx with rfl | hx
    · exact le_rfl
    · exact hafter x hx

theorem singleton (key : Int64 → Int) (m : Int64) : IsFirstLeast key m [m] :=
  ⟨[], [], rfl, by simp, by simp⟩

theorem replace (h : IsFirstLeast key m xs) (hx : key x < key m) : IsFirstLeast key x (xs ++ [x]) :=
  ⟨xs, [], rfl, fun _ hy => hx.trans_le (h.le hy), by simp⟩

theorem keep (h : IsFirstLeast key m xs) (hx : key m ≤ key x) : IsFirstLeast key m (xs ++ [x]) := by
  obtain ⟨before, after, rfl, hbefore, hafter⟩ := h
  refine ⟨before, after ++ [x], by simp, hbefore, fun y hy => ?_⟩
  rcases List.mem_append.1 hy with hy | hy
  · exact hafter y hy
  · exact List.mem_singleton.1 hy ▸ hx

end IsFirstLeast

section

variable {replaces : Float → Float → Bool} {key : Int64 → Int}

/-- Going on through integers from the first best of those so far. -/
theorem bestFrom_integers (name : String)
    (hreplaces : ∀ m x, replaces (Double.ofInteger m) (Double.ofInteger x) = true ↔ key x < key m)
    {m : Int64} {seen : List Int64} (h : IsFirstLeast key m seen) (rest : List Int64) :
    ∃ b, bestFrom name replaces (some (Double.ofInteger m, .int m)) (rest.map .int) =
        .ok (some (Double.ofInteger b, .int b)) ∧ IsFirstLeast key b (seen ++ rest) := by
  induction rest generalizing m seen with
  | nil => exact ⟨m, rfl, by rwa [List.append_nil]⟩
  | cons x rest ih =>
    have hstep : bestFrom name replaces (some (Double.ofInteger m, .int m)) ((x :: rest).map .int) =
        if replaces (Double.ofInteger m) (Double.ofInteger x) then
          bestFrom name replaces (some (Double.ofInteger x, .int x)) (rest.map .int)
        else bestFrom name replaces (some (Double.ofInteger m, .int m)) (rest.map .int) := rfl
    rw [hstep, List.append_cons]
    by_cases hx : key x < key m
    · rw [if_pos ((hreplaces m x).2 hx)]
      exact ih (h.replace hx)
    · rw [if_neg fun hreplace => hx ((hreplaces m x).1 hreplace)]
      exact ih (h.keep (not_lt.1 hx))

theorem bind_of_ok {α β : Type} {x : Except EvalError α} {a : α} (h : x = .ok a)
    (f : α → Except EvalError β) : (x >>= f) = f a := by
  subst h
  rfl

/-- However the integers are given, they are the candidates. -/
theorem extremum_of_gives {name : String} {x : Int64} {rest : List Int64} {args : List Value}
    (h : Gives (x :: rest) args) {best : Float × Value}
    (hbest : bestFrom name replaces none ((x :: rest).map .int) = .ok (some best)) :
    extremum name replaces args = .ok best.2 := by
  have hcount : Operands.count name (.atLeast 1) args = .ok () := by
    cases h <;> simp [Operands.count, Arity.allows]
  cases h with
  | separately =>
    -- A single integer is a candidate of its own.
    cases rest with
    | nil => exact (bind_of_ok hcount _).trans (bind_of_ok hbest _)
    | cons y rest => exact (bind_of_ok hcount _).trans (bind_of_ok hbest _)
  | list id => exact (bind_of_ok hcount _).trans (bind_of_ok hbest _)
  | table ht =>
    rw [← ht] at hbest
    exact (bind_of_ok hcount _).trans (bind_of_ok hbest _)

variable (replaces key) in
/-- An extremum of integers is the first one whose double is extreme. -/
theorem exists_extremum (name : String)
    (hreplaces : ∀ m x, replaces (Double.ofInteger m) (Double.ofInteger x) = true ↔ key x < key m)
    {xs : List Int64} {args : List Value} (hne : xs ≠ []) (h : Gives xs args) :
    ∃ b, extremum name replaces args = .ok (.int b) ∧ IsFirstLeast key b xs := by
  cases xs with
  | nil => exact absurd rfl hne
  | cons x rest =>
    obtain ⟨b, hb, hleast⟩ := bestFrom_integers name hreplaces (.singleton key x) rest
    exact ⟨b, extremum_of_gives h hb, hleast⟩

end

end Host

namespace HostFunction

open Double Host

/-- What `min` and `max` give of some integers, which may be given one by one, as a list or as a table:
the first one whose double is the least or greatest. No other one is smaller or greater by more than
1024, and none is at all if different ones become different doubles, which is so up to `2^53`. -/
theorem extrema_up_to_rounding {xs : List Int64} {args : List Value} (hne : xs ≠ [])
    (h : Gives xs args) (s : Store) :
    ∃ least greatest, HostFunction.min.run args s = (.ok (.int least), s) ∧
      HostFunction.max.run args s = (.ok (.int greatest), s) ∧ least ∈ xs ∧ greatest ∈ xs ∧
      IsFirstLeast (fun x => roundInt x.toInt) least xs ∧
      IsFirstLeast (fun x => -roundInt x.toInt) greatest xs ∧
      (∀ x ∈ xs, least.toInt ≤ x.toInt + 1024 ∧ x.toInt ≤ greatest.toInt + 1024) ∧
      ((∀ x ∈ xs, ∀ y ∈ xs, roundInt x.toInt = roundInt y.toInt → x = y) →
        ∀ x ∈ xs, least ≤ x ∧ x ≤ greatest) ∧
      ((∀ x ∈ xs, x.toInt.natAbs ≤ 2 ^ 53) → ∀ x ∈ xs, least ≤ x ∧ x ≤ greatest) := by
  obtain ⟨least, hmin, hleast⟩ := exists_extremum (fun current x => x < current)
    (fun x => roundInt x.toInt) "min" (fun m x => by simp [ofInteger_lt_iff]) hne h
  obtain ⟨greatest, hmax, hgreatest⟩ := exists_extremum (fun current x => current < x)
    (fun x => -roundInt x.toInt) "max" (fun m x => by simp [ofInteger_lt_iff]) hne h
  have hexact : (∀ x ∈ xs, ∀ y ∈ xs, roundInt x.toInt = roundInt y.toInt → x = y) →
      ∀ x ∈ xs, least ≤ x ∧ x ≤ greatest := by
    intro hapart x hx
    rw [Int64.le_iff_toInt_le, Int64.le_iff_toInt_le]
    refine ⟨Int.not_lt.1 fun hlt => ?_, Int.not_lt.1 fun hlt => ?_⟩
    · have hround := le_antisymm (hleast.le hx) (roundInt_mono hlt.le)
      exact hlt.ne (congrArg Int64.toInt (hapart x hx least hleast.mem hround.symm))
    · have hround := le_antisymm (roundInt_mono hlt.le) (Int.neg_le_neg_iff.1 (hgreatest.le hx))
      exact hlt.ne (congrArg Int64.toInt (hapart greatest hgreatest.mem x hx hround))
  refine ⟨least, greatest, ?_, ?_, hleast.mem, hgreatest.mem, hleast, hgreatest, fun x hx => ?_,
    hexact, fun hsmall => hexact fun x hx y hy hround => ?_⟩
  · rw [HostFunction.run, hmin]
    rfl
  · rw [HostFunction.run, hmax]
    rfl
  · have := hleast.le hx
    have := hgreatest.le hx
    have := roundInt_near (Integer.inRange_toInt x)
    have := roundInt_near (Integer.inRange_toInt least)
    have := roundInt_near (Integer.inRange_toInt greatest)
    omega
  · rw [roundInt_of_natAbs_le (hsmall x hx), roundInt_of_natAbs_le (hsmall y hy)] at hround
    exact Int64.toInt_inj.1 hround

/-- Integers in a table, one of them the last up to which all are doubles. -/
theorem extrema_up_to_rounding_table :
    let xs : List Int64 := [9007199254740992, -3, 9007199254740991]
    let t : Table Value := Table.ofValues (xs.map .int)
    Gives xs [.array t] ∧ (∀ x ∈ xs, x.toInt.natAbs ≤ 2 ^ 53) ∧ ∃ least greatest,
      HostFunction.min.run [.array t] .empty = (.ok (.int least), .empty) ∧
        HostFunction.max.run [.array t] .empty = (.ok (.int greatest), .empty) ∧
        least ≤ -3 ∧ 9007199254740992 ≤ greatest := by
  intro xs t
  have hgives : Gives xs [.array t] := .table rfl
  have hsmall : ∀ x ∈ xs, x.toInt.natAbs ≤ 2 ^ 53 := by
    simp only [xs, List.forall_mem_cons]
    norm_num
    refine ⟨?_, ?_, ?_⟩ <;> decide +kernel
  obtain ⟨least, greatest, hmin, hmax, -, -, -, -, -, -, hexact⟩ :=
    extrema_up_to_rounding (List.cons_ne_nil _ _) hgives .empty
  exact ⟨hgives, hsmall, least, greatest, hmin, hmax, (hexact hsmall (-3) (by simp)).1,
    (hexact hsmall 9007199254740992 (by simp)).2⟩

/-- Of two integers the first one is taken for the least unless the double of the other one is less. -/
theorem run_min_pair {a b : Int64} (h : roundInt a.toInt ≤ roundInt b.toInt) (s : Store) :
    HostFunction.min.run [.int a, .int b] s = (.ok (.int a), s) := by
  have hbest : bestFrom "min" (fun current x => x < current) none [.int a, .int b] =
      .ok (some (ofInteger a, .int a)) :=
    if_neg fun hlt => (ofInteger_lt_iff.1 (of_decide_eq_true hlt)).not_ge h
  have hgives : Gives [a, b] [.int a, .int b] := .separately
  have hmin : extremum "min" (fun current x => x < current) [.int a, .int b] = .ok (.int a) :=
    extremum_of_gives hgives hbest
  rw [HostFunction.run, hmin]
  rfl

/-- The first of two integers that become the same double is taken for the least, though it is greater
than the other one. They can be 1024 apart. -/
theorem min_of_same_double :
    HostFunction.min.run [.int 9007199254740993, .int 9007199254740992] .empty =
        (.ok (.int 9007199254740993), .empty) ∧
      (9007199254740992 : Int64) < 9007199254740993 ∧
      HostFunction.min.run [.int 4611686018427390464, .int 4611686018427389440] .empty =
        (.ok (.int 4611686018427390464), .empty) ∧
      (4611686018427390464 : Int64).toInt = (4611686018427389440 : Int64).toInt + 1024 :=
  ⟨run_min_pair (by decide +kernel) _, by decide, run_min_pair (by decide +kernel) _, by decide⟩

end HostFunction

end ConfinedLisp
