import ConfinedLisp.Integer

/-!
# Spans counted from either end

A span of a sequence is given by a start and an optional length. A negative start counts from the end; a
negative length leaves that many elements off the end. What lies outside of the sequence is cut off.

The bounds of a span are computed on machine integers by `Span.bounds?`, with sums that are refused
where they overflow. `Span.position` and `Span.ending` say what they are as integers without bounds, and
`Span.bounds?_eq` that no sum overflows.
-/

namespace ConfinedLisp

/-- A span of positions, from `begin` up to `stop`. -/
structure Span where
  begin : Nat
  stop : Nat
deriving DecidableEq, Repr

namespace Span

/-- Where a span begins, computed on machine integers. -/
def begin? (size start : Int64) : Option Int64 :=
  if start < 0 then (Integer.plus? size start).map fun n => if n < 0 then 0 else n
  else some (if size < start then size else start)

/-- Where a span ends, computed on machine integers. -/
def stop? (size begin : Int64) : Option Int64 → Option Int64
  | none => some size
  | some length =>
    if length < 0 then
      (Integer.plus? size length).map fun n => if n < begin then begin else n
    else
      let sum := Integer.saturatingPlus begin length
      some (if size < sum then size else sum)

/-- The bounds of a span, computed on machine integers; nothing if a sum overflows. -/
def bounds? (size start : Int64) (length : Option Int64) : Option (Int64 × Int64) := do
  let begin ← begin? size start
  let stop ← stop? size begin length
  return (begin, stop)

/-- The position that a start denotes in a sequence of the given size. -/
def position (size : Nat) (start : Int64) : Int :=
  if start.toInt < 0 then max ((size : Int) + start.toInt) 0 else min start.toInt size

/-- Where a span of the given length ends that begins at `begin`. -/
def ending (size : Nat) (begin : Int) : Option Int64 → Int
  | none => size
  | some length =>
    if length.toInt < 0 then max ((size : Int) + length.toInt) begin
    else min (begin + length.toInt) size

/-- The span of a start and a length in a sequence of the given size, with bounds that are computed on
machine integers. A sequence has no more elements than these can count; for the sake of sizes beyond
that the span is found without them there. -/
def of (size : Nat) (start : Int64) (length : Option Int64) : Span :=
  match (Integer.ofInt? size).bind fun n => bounds? n start length with
  | some (begin, stop) => ⟨begin.toInt.toNat, stop.toInt.toNat⟩
  | none =>
    let begin := position size start
    ⟨begin.toNat, (ending size begin length).toNat⟩

/-- The elements of a list in a span. -/
def take {α : Type} (span : Span) (xs : List α) : List α :=
  (xs.drop span.begin).take (span.stop - span.begin)

/-! ### The bounds without overflow -/

/-- The position of a start lies within the sequence. -/
theorem position_within (size : Nat) (start : Int64) :
    0 ≤ position size start ∧ position size start ≤ size := by
  unfold position
  split <;> omega

/-- A span ends after it begins and within the sequence. -/
theorem ending_within {size : Nat} {begin : Int} (hbegin : 0 ≤ begin ∧ begin ≤ size)
    (length : Option Int64) :
    begin ≤ ending size begin length ∧ ending size begin length ≤ size := by
  cases length with
  | none => exact ⟨hbegin.2, Int.le_refl _⟩
  | some length =>
    unfold ending
    split <;> omega

section Machine

variable {size : Int64}

theorem begin?_eq (hsize : 0 ≤ size.toInt) (start : Int64) :
    ∃ begin, begin? size start = some begin ∧ begin.toInt = position size.toInt.toNat start := by
  have hcast : (size.toInt.toNat : Int) = size.toInt := Int.toNat_of_nonneg hsize
  have hgreat := (Integer.inRange_toInt size).2
  have hleast := (Integer.inRange_toInt start).1
  have hzero : (0 : Int64).toInt = 0 := rfl
  simp only [begin?, position, Int64.lt_iff_toInt_lt, hzero, hcast]
  by_cases hneg : start.toInt < 0
  · rw [if_pos hneg, if_pos hneg]
    -- The sum of a size and a negative number lies between the two.
    have hrange : Integer.InRange (size.toInt + start.toInt) := ⟨by omega, by omega⟩
    have hsum := Integer.toInt_ofInt hrange
    rw [Integer.plus?, Integer.ofInt?, if_pos hrange]
    refine ⟨_, rfl, ?_⟩
    dsimp only
    split <;> omega
  · rw [if_neg hneg, if_neg hneg]
    refine ⟨_, rfl, ?_⟩
    split <;> omega

theorem stop?_eq (hsize : 0 ≤ size.toInt) {begin : Int64} (hbegin : 0 ≤ begin.toInt)
    (length : Option Int64) :
    ∃ stop, stop? size begin length = some stop ∧
      stop.toInt = ending size.toInt.toNat begin.toInt length := by
  have hcast : (size.toInt.toNat : Int) = size.toInt := Int.toNat_of_nonneg hsize
  have hgreat := (Integer.inRange_toInt size).2
  have hzero : (0 : Int64).toInt = 0 := rfl
  cases length with
  | none => exact ⟨size, rfl, hcast.symm⟩
  | some length =>
    have hleast := (Integer.inRange_toInt length).1
    simp only [stop?, ending, Int64.lt_iff_toInt_lt, hzero, hcast]
    by_cases hneg : length.toInt < 0
    · rw [if_pos hneg, if_pos hneg]
      have hrange : Integer.InRange (size.toInt + length.toInt) := ⟨by omega, by omega⟩
      have hsum := Integer.toInt_ofInt hrange
      rw [Integer.plus?, Integer.ofInt?, if_pos hrange]
      refine ⟨_, rfl, ?_⟩
      dsimp only
      split <;> omega
    · rw [if_neg hneg, if_neg hneg]
      -- A sum beyond the range is beyond the size too, so it does not show where it saturates.
      have hlow : Integer.least ≤ begin.toInt + length.toInt := by
        simp only [Integer.least] at hleast ⊢
        omega
      have hsum := Integer.toInt_saturate (begin.toInt + length.toInt)
      rw [← Integer.saturatingPlus] at hsum
      refine ⟨_, rfl, ?_⟩
      split <;> omega

end Machine

/-- On machine integers no sum overflows, and the bounds are the exact ones. -/
theorem bounds?_eq_exact {size : Nat} (h : Integer.InRange size) (start : Int64)
    (length : Option Int64) :
    ∃ begin stop, bounds? (Int64.ofInt size) start length = some (begin, stop) ∧
      begin.toInt = position size start ∧
      stop.toInt = ending size (position size start) length := by
  have hsize : (Int64.ofInt size).toInt = size := Integer.toInt_ofInt h
  have hnonneg : 0 ≤ (Int64.ofInt size).toInt := by omega
  obtain ⟨begin, hbegin, hposition⟩ := begin?_eq hnonneg start
  rw [hsize, Int.toNat_natCast] at hposition
  have hbnonneg : 0 ≤ begin.toInt := by
    have := position_within size start
    omega
  obtain ⟨stop, hstop, hending⟩ := stop?_eq hnonneg hbnonneg length
  rw [hsize, Int.toNat_natCast, hposition] at hending
  refine ⟨begin, stop, ?_, hposition, hending⟩
  rw [bounds?, hbegin]
  exact congrArg (Option.bind · fun stop => some (begin, stop)) hstop

/-- The span is the exact one, whichever way it is found. -/
theorem of_eq (size : Nat) (start : Int64) (length : Option Int64) :
    of size start length =
      ⟨(position size start).toNat, (ending size (position size start) length).toNat⟩ := by
  unfold of
  by_cases hrange : Integer.InRange size
  · obtain ⟨begin, stop, hbounds, hbegin, hstop⟩ := bounds?_eq_exact hrange start length
    rw [Integer.ofInt?, if_pos hrange, Option.bind_some, hbounds]
    simp only [hbegin, hstop]
  · rw [Integer.ofInt?, if_neg hrange, Option.bind_none]

end Span

end ConfinedLisp
