/-!
# Sorted ranges

A set of code points as inclusive ranges in rising order. The search stops at the first range that
starts above the number; `inRanges_eq_any` says that nothing is missed by that.
-/

namespace ConfinedLisp

namespace Text

/-- Whether a number lies in one of the ranges, which are in rising order. -/
def inRanges (n : Nat) : List (Nat × Nat) → Bool
  | [] => false
  | (low, high) :: rest => if n < low then false else decide (n ≤ high) || inRanges n rest

/-- On ranges in rising order, stopping early loses no member. -/
theorem inRanges_eq_any (n : Nat) {ranges : List (Nat × Nat)}
    (h : ranges.Pairwise fun a b => a.1 ≤ b.1) :
    inRanges n ranges = ranges.any fun range => decide (range.1 ≤ n) && decide (n ≤ range.2) := by
  induction ranges with
  | nil => rfl
  | cons range rest ih =>
    obtain ⟨habove, hrest⟩ := List.pairwise_cons.1 h
    by_cases hbelow : n < range.1
    · have hmissed : (rest.any fun range => decide (range.1 ≤ n) && decide (n ≤ range.2)) = false := by
        rw [List.any_eq_false]
        intro other hother
        have := habove other hother
        simp [show ¬ other.1 ≤ n by omega]
      simp [inRanges, hbelow, hmissed, show ¬ range.1 ≤ n by omega]
    · simp [inRanges, hbelow, show range.1 ≤ n by omega, ih hrest]

end Text

end ConfinedLisp
