import ConfinedLisp.Json.Codec

/-!
# The order of members

The members of an object are in the order of their keys, which are distinct. Members whose keys are
distinct are only sorted, and members that are in order stay as they are.

## Main definitions

- `Json.Ordered`: members in strictly increasing order of their keys.

## Main results

- `Json.ordered_orderMembers`: members that are put in order are in order.
- `Json.orderMembers_of_ordered`: members in order stay as they are.
- `Json.orderMembers_of_nodup`: members with distinct keys are only sorted.
-/

namespace ConfinedLisp

namespace Json

variable {α : Type} {members : List (String × α)}

/-- Members in strictly increasing order of their keys. -/
def Ordered (members : List (String × α)) : Prop :=
  members.Pairwise fun m n => m.1 < n.1

/-- Whether a member may stand before another one. -/
def keyLE (m n : String × α) : Bool := decide (m.1 ≤ n.1)

theorem keyLE_trans (m n o : String × α) (h : keyLE m n = true) (h' : keyLE n o = true) :
    keyLE m o = true := by
  simp only [keyLE, decide_eq_true_eq] at h h' ⊢
  exact String.le_trans h h'

theorem keyLE_total (m n : String × α) : (keyLE m n || keyLE n m) = true := by
  simpa [keyLE] using String.le_total m.1 n.1

theorem orderMembers_eq (members : List (String × α)) :
    orderMembers members = keepLast (members.mergeSort keyLE) := rfl

/-! ### Keeping the last of several members -/

theorem mem_of_mem_keepLast {m : String × α} (h : m ∈ keepLast members) : m ∈ members := by
  fun_induction keepLast members with
  | case1 a b rest heq ih => exact List.mem_cons_of_mem _ (ih h)
  | case2 a b rest hne ih =>
    rcases List.mem_cons.1 h with rfl | h
    · exact List.mem_cons_self
    · exact List.mem_cons_of_mem _ (ih h)
  | case3 members hshort => exact h

theorem ordered_keepLast (h : members.Pairwise fun m n => keyLE m n = true) :
    Ordered (keepLast members) := by
  fun_induction keepLast members with
  | case1 a b rest heq ih => exact ih (List.pairwise_cons.1 h).2
  | case2 a b rest hne ih =>
    obtain ⟨hle, hrest⟩ := List.pairwise_cons.1 h
    have hab : a.1 ≤ b.1 := by simpa [keyLE] using hle b List.mem_cons_self
    refine List.pairwise_cons.2 ⟨fun m hm => ?_, ih hrest⟩
    -- Everything that is kept is `b` or stands behind it.
    have hbm : b.1 ≤ m.1 := by
      rcases List.mem_cons.1 (mem_of_mem_keepLast hm) with rfl | hm
      · exact String.le_refl _
      · simpa [keyLE] using (List.pairwise_cons.1 hrest).1 m hm
    exact String.not_le.1 fun hma => hne (String.le_antisymm hab (String.le_trans hbm hma))
  | case3 members hshort =>
    cases members with
    | nil => exact List.Pairwise.nil
    | cons m rest =>
      cases rest with
      | nil => exact List.pairwise_singleton ..
      | cons n rest => exact absurd rfl (hshort m n rest)

theorem keepLast_of_nodup (h : (members.map Prod.fst).Nodup) : keepLast members = members := by
  fun_induction keepLast members with
  | case1 a b rest heq ih => simp [heq] at h
  | case2 a b rest hne ih => rw [ih (List.nodup_cons.1 h).2]
  | case3 members hshort => rfl

/-! ### Putting members in order -/

theorem Ordered.nodup (h : Ordered members) : (members.map Prod.fst).Nodup := by
  refine List.pairwise_map.2 (List.Pairwise.imp ?_ h)
  intro m n hlt heq
  exact String.lt_irrefl n.1 (heq ▸ hlt)

/-- Members that are put in order are in order. -/
theorem ordered_orderMembers (members : List (String × α)) : Ordered (orderMembers members) :=
  ordered_keepLast (List.pairwise_mergeSort keyLE_trans keyLE_total members)

/-- Members with distinct keys are only sorted. -/
theorem orderMembers_of_nodup (h : (members.map Prod.fst).Nodup) :
    orderMembers members = members.mergeSort keyLE := by
  have hperm := (List.mergeSort_perm members keyLE).map Prod.fst
  rw [orderMembers_eq, keepLast_of_nodup (hperm.nodup_iff.2 h)]

/-- Members in order stay as they are. -/
theorem orderMembers_of_ordered (h : Ordered members) : orderMembers members = members := by
  rw [orderMembers_of_nodup h.nodup]
  refine List.mergeSort_of_pairwise (List.Pairwise.imp ?_ h)
  intro m n hlt
  exact decide_eq_true (String.not_lt.1 fun hgt => String.lt_irrefl _ (String.lt_trans hlt hgt))

end Json

end ConfinedLisp
