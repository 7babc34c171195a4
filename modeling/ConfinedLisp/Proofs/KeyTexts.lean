import ConfinedLisp.Proofs.JsonTexts
import ConfinedLisp.Proofs.TableIndex

/-!
# Keys as texts

A key of a table is written as a text, an integer as its decimal digits, and the text stands for the
key again unless a name looks like an integer. Texts are ordered as their bytes are.

## Main results

- `Text.bytes_le_iff`: the order of texts is that of their bytes.
- `Integer.ofCanonicalText?_eq_some_iff`: the canonical text of a machine integer, and no other one,
  stands for it.
- `Json.ofText_keyText`, `Json.keyText_ofText`: keys and their texts correspond.
- `Table.sequentialFrom_iff`: the keys of a sequential table.
-/

namespace ConfinedLisp

namespace Text

/-! ### The order of bytes -/

/-- The bytes of a text. -/
def bytes (s : String) : List UInt8 := s.toByteArray.data.toList

/-- Two sequences of bytes differ, and where they first do the first one has the smaller byte. -/
def Precedes : List UInt8 → List UInt8 → Prop
  | a :: x, b :: y => a < b ∨ a = b ∧ Precedes x y
  | _, _ => False

theorem Precedes.append_lt {x y : List UInt8} (h : Precedes x y) (u w : List UInt8) :
    x ++ u < y ++ w := by
  induction x generalizing y with
  | nil => exact h.elim
  | cons a x ih =>
    cases y with
    | nil => exact h.elim
    | cons b y => exact List.cons_lt_cons_iff.2 (h.imp_right fun h => ⟨h.1, ih h.2⟩)

/-- The encoding of characters keeps their order. -/
theorem precedes_utf8EncodeChar {c d : Char} (h : c < d) :
    Precedes (String.utf8EncodeChar c) (String.utf8EncodeChar d) := by
  have hlt : c.val.toNat < d.val.toNat := h
  have hmax : d.val.toNat < 0x110000 := by
    have hvalid := d.valid
    simp only [UInt32.isValidChar, Nat.isValidChar] at hvalid
    omega
  unfold String.utf8EncodeChar
  generalize c.val.toNat = v at hlt
  generalize d.val.toNat = w at hlt hmax
  -- The more bytes a character has the larger is its first one; among characters with equally many
  -- bytes the first different digit in base 64 decides.
  dsimp only
  repeat' split
  all_goals
    simp (disch := omega) only [Precedes, UInt8.lt_iff_toNat_lt, ← UInt8.toNat_inj,
      UInt8.toNat_ofNat', Nat.mod_eq_of_lt]
    omega

theorem bytes_eq (s : String) : bytes s = s.toList.flatMap String.utf8EncodeChar := by
  have hbytes : s.toByteArray = s.toList.utf8Encode := by
    rw [← String.toByteArray_ofList, String.ofList_toList]
  rw [bytes, hbytes]
  exact List.toList_data_toByteArray

theorem flatMap_utf8EncodeChar_lt {cs ds : List Char} (h : cs < ds) :
    cs.flatMap String.utf8EncodeChar < ds.flatMap String.utf8EncodeChar := by
  induction cs generalizing ds with
  | nil =>
    cases ds with
    | nil => exact absurd h (List.not_lt_nil _)
    | cons d ds =>
      rw [List.flatMap_nil, List.flatMap_cons]
      cases henc : String.utf8EncodeChar d with
      | nil => exact absurd henc String.utf8EncodeChar_ne_nil
      | cons b bs => exact List.nil_lt_cons ..
  | cons c cs ih =>
    cases ds with
    | nil => exact absurd h (List.not_lt_nil _)
    | cons d ds =>
      rw [List.flatMap_cons, List.flatMap_cons]
      rcases List.cons_lt_cons_iff.1 h with hlt | ⟨rfl, hrest⟩
      · exact (precedes_utf8EncodeChar hlt).append_lt _ _
      · exact List.append_left_lt (ih hrest)

/-- Texts are ordered as their bytes are. -/
theorem bytes_le_iff {s t : String} : bytes s ≤ bytes t ↔ s ≤ t := by
  rw [bytes_eq, bytes_eq]
  constructor
  · intro hle hlt
    exact hle (flatMap_utf8EncodeChar_lt hlt)
  · intro hle
    have hnot : ¬ t.toList < s.toList := hle
    rcases List.le_iff_lt_or_eq.1 (List.not_lt.1 hnot) with hlt | heq
    · exact List.le_of_lt (flatMap_utf8EncodeChar_lt hlt)
    · rw [heq]
      exact List.le_refl _

end Text

/-! ### Canonical texts -/

namespace Integer

theorem digits_ne_minus (n : Nat) (cs : List Char) : digits n ≠ '-' :: cs := by
  intro h
  have hdigit := isDigit_of_mem_digits (n := n) (c := '-') (by rw [h]; exact List.mem_cons_self)
  exact absurd hdigit (by decide)

/-- A machine integer is read back from its text. -/
theorem ofCanonicalText?_text (n : Int64) : ofCanonicalText? (text n.toInt) = some n := by
  have hlength : ¬ mostDigits < (digits n.toInt.natAbs).length :=
    Nat.not_lt.2 (length_digits_natAbs (inRange_toInt n))
  have hall : (digits n.toInt.natAbs).all isDigit = true :=
    List.all_eq_true.2 fun _ h => isDigit_of_mem_digits h
  have hne : (digits n.toInt.natAbs).isEmpty = false := by
    simpa using (digits_isDigits n.toInt.natAbs).1
  have hchars : (text n.toInt).toList = chars n.toInt := String.toList_ofList
  unfold ofCanonicalText?
  by_cases hneg : n.toInt < 0
  · have habs : -(n.toInt.natAbs : Int) = n.toInt := by omega
    rw [chars, if_pos hneg] at hchars
    simp only [hchars, hne, hlength, hall, ofDigits_digits, habs, ofInt?_toInt, decide_false,
      Bool.or_self, Bool.not_true, Bool.false_eq_true, ↓reduceIte]
  · have habs : (n.toInt.natAbs : Int) = n.toInt := by omega
    rw [chars, if_neg hneg] at hchars
    split
    next negative ds heq =>
    split at heq
    · next rest hrest => exact absurd (hchars.symm.trans hrest) (digits_ne_minus _ _)
    · cases heq
      simp only [hchars, hne, hlength, hall, ofDigits_digits, habs, ofInt?_toInt, decide_false,
        Bool.or_self, Bool.not_true, Bool.false_eq_true, ↓reduceIte]

/-- The canonical text of a machine integer, and no other one, stands for it. -/
theorem ofCanonicalText?_eq_some_iff {s : String} {n : Int64} :
    ofCanonicalText? s = some n ↔ s = text n.toInt := by
  constructor
  · intro h
    unfold ofCanonicalText? at h
    split at h
    obtain ⟨-, h⟩ := Option.ite_none_left_eq_some.1 h
    obtain ⟨htext, h⟩ := Option.ite_none_right_eq_some.1 h
    rw [toInt_of_ofInt?_eq_some h, htext]
  · rintro rfl
    exact ofCanonicalText?_text n

end Integer

/-! ### Keys -/

/-- A key is not a name that looks like an integer. -/
def Key.IsProper : Key → Prop
  | .index _ => True
  | .name s => ∀ n : Int64, s ≠ Integer.text n.toInt

namespace Json

/-- The key that a text stands for is written as the text. -/
theorem keyText_ofText (s : String) : keyText (Key.ofText s) = s := by
  cases h : Integer.ofCanonicalText? s with
  | none => rw [Key.ofText, h, keyText]
  | some n => rw [Key.ofText, h, keyText, Integer.ofCanonicalText?_eq_some_iff.1 h]

/-- A proper key is the one that its text stands for. -/
theorem ofText_keyText {key : Key} (h : key.IsProper) : Key.ofText (keyText key) = key := by
  cases key with
  | index n => rw [keyText, Key.ofText, Integer.ofCanonicalText?_text]
  | name s =>
    cases hs : Integer.ofCanonicalText? s with
    | none => rw [keyText, Key.ofText, hs]
    | some n => exact absurd (Integer.ofCanonicalText?_eq_some_iff.1 hs) (h n)

end Json

namespace Table

/-- The indices below `n`, in order. -/
def firstIndices (n : Nat) : List Key := (List.range n).map fun i => .index (Int64.ofNat i)

theorem sequentialFrom_iff {i : Nat} {keys : List Key} :
    sequentialFrom i keys = true ↔
      keys = (List.range' i keys.length).map fun i => .index (Int64.ofNat i) := by
  induction keys generalizing i with
  | nil => simp [sequentialFrom]
  | cons key keys ih => simp [sequentialFrom, ih, List.range'_succ]

theorem sequentialFrom_zero_iff {keys : List Key} :
    sequentialFrom 0 keys = true ↔ keys = firstIndices keys.length := by
  rw [sequentialFrom_iff, firstIndices, List.range_eq_range']

end Table

end ConfinedLisp
