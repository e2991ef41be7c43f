import Mathlib.Data.Nat.Basic
import Mathlib.Order.Bounds.Defs
import Mathlib.Order.Monotone.Defs
import Shorthand.Proofs.Text.Columns

/-!
# CodeUnits — columns as places in the encoded line

A column counts the code units before it, so it is a place in the line as UTF-16 writes it
(`encode`). Some places split a character, which are those between the two surrogates of a pair. The
column of an index is never one of them (`not_splitsPair_columnOf`), so a column that is turned into
an index and back moves out of a pair, to its start.

The two conversions are a floor pair: one is the other rounded down (`isFloor_indexOf`), and all
else about them follows from that.
-/

namespace Shorthand.Text

/-! ## The encoded line -/

/-- A character in UTF-16: one code unit, or a high and a low surrogate. -/
def encodeChar (c : Char) : List Nat :=
  if c.toNat < 0x10000 then [c.toNat]
  else [0xD800 + (c.toNat - 0x10000) / 0x400, 0xDC00 + (c.toNat - 0x10000) % 0x400]

/-- A line in UTF-16. -/
def encode (line : List Char) : List Nat := line.flatMap encodeChar

/-- A code unit that is the second one of a pair. -/
def IsLowSurrogate (unit : Nat) : Prop := 0xDC00 ≤ unit ∧ unit ≤ 0xDFFF

/-- A column inside a pair: the second surrogate of the pair is right behind it. -/
def SplitsPair (line : List Char) (column : Nat) : Prop :=
  ∃ unit ∈ (encode line)[column]?, IsLowSurrogate unit

theorem length_encodeChar (c : Char) : (encodeChar c).length = units c := by
  unfold encodeChar units
  split <;> rfl

theorem length_encode (line : List Char) : (encode line).length = width line := by
  induction line with
  | nil => rfl
  | cons c line ih =>
      rw [encode, List.flatMap_cons, List.length_append, length_encodeChar, width_cons, ← ih,
        encode]

/-- No character starts with a low surrogate: the code points of surrogates are not characters, and
the first one of a pair is a high one. -/
theorem not_isLowSurrogate_of_head {c : Char} {unit : Nat} (h : (encodeChar c).head? = some unit) :
    ¬ IsLowSurrogate unit := by
  have hvalid : c.toNat < 0xD800 ∨ 0xDFFF < c.toNat ∧ c.toNat < 0x110000 := c.valid
  unfold encodeChar at h
  rintro ⟨hlow, hhigh⟩
  split at h
  · cases h
    omega
  · cases h
    omega

/-- What stands behind the column of an index is the code of the characters behind the index. -/
theorem getElem?_encode_columnOf (line : List Char) (i : Nat) :
    (encode line)[columnOf line i]? = (encode (line.drop i)).head? := by
  have hsplit : encode line = encode (line.take i) ++ encode (line.drop i) := by
    rw [encode, encode, encode, ← List.flatMap_append, List.take_append_drop]
  rw [hsplit, columnOf, ← length_encode, List.getElem?_append_right (Nat.le_refl _), Nat.sub_self,
    List.head?_eq_getElem?]

/-- The column of an index splits no pair. -/
theorem not_splitsPair_columnOf (line : List Char) (i : Nat) :
    ¬ SplitsPair line (columnOf line i) := by
  rintro ⟨unit, hunit, hlow⟩
  rw [getElem?_encode_columnOf] at hunit
  cases hdrop : line.drop i with
  | nil =>
      rw [hdrop] at hunit
      cases hunit
  | cons c rest =>
      obtain ⟨first, tail, hcode⟩ : ∃ first tail, encodeChar c = first :: tail := by
        apply List.exists_cons_of_length_pos
        rw [length_encodeChar]
        exact units_pos c
      rw [hdrop, encode, List.flatMap_cons, hcode] at hunit
      exact not_isLowSurrogate_of_head (c := c) (by rw [hcode]; exact hunit) hlow

/-! ## Rounding down -/

/-- Behind the end of a line there are no more columns. -/
theorem columnOf_min (line : List Char) (i : Nat) :
    columnOf line (min i line.length) = columnOf line i := by
  rw [columnOf, columnOf, ← List.take_eq_take_min]

theorem columnOf_mono (line : List Char) : Monotone (columnOf line) := by
  intro i j hij
  rw [← columnOf_min line i, ← columnOf_min line j]
  rcases Nat.eq_or_lt_of_le (show min i line.length ≤ min j line.length by omega) with heq | hlt
  · rw [heq]
  · exact Nat.le_of_lt (columnOf_lt_columnOf hlt (Nat.min_le_right _ _))

theorem IsFloor.unique {line : List Char} {column i j : Nat} (hi : IsFloor line column i)
    (hj : IsFloor line column j) : i = j :=
  Nat.le_antisymm (hj.last i hi.within hi.reached) (hi.last j hj.within hj.reached)

/-- A column further right is not rounded down to an index further left. -/
theorem IsFloor.mono {line : List Char} {column column' i j : Nat} (hi : IsFloor line column i)
    (hj : IsFloor line column' j) (h : column ≤ column') : i ≤ j :=
  hj.last i hi.within (Nat.le_trans hi.reached h)

/-- The column of an index is rounded down to that index, or to the end of the line. -/
theorem isFloor_columnOf (line : List Char) (i : Nat) :
    IsFloor line (columnOf line i) (min i line.length) where
  within := Nat.min_le_right _ _
  reached := Nat.le_of_eq (columnOf_min line i)
  last := by
    intro j hj hcolumn
    rw [← columnOf_min line i] at hcolumn
    refine Nat.le_of_not_lt fun hlt => ?_
    have := columnOf_lt_columnOf hlt hj
    omega

/-- **The conversions between columns and indices are a floor pair.** The column of an index counts
the code units before it. The index of a column is the largest one in the line whose column is not
past it. So an index comes back from its column as far as the line goes, neither conversion reverses
an order, and a column that is converted there and back does not grow and is not inside a pair. -/
theorem columns_and_indices (line : List Char) :
    (∀ i, columnOf line i = (encode (line.take i)).length) ∧
    (∀ column, IsGreatest {k | k ≤ line.length ∧ columnOf line k ≤ column}
      (indexOf line column)) ∧
    (∀ i, indexOf line (columnOf line i) = min i line.length) ∧
    Monotone (indexOf line) ∧ Monotone (columnOf line) ∧
    ∀ column, columnOf line (indexOf line column) ≤ column ∧
      ¬ SplitsPair line (columnOf line (indexOf line column)) := by
  have hfloor := isFloor_indexOf line
  refine ⟨fun i => (length_encode _).symm, fun column => ?_, fun i => ?_, fun _ _ h => ?_,
    columnOf_mono line, fun column => ?_⟩
  · exact ⟨⟨(hfloor column).within, (hfloor column).reached⟩,
      fun k hk => (hfloor column).last k hk.1 hk.2⟩
  · exact (hfloor _).unique (isFloor_columnOf line i)
  · exact (hfloor _).mono (hfloor _) h
  · exact ⟨(hfloor column).reached, not_splitsPair_columnOf line _⟩

/-- Inside the pair of the second character, a column goes back to the start of the pair. -/
example : encode ['é', '😀'] = [0xE9, 0xD83D, 0xDE00] ∧ indexOf ['é', '😀'] 2 = 1 ∧
    columnOf ['é', '😀'] 1 = 1 := by decide

end Shorthand.Text
