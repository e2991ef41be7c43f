import Shorthand.Text.Line

/-!
# Columns — two ways to count a line

The column of an index grows with the index, strictly as long as the index is inside the line. The
index of a column is the last one whose column is not past it (`isFloor_indexOf`), which is what
"rounded down to a character, and no further than the end of the line" comes to.
-/

namespace Shorthand.Text

/-! ## The column of an index -/

@[simp] theorem columnOf_zero (line : List Char) : columnOf line 0 = 0 := by
  simp [columnOf]

@[simp] theorem columnOf_nil (i : Nat) : columnOf [] i = 0 := by
  simp [columnOf]

@[simp] theorem columnOf_cons_succ (c : Char) (line : List Char) (i : Nat) :
    columnOf (c :: line) (i + 1) = units c + columnOf line i := by
  simp [columnOf]

theorem columnOf_length (line : List Char) : columnOf line line.length = width line := by
  rw [columnOf, List.take_length]

/-- Each character inside the line moves the column on. -/
theorem columnOf_lt_columnOf {line : List Char} {i j : Nat} (hij : i < j)
    (hj : j ≤ line.length) : columnOf line i < columnOf line j := by
  induction line generalizing i j with
  | nil =>
      have : j = 0 := by simpa using hj
      omega
  | cons c line ih =>
      obtain ⟨j, rfl⟩ : ∃ k, j = k + 1 := ⟨j - 1, by omega⟩
      have hc := units_pos c
      cases i with
      | zero =>
          rw [columnOf_zero, columnOf_cons_succ]
          omega
      | succ i =>
          have hlt := ih (i := i) (j := j) (by omega) (by simpa using hj)
          rw [columnOf_cons_succ, columnOf_cons_succ]
          omega

theorem columnOf_le_width {line : List Char} {i : Nat} (hi : i ≤ line.length) :
    columnOf line i ≤ width line := by
  rw [← columnOf_length]
  rcases Nat.eq_or_lt_of_le hi with rfl | hlt
  · exact Nat.le_refl _
  · exact Nat.le_of_lt (columnOf_lt_columnOf hlt (Nat.le_refl _))

/-! ## The index of a column -/

/-- The index a column is rounded down to: the last one of the line that is not past the column. -/
structure IsFloor (line : List Char) (column index : Nat) : Prop where
  within : index ≤ line.length
  reached : columnOf line index ≤ column
  last : ∀ i, i ≤ line.length → columnOf line i ≤ column → i ≤ index

theorem IsFloor.nil (column : Nat) : IsFloor [] column 0 where
  within := Nat.le_refl _
  reached := by rw [columnOf_nil]; exact Nat.zero_le _
  last := fun _ hi _ => hi

/-- A column with room for the first character lies behind it. -/
theorem IsFloor.cons {c : Char} {line : List Char} {column index : Nat} (hc : units c ≤ column)
    (h : IsFloor line (column - units c) index) : IsFloor (c :: line) column (index + 1) where
  within := Nat.succ_le_succ h.within
  reached := by
    have := h.reached
    rw [columnOf_cons_succ]
    omega
  last := by
    intro i hi hcol
    cases i with
    | zero => exact Nat.zero_le _
    | succ i =>
        rw [columnOf_cons_succ] at hcol
        exact Nat.succ_le_succ (h.last i (by simpa using hi) (by omega))

/-- A column without room for the first character is rounded down to the start of the line. -/
theorem IsFloor.start {c : Char} {line : List Char} {column : Nat} (hc : ¬ units c ≤ column) :
    IsFloor (c :: line) column 0 where
  within := Nat.zero_le _
  reached := by rw [columnOf_zero]; exact Nat.zero_le _
  last := by
    intro i _ hcol
    cases i with
    | zero => exact Nat.le_refl _
    | succ i =>
        rw [columnOf_cons_succ] at hcol
        omega

/-- **The index of a column is the column rounded down.** -/
theorem isFloor_indexOf (line : List Char) (column : Nat) :
    IsFloor line column (indexOf line column) := by
  induction line generalizing column with
  | nil => exact IsFloor.nil column
  | cons c line ih =>
      rw [indexOf]
      split
      · next hc => exact IsFloor.cons hc (ih _)
      · next hc => exact IsFloor.start hc

end Shorthand.Text
