import Shorthand.Proofs.Text.Positions

/-!
# LineStarts — positions seen from the text and from the line

A position can be found in two ways. An edit looks for it in the whole text: it skips newlines, then
counts characters up to the first line break character. A completion takes the line out of the text
first, without a carriage return at its end, and counts in the line.

Both start at the same place, and both stop at the end of the line. They part at a carriage return
inside a line, which is a character of the line for the one and a line break for the other:
`offsetOf_eq_lineStart_add` says where each arrives, and that they agree exactly if the column does
not reach beyond such a carriage return.
-/

namespace Shorthand.Text

/-! ## Where a line starts -/

/-- The lines of a text before the one with this number, each with its newline. -/
def wholeLines (text : List Char) (number : Nat) : List Char :=
  ((lines text).take number).flatMap (· ++ ['\n'])

/-- The offset at which a line starts: behind the newline of the line before it. -/
def lineStart (text : List Char) (number : Nat) : Nat := (wholeLines text number).length

theorem newline_not_mem_of_mem_lines {text line : List Char} (h : line ∈ lines text) :
    '\n' ∉ line := by
  induction text generalizing line with
  | nil =>
      rw [lines, List.splitOn_nil, List.mem_singleton] at h
      rw [h]
      exact List.not_mem_nil
  | cons c text ih =>
      rw [lines, List.splitOn_cons_eq_if_modifyHead] at h
      split at h
      · rcases List.mem_cons.mp h with rfl | h
        · exact List.not_mem_nil
        · exact ih h
      · next hc =>
        cases hlines : text.splitOn '\n' with
        | nil => exact absurd hlines (List.splitOn_ne_nil _ _)
        | cons first others =>
            rw [hlines, List.modifyHead_cons] at h
            have hmem : ∀ l ∈ first :: others, '\n' ∉ l := fun l hl =>
              ih (by rw [lines, hlines]; exact hl)
            rcases List.mem_cons.mp h with rfl | h
            · have hne : '\n' ≠ c := fun heq => hc (by rw [heq]; exact beq_self_eq_true c)
              exact mt List.mem_cons.mp (not_or.mpr ⟨hne, hmem first List.mem_cons_self⟩)
            · exact hmem line (List.mem_cons_of_mem _ h)

/-- There is a newline for each of the lines. -/
theorem count_wholeLines {text : List Char} {number : Nat} (h : number ≤ lineCount text) :
    (wholeLines text number).count '\n' = number := by
  have hcount : ∀ ls : List (List Char), (∀ l ∈ ls, '\n' ∉ l) →
      (ls.flatMap (· ++ ['\n'])).count '\n' = ls.length := by
    intro ls hls
    induction ls with
    | nil => rfl
    | cons l ls ih =>
        obtain ⟨hl, hls⟩ := List.forall_mem_cons.mp hls
        rw [List.flatMap_cons, List.count_append, List.count_append, ih hls,
          List.count_eq_zero.mpr hl, List.length_cons, List.count_singleton_self]
        omega
  rw [wholeLines, hcount _ fun l hl => newline_not_mem_of_mem_lines (List.mem_of_mem_take hl),
    List.length_take]
  exact Nat.min_eq_left h

theorem getLast?_wholeLines (text : List Char) (number : Nat) :
    ∀ c ∈ (wholeLines text number).getLast?, c = '\n' := by
  intro c hc
  rw [wholeLines] at hc
  rcases List.eq_nil_or_concat ((lines text).take number) with hnil | ⟨ls, l, hconcat⟩
  · rw [hnil] at hc
    cases hc
  · rw [hconcat, List.concat_eq_append, List.flatMap_append, List.flatMap_singleton,
      ← List.append_assoc, List.getLast?_concat, Option.mem_def, Option.some.injEq] at hc
    exact hc.symm

/-- Pieces put together with a separator, taken apart at one of them. -/
theorem intercalate_eq_append {pieces : List (List Char)} {piece : List Char} {k : Nat} {c : Char}
    (h : pieces[k]? = some piece) :
    ∃ rest, [c].intercalate pieces = (pieces.take k).flatMap (· ++ [c]) ++ (piece ++ rest) ∧
      ∀ d ∈ rest.head?, d = c := by
  induction pieces generalizing k with
  | nil => cases h
  | cons first others ih =>
      cases others with
      | nil =>
          obtain ⟨rfl, rfl⟩ : k = 0 ∧ first = piece := by
            cases k with
            | zero => exact ⟨rfl, Option.some.inj h⟩
            | succ k => cases h
          exact ⟨[], by simp [List.intercalate], by simp⟩
      | cons second others =>
          have hjoin : [c].intercalate (first :: second :: others) =
              first ++ c :: [c].intercalate (second :: others) := by
            simp [List.intercalate]
          rw [hjoin]
          cases k with
          | zero =>
              cases h
              exact ⟨c :: [c].intercalate (second :: others), rfl, by simp⟩
          | succ k =>
              obtain ⟨rest, hrest, hhead⟩ := ih h
              exact ⟨rest, by simp [hrest], hhead⟩

/-- A text around one of its lines. -/
theorem eq_wholeLines_append {text line : List Char} {number : Nat}
    (h : (lines text)[number]? = some line) :
    ∃ rest, text = wholeLines text number ++ (line ++ rest) ∧ ∀ c ∈ rest.head?, c = '\n' := by
  obtain ⟨rest, hrest, hhead⟩ := intercalate_eq_append (c := '\n') h
  rw [lines, List.intercalate_splitOn] at hrest
  exact ⟨rest, hrest, hhead⟩

/-! ## Where a column leads -/

theorem takeWhile_dropReturn (line : List Char) :
    (dropReturn line).takeWhile (· != '\r') = line.takeWhile (· != '\r') := by
  rw [dropReturn]
  split
  · next hlast =>
    obtain ⟨front, rfl⟩ := List.getLast?_eq_some_iff.mp hlast
    rw [List.dropLast_concat, List.takeWhile_append]
    split
    · next hall =>
      rw [List.takeWhile_cons_of_neg (by decide), List.append_nil]
      exact (List.takeWhile_prefix _).eq_of_length hall
    · rfl
  · rfl

/-- Up to the first line break character of a text is up to the first carriage return of its first
line. -/
theorem upToBreak_line_append {line rest : List Char} (hline : '\n' ∉ line)
    (hrest : ∀ c ∈ rest.head?, c = '\n') :
    upToBreak (line ++ rest) = line.takeWhile (· != '\r') := by
  induction line with
  | nil =>
      cases rest with
      | nil => rfl
      | cons c rest =>
          rw [hrest c rfl]
          rfl
  | cons c line ih =>
      obtain ⟨hc, hline⟩ := not_or.mp (mt List.mem_cons.mpr hline)
      have hbreak : (c != '\n') = true := by simpa using Ne.symm hc
      have htail := ih hline
      rw [upToBreak] at htail ⊢
      rw [List.cons_append, List.takeWhile_cons, List.takeWhile_cons, hbreak, Bool.true_and, htail]

/-- The index of a column in the first part of a line: the index in the line, no further than the
part. -/
theorem indexOf_eq_min (part rest : List Char) (column : Nat) :
    indexOf part column = min part.length (indexOf (part ++ rest) column) := by
  induction part generalizing column with
  | nil => rw [indexOf, List.length_nil, Nat.zero_min]
  | cons c part ih =>
      rw [List.cons_append, indexOf, indexOf]
      split
      · rw [ih, List.length_cons]
        omega
      · rw [Nat.min_zero]

/-- A stretch of a line is in front of its first carriage return exactly if it has none. -/
theorem le_length_takeWhile_iff {line : List Char} {i : Nat} (hi : i ≤ line.length) :
    i ≤ (line.takeWhile (· != '\r')).length ↔ '\r' ∉ line.take i := by
  induction line generalizing i with
  | nil => simpa using hi
  | cons c line ih =>
      cases i with
      | zero => simp
      | succ i =>
          rw [List.takeWhile_cons, List.take_succ_cons, List.mem_cons, not_or]
          by_cases hc : c = '\r'
          · simp [hc]
          · have hne : (c != '\r') = true := by simpa using hc
            rw [hne, if_pos rfl, List.length_cons, Nat.succ_le_succ_iff, ih (by simpa using hi)]
            exact ⟨fun h => ⟨Ne.symm hc, h⟩, fun h => h.2⟩

/-- The offset of a position in a line of the text. -/
theorem offsetOf_of_line {text line : List Char} {number : Nat}
    (h : (lines text)[number]? = some line) (column : Nat) :
    offsetOf text ⟨number, column⟩ =
      lineStart text number + indexOf (line.takeWhile (· != '\r')) column := by
  obtain ⟨hnumber, hline⟩ := List.getElem?_eq_some_iff.mp h
  obtain ⟨rest, htext, hhead⟩ := eq_wholeLines_append h
  have hskip := fromLine?_count_append (getLast?_wholeLines text number) (line ++ rest)
  rw [← htext, count_wholeLines (Nat.le_of_lt hnumber)] at hskip
  have hmem : line ∈ lines text := hline ▸ List.getElem_mem hnumber
  have hlength := congrArg List.length htext
  rw [List.length_append] at hlength
  simp only [offsetOf, hskip]
  rw [upToBreak_line_append (newline_not_mem_of_mem_lines hmem) hhead, lineStart]
  omega

/-- **The two ways to find a position.** In the text, a position of a line is where the line starts
and as many characters further as the column covers, up to the first carriage return of the line. In
the line itself, carriage returns are characters like others. The two agree exactly if the column
covers no carriage return. -/
theorem offsetOf_eq_lineStart_add (text : List Char) (number column : Nat)
    (hnumber : number < lineCount text) :
    ∃ line, line? text number = some line ∧
      offsetOf text ⟨number, column⟩ =
        lineStart text number +
          min (line.takeWhile (· != '\r')).length (indexOf line column) ∧
      (offsetOf text ⟨number, column⟩ = lineStart text number + indexOf line column ↔
        '\r' ∉ line.take (indexOf line column)) := by
  have hline : (lines text)[number]? = some (lines text)[number] := List.getElem?_eq_getElem hnumber
  let line := dropReturn (lines text)[number]
  have hoffset : offsetOf text ⟨number, column⟩ = lineStart text number +
      min (line.takeWhile (· != '\r')).length (indexOf line column) := by
    have hparts : line.takeWhile (· != '\r') ++ line.dropWhile (· != '\r') = line :=
      List.takeWhile_append_dropWhile
    have hmin := indexOf_eq_min (line.takeWhile (· != '\r')) (line.dropWhile (· != '\r')) column
    rw [hparts] at hmin
    rw [offsetOf_of_line hline, ← takeWhile_dropReturn, hmin]
  refine ⟨line, by rw [line?, hline, Option.map_some], hoffset, ?_⟩
  rw [hoffset, ← le_length_takeWhile_iff (isFloor_indexOf line column).within]
  omega

/-- A column behind a carriage return inside the second line, with a wide character before it. -/
theorem offsetOf_eq_lineStart_add_split :
    1 < lineCount "é\r\n😀\rb\r\n".toList ∧
      ∃ line, line? "é\r\n😀\rb\r\n".toList 1 = some line ∧
        offsetOf "é\r\n😀\rb\r\n".toList ⟨1, 4⟩ =
          lineStart "é\r\n😀\rb\r\n".toList 1 +
            min (line.takeWhile (· != '\r')).length (indexOf line 4) ∧
        (offsetOf "é\r\n😀\rb\r\n".toList ⟨1, 4⟩ =
          lineStart "é\r\n😀\rb\r\n".toList 1 + indexOf line 4 ↔ '\r' ∉ line.take (indexOf line 4)) :=
  ⟨by decide, offsetOf_eq_lineStart_add _ 1 4 (by decide)⟩

/-- Behind a carriage return inside a line the two do not agree: the position in the text falls
short. -/
theorem offsetOf_stops_at_inner_return :
    ¬ ∀ (text : List Char) (number column : Nat), number < lineCount text →
      ∀ line ∈ line? text number,
        offsetOf text ⟨number, column⟩ = lineStart text number + indexOf line column := by
  intro h
  have hshort := h "a\rb\nc".toList 0 3 (by decide) "a\rb".toList rfl
  exact absurd hshort (by decide)

end Shorthand.Text
