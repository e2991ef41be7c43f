import Shorthand.Proofs.Text.Columns
import Shorthand.Text.Line

/-!
# Positions — offsets of a text as an editor reports them

An editor that knows an offset reports how many newlines come before it and how wide the text since
the last of them is. Finding the offset again is where a library can go wrong: it has to skip as
many lines, and it stops at the end of the line it arrives in, which is before a carriage return.

So the offset is found again (`offsetOf_positionOf`) if carriage returns only end lines and the
offset is not between one and its newline.
-/

namespace Shorthand.Text

/-- The part of a text behind its last newline. -/
def lastLine (text : List Char) : List Char := (text.reverse.takeWhile (· != '\n')).reverse

/-- The part of a text up to its last newline, which it includes. -/
def linesBefore (text : List Char) : List Char := (text.reverse.dropWhile (· != '\n')).reverse

/-- The position of an offset: the newlines before it, and the UTF-16 code units since the last of
them. -/
def positionOf (text : List Char) (offset : Nat) : Position :=
  { line := (text.take offset).count '\n'
    character := width (lastLine (text.take offset)) }

/-- Carriage returns stand only where a newline follows. -/
def ReturnsEndLines (text : List Char) : Prop :=
  ∀ i < text.length, text[i]? = some '\r' → text[i + 1]? = some '\n'

/-- An offset between a carriage return and its newline. -/
def SplitsBreak (text : List Char) (offset : Nat) : Prop :=
  0 < offset ∧ text[offset - 1]? = some '\r' ∧ text[offset]? = some '\n'

instance (text : List Char) : Decidable (ReturnsEndLines text) :=
  inferInstanceAs (Decidable (∀ i < text.length, _ → _))

instance (text : List Char) (offset : Nat) : Decidable (SplitsBreak text offset) :=
  inferInstanceAs (Decidable (_ ∧ _ ∧ _))

/-! ## A text up to its last newline, and the rest -/

theorem linesBefore_append_lastLine (text : List Char) :
    linesBefore text ++ lastLine text = text := by
  rw [linesBefore, lastLine, ← List.reverse_append, List.takeWhile_append_dropWhile,
    List.reverse_reverse]

theorem not_mem_lastLine (text : List Char) : '\n' ∉ lastLine text := by
  intro h
  rw [lastLine, List.mem_reverse] at h
  have := List.all_eq_true.mp List.all_takeWhile '\n' h
  simp at this

/-- The first part is empty or ends with a newline. -/
theorem getLast?_linesBefore (text : List Char) :
    ∀ c ∈ (linesBefore text).getLast?, c = '\n' := by
  intro c hc
  rw [linesBefore, List.getLast?_reverse, Option.mem_def] at hc
  have := List.head?_dropWhile_not (· != '\n') text.reverse
  rw [hc] at this
  simpa using this

theorem count_linesBefore (text : List Char) :
    (linesBefore text).count '\n' = text.count '\n' := by
  conv => rhs; rw [← linesBefore_append_lastLine text]
  rw [List.count_append, List.count_eq_zero.mpr (not_mem_lastLine text), Nat.add_zero]

/-! ## Finding the line -/

/-- Skipping as many newlines as a run of whole lines has skips the run. -/
theorem fromLine?_count_append {whole : List Char} (h : ∀ c ∈ whole.getLast?, c = '\n')
    (rest : List Char) : fromLine? (whole.count '\n') (whole ++ rest) = some rest := by
  induction whole with
  | nil => rw [List.count_nil, List.nil_append, fromLine?]
  | cons c whole ih =>
      have htail : ∀ d ∈ whole.getLast?, d = '\n' := by
        intro d hd
        apply h
        rw [List.getLast?_cons, Option.mem_def.mp hd]
        rfl
      by_cases hc : c = '\n'
      · subst hc
        rw [List.count_cons_self, List.cons_append, fromLine?, if_pos rfl]
        exact ih htail
      · -- another line follows, so there is a newline still to be counted
        have hne : whole ≠ [] := by
          rintro rfl
          exact hc (h c rfl)
        have hmem : '\n' ∈ whole := by
          have hlast := htail _ (List.getLast?_eq_some_getLast hne)
          rw [← hlast]
          exact List.getLast_mem hne
        obtain ⟨k, hk⟩ : ∃ k, whole.count '\n' = k + 1 :=
          ⟨_, (Nat.succ_pred (Nat.pos_iff_ne_zero.mp (List.count_pos_iff.mpr hmem))).symm⟩
        rw [List.count_cons_of_ne hc, List.cons_append, hk, fromLine?, if_neg hc, ← hk]
        exact ih htail

/-! ## Finding the column -/

/-- The width of a text leads behind it, in whatever line it stands at the start of. -/
theorem indexOf_append_width (line rest : List Char) :
    indexOf (line ++ rest) (width line) = line.length := by
  induction line with
  | nil =>
      cases rest with
      | nil => rfl
      | cons c rest =>
          have := units_pos c
          rw [List.nil_append, width_nil, indexOf, if_neg (by omega), List.length_nil]
  | cons c line ih =>
      rw [List.cons_append, width_cons, indexOf, if_pos (Nat.le_add_right _ _),
        Nat.add_sub_cancel_left, ih, List.length_cons]

theorem upToBreak_append {line : List Char} (hnewline : '\n' ∉ line) (hreturn : '\r' ∉ line)
    (rest : List Char) : upToBreak (line ++ rest) = line ++ upToBreak rest := by
  rw [upToBreak, List.takeWhile_append_of_pos]
  · rfl
  · intro c hc
    have hn : c ≠ '\n' := fun h => hnewline (h ▸ hc)
    have hr : c ≠ '\r' := fun h => hreturn (h ▸ hc)
    simp [hn, hr]

/-- No carriage return stands between the last newline and an offset that splits no line break. -/
theorem not_return_mem_lastLine {text : List Char} {offset : Nat} (hoffset : offset ≤ text.length)
    (hreturns : ReturnsEndLines text) (hsplit : ¬ SplitsBreak text offset) :
    '\r' ∉ lastLine (text.take offset) := by
  intro hmem
  obtain ⟨k, hk, hget⟩ := List.getElem_of_mem hmem
  -- the index in the whole text of a carriage return in the last line
  have hlen := congrArg List.length (linesBefore_append_lastLine (text.take offset))
  rw [List.length_append, List.length_take, Nat.min_eq_left hoffset] at hlen
  let m := (linesBefore (text.take offset)).length + k
  have htake : ∀ j, (linesBefore (text.take offset)).length ≤ j → j < offset →
      text[j]? = (lastLine (text.take offset))[j - (linesBefore (text.take offset)).length]? := by
    intro j hj hjo
    rw [← List.getElem?_append_right hj, linesBefore_append_lastLine, List.getElem?_take,
      if_pos hjo]
  have hm : text[m]? = some '\r' := by
    rw [htake m (Nat.le_add_right _ _) (by omega), Nat.add_sub_cancel_left,
      List.getElem?_eq_getElem hk, hget]
  have hnext : text[m + 1]? = some '\n' := hreturns m (by omega) hm
  rcases Nat.lt_or_ge (m + 1) offset with hlt | hge
  · rw [htake (m + 1) (by omega) hlt] at hnext
    exact not_mem_lastLine _ (List.mem_of_getElem? hnext)
  · have hend : offset = m + 1 := by omega
    exact hsplit ⟨by omega, by rw [hend]; exact hm, by rw [hend]; exact hnext⟩

/-- **An offset is found again from its position**, if carriage returns only end lines and the
offset splits no line break. -/
theorem offsetOf_positionOf {text : List Char} {offset : Nat} (hoffset : offset ≤ text.length)
    (hreturns : ReturnsEndLines text) (hsplit : ¬ SplitsBreak text offset) :
    offsetOf text (positionOf text offset) = offset := by
  have hreturn := not_return_mem_lastLine hoffset hreturns hsplit
  have hnewline := not_mem_lastLine (text.take offset)
  have htext : text = linesBefore (text.take offset) ++
      (lastLine (text.take offset) ++ text.drop offset) := by
    rw [← List.append_assoc, linesBefore_append_lastLine, List.take_append_drop]
  have hline : fromLine? (positionOf text offset).line text =
      some (lastLine (text.take offset) ++ text.drop offset) := by
    have := fromLine?_count_append (getLast?_linesBefore (text.take offset))
      (lastLine (text.take offset) ++ text.drop offset)
    rwa [count_linesBefore, ← htext] at this
  have hlen := congrArg List.length (linesBefore_append_lastLine (text.take offset))
  rw [List.length_append, List.length_take, Nat.min_eq_left hoffset] at hlen
  have hall := congrArg List.length htext
  rw [List.length_append] at hall
  simp only [offsetOf, hline]
  rw [upToBreak_append hnewline hreturn, positionOf, indexOf_append_width]
  omega

end Shorthand.Text
