import Shorthand.Extraction.Basic

/-!
# Reach — where an extracted abbreviation lies

An extraction is a stretch of its line, and ends at the cursor or behind what the editor closed by
itself: at most one quote, then closing brackets.

* `scan_taken_suffix`: whatever the backward scan takes ends where the scan started.
* `Lies.of_ofChars?`: an extraction is the stretch of the line between its two ends.
* `autoClosed_lookAhead`: the look-ahead passes one quote at most, then closing brackets only.
-/

namespace Shorthand.Extraction

/-! ## The backward scan -/

/-- What a scan takes ends where the scan started. -/
theorem scan_taken_suffix (grammar : Grammar) (stack taken before : List Char) :
    (scan grammar stack taken before).taken <:+ before.reverse ++ taken := by
  fun_induction scan grammar stack taken before with
  | case1 stack taken => exact List.suffix_refl _
  | case2 stack taken c before _ ih => simpa using ih
  | case3 stack taken c before _ _ ih => simpa using ih
  | case4 taken c before => exact List.suffix_append _ _
  | case5 taken c before _ _ _ waiting ih => simpa using ih
  | case6 taken c before => exact List.suffix_append _ _
  | case7 stack taken c before _ _ _ _ ih => simpa using ih
  | case8 stack taken c before => exact List.suffix_append _ _
  | case9 stack taken c before _ _ _ _ _ ih => simpa using ih

/-- An extraction that is the stretch of a line between its two ends. -/
structure Lies (found : Extraction) (line : List Char) : Prop where
  start_lt_stop : found.start < found.stop
  stop_le : found.stop ≤ line.length
  text : found.abbreviation.toList = (line.take found.stop).drop found.start

/-- A stretch that ends at `stop` starts its own length before it. -/
theorem eq_drop_of_suffix_take {a line : List Char} {stop : Nat} (hstop : stop ≤ line.length)
    (h : a <:+ line.take stop) : a = (line.take stop).drop (stop - a.length) := by
  have hdrop := List.suffix_iff_eq_drop.mp h
  rwa [List.length_take, Nat.min_eq_left hstop] at hdrop

theorem Lies.of_ofChars? {grammar : Grammar} {line : List Char} {stop : Nat}
    {found : Extraction} (hstop : stop ≤ line.length)
    (h : ofChars? grammar line stop = some found) : found.Lies line ∧ found.stop = stop := by
  simp only [ofChars?] at h
  split at h
  · next hok =>
    cases h
    have hscan := scan_taken_suffix grammar [] [] (line.take stop).reverse
    rw [List.reverse_reverse, List.append_nil] at hscan
    have hsuffix := (List.dropWhile_suffix isLeadingOperator).trans hscan
    have hlen := hsuffix.length_le
    rw [List.length_take, Nat.min_eq_left hstop] at hlen
    rw [Bool.and_eq_true, Bool.not_eq_true', List.isEmpty_eq_false_iff] at hok
    have hpos := List.length_pos_iff.mpr hok.2
    refine ⟨⟨?_, hstop, ?_⟩, rfl⟩
    · show stop - _ < stop
      omega
    · rw [String.toList_ofList]
      exact eq_drop_of_suffix_take hstop hsuffix
  · cases h

/-! ## The look-ahead -/

/-- What an editor closes by itself behind the cursor: at most one quote, then closing brackets. -/
def AutoClosed (grammar : Grammar) (s : List Char) : Prop :=
  ∃ quote brackets, s = quote ++ brackets ∧ quote.length ≤ 1 ∧
    (∀ c ∈ quote, isQuote c = true) ∧ ∀ c ∈ brackets, isClosing grammar c = true

theorem autoClosed_brackets (grammar : Grammar) {brackets : List Char}
    (h : ∀ c ∈ brackets, isClosing grammar c = true) : AutoClosed grammar brackets :=
  ⟨[], brackets, rfl, Nat.zero_le _, by simp, h⟩

theorem autoClosed_lookAhead (grammar : Grammar) (after : List Char) :
    AutoClosed grammar (after.take (lookAhead grammar after)) := by
  have hclosing : ∀ (s : List Char), ∀ c ∈ s.take (s.takeWhile (isClosing grammar)).length,
      isClosing grammar c = true := by
    intro s c hc
    rw [List.prefix_iff_eq_take.mp (List.takeWhile_prefix (isClosing grammar)) |>.symm] at hc
    exact List.all_eq_true.mp List.all_takeWhile c hc
  cases after with
  | nil => exact autoClosed_brackets grammar (by simp)
  | cons c rest =>
      rw [lookAhead]
      split
      · next hquote =>
        refine ⟨[c], rest.take (rest.takeWhile (isClosing grammar)).length, ?_, by simp, ?_,
          hclosing rest⟩
        · rw [Nat.add_comm, List.take_succ_cons, List.singleton_append]
        · intro x hx
          rw [List.mem_singleton] at hx
          rwa [hx]
      · exact autoClosed_brackets grammar (hclosing (c :: rest))

theorem lookAhead_le_length (grammar : Grammar) (after : List Char) :
    lookAhead grammar after ≤ after.length := by
  have hrun : ∀ s : List Char, (s.takeWhile (isClosing grammar)).length ≤ s.length :=
    fun s => (List.takeWhile_prefix _).length_le
  cases after with
  | nil => exact Nat.le_refl _
  | cons c rest =>
      have hrest := hrun rest
      have hall := hrun (c :: rest)
      rw [lookAhead]
      split
      · rw [List.length_cons]
        omega
      · exact hall

/-- **An extraction with look-ahead** lies in its line, ends at the cursor or behind it, and only
what the editor closed by itself stands between the cursor and its end. -/
theorem lies_of_ofLine? {grammar : Grammar} {line : List Char} {cursor : Nat}
    {found : Extraction} (hcursor : cursor ≤ line.length)
    (h : ofLine? grammar true (String.ofList line) cursor = some found) :
    found.Lies line ∧ cursor ≤ found.stop ∧
      AutoClosed grammar ((line.take found.stop).drop cursor) := by
  rw [ofLine?, String.toList_ofList, Nat.min_eq_left hcursor] at h
  simp only [if_true] at h
  have hahead := lookAhead_le_length grammar (line.drop cursor)
  rw [List.length_drop] at hahead
  obtain ⟨hlies, hstop⟩ := Lies.of_ofChars? (by omega) h
  refine ⟨hlies, by omega, ?_⟩
  rw [hstop, List.drop_take, Nat.add_sub_cancel_left]
  exact autoClosed_lookAhead grammar (line.drop cursor)

end Shorthand.Extraction
