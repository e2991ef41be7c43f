import Mathlib.Control.Monad.Basic
import Shorthand.Editor.Completion
import Shorthand.Proofs.Extraction.Reach
import Shorthand.Proofs.Text.Columns

/-!
# Replacement — what accepting a completion does to the document

A completion is an edit: the editor cuts a stretch out of the line and puts the expansion in its
place. Here it is shown that the stretch is exactly the abbreviation the completion is labelled
with, in the line that was asked about, and that the text put in its place is the expansion of that
label (`complete_replaces_label`).
-/

namespace Shorthand.Editor

open Text Extraction

/-! ## What a completion replaces, and by what -/

/-- An item that replaces the characters from `start` to `stop` of a line, and is labelled with
them. -/
structure CompletionItem.Replaces (item : CompletionItem) (number : Nat) (line : List Char)
    (start stop : Nat) : Prop where
  startLine : item.range.start.line = number
  stopLine : item.range.stop.line = number
  nonempty : start < stop
  within : stop ≤ line.length
  startColumn : item.range.start.character = columnOf line start
  stopColumn : item.range.stop.character = columnOf line stop
  columns_lt : item.range.start.character < item.range.stop.character
  columns_le : item.range.stop.character ≤ width line
  label : item.label.toList = (line.take stop).drop start
  detail : item.detail = item.label

/-- An item that inserts the expansion of its label, wherever it shows or carries a text. -/
structure CompletionItem.InsertsExpansion (item : CompletionItem) (grammar : Grammar) : Prop where
  expansion : expand grammar item.label = .ok item.newText
  nonempty : item.newText ≠ ""
  documentation : item.documentation = item.newText
  textResult : item.data.textResult = item.newText
  range : item.data.range = item.range

/-! ## The stages of a completion -/

/-- What breaks down has no result. -/
theorem Attempt.eq_finished {α : Type} {attempt : Attempt α} {a : α}
    (h : attempt.result = .ok a) : attempt = .finished (.ok a) := by
  cases attempt with
  | finished result => exact congrArg Attempt.finished h
  | brokeDown message => cases h

/-- **Inversion of a completion that succeeds**: the line is there, an abbreviation is found in it,
its expansion is not empty, and the item is built from these. -/
theorem complete_eq_ok {language text : String} {position : Position}
    {items : List CompletionItem} (h : complete language text position = .ok items) :
    ∃ line found expanded,
      line? text.toList position.line = some line ∧
      locate? (grammarOf language) (String.ofList line) position.character = some found ∧
      expand (grammarOf language) found.abbreviation = .ok expanded ∧
      expanded ≠ "" ∧
      items = CompletionItem.build found expanded position.line := by
  replace h := Attempt.eq_finished h
  simp only [attemptCompletion] at h
  split at h
  · cases h
  · next line hline =>
    split at h
    · cases h
    · next found hfound =>
      split at h
      · cases h
      · cases h
      · next expanded hexpand =>
        split at h
        · cases h
        · next hempty =>
          cases h
          refine ⟨line, found, expanded, hline, hfound, hexpand, ?_, rfl⟩
          rintro rfl
          exact hempty rfl

/-- A located abbreviation is an extraction at the cursor's index, with its ends as columns. -/
theorem locate?_eq_some {grammar : Grammar} {line : List Char} {column : Nat} {found : Located}
    (h : locate? grammar (String.ofList line) column = some found) :
    ∃ e : Extraction,
      ofLine? grammar true (String.ofList line) (indexOf line column) = some e ∧
      found = ⟨e.abbreviation, columnOf line e.start, columnOf line e.stop⟩ := by
  simp only [locate?, String.toList_ofList] at h
  obtain ⟨e, he, hfound⟩ := Option.map_eq_some_iff.mp h
  exact ⟨e, he, hfound.symm⟩

/-- The item built from an extraction of the line replaces what was extracted. -/
theorem replaces_of_lies {e : Extraction} {line : List Char} {number : Nat}
    {item : CompletionItem} (hlies : e.Lies line) (hlabel : item.label = e.abbreviation)
    (hdetail : item.detail = e.abbreviation)
    (hrange : item.range = ⟨⟨number, columnOf line e.start⟩, ⟨number, columnOf line e.stop⟩⟩) :
    item.Replaces number line e.start e.stop where
  startLine := by rw [hrange]
  stopLine := by rw [hrange]
  nonempty := hlies.start_lt_stop
  within := hlies.stop_le
  startColumn := by rw [hrange]
  stopColumn := by rw [hrange]
  columns_lt := by rw [hrange]; exact columnOf_lt_columnOf hlies.start_lt_stop hlies.stop_le
  columns_le := by rw [hrange]; exact columnOf_le_width hlies.stop_le
  label := by rw [hlabel]; exact hlies.text
  detail := by rw [hdetail, hlabel]

/-- **A completion replaces its label by the label's expansion.** There is one item. It stands on
the line asked about and replaces the characters it is labelled with. It ends at the cursor or
behind it: the cursor is the column asked about, rounded down to a character of the line, and only
a quote and closing brackets may stand between it and the end of the item. -/
theorem complete_replaces_label (language text : String) (position : Position)
    (items : List CompletionItem) (h : complete language text position = .ok items) :
    ∃ item line start stop cursor,
      items = [item] ∧
      line? text.toList position.line = some line ∧
      item.Replaces position.line line start stop ∧
      item.InsertsExpansion (grammarOf language) ∧
      IsFloor line position.character cursor ∧ cursor ≤ stop ∧
      AutoClosed (grammarOf language) ((line.take stop).drop cursor) := by
  obtain ⟨line, found, expanded, hline, hfound, hexpand, hne, rfl⟩ := complete_eq_ok h
  obtain ⟨e, he, rfl⟩ := locate?_eq_some hfound
  have hfloor := isFloor_indexOf line position.character
  obtain ⟨hlies, hcursor, hclosed⟩ := lies_of_ofLine? hfloor.within he
  exact ⟨_, line, e.start, e.stop, indexOf line position.character, rfl, hline,
    replaces_of_lies hlies rfl rfl rfl, ⟨hexpand, hne, rfl, rfl, rfl⟩, hfloor, hcursor, hclosed⟩

/-- The item at the cursor of `😀 >p[t="a|"] y`: the operator in front stays, and the quote and the
bracket behind the cursor go. -/
def quotedItem : CompletionItem :=
  let range : Range := ⟨⟨1, 4⟩, ⟨1, 12⟩⟩
  let expanded := "<p t=\"a\">$\x7b1\x7d</p>"
  { label := "p[t=\"a\"]"
    detail := "p[t=\"a\"]"
    documentation := expanded
    range
    newText := expanded
    data := { range, textResult := expanded } }

theorem complete_replaces_label_quoted :
    complete "html" "x\r\n😀 >p[t=\"a\"] y\r" ⟨1, 10⟩ = .ok [quotedItem] ∧
    ∃ item line start stop cursor,
      [quotedItem] = [item] ∧
      line? "x\r\n😀 >p[t=\"a\"] y\r".toList 1 = some line ∧
      item.Replaces 1 line start stop ∧
      item.InsertsExpansion .markup ∧
      IsFloor line 10 cursor ∧ cursor ≤ stop ∧
      AutoClosed .markup ((line.take stop).drop cursor) := by
  have h : complete "html" "x\r\n😀 >p[t=\"a\"] y\r" ⟨1, 10⟩ = .ok [quotedItem] := by
    decide +kernel
  exact ⟨h, complete_replaces_label "html" _ ⟨1, 10⟩ _ h⟩

end Shorthand.Editor
