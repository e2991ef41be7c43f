import Shorthand.Text.Span

/-!
# Options — how an expansion is laid out and bounded

An abbreviation is a few characters that can describe a very large output, so every expansion runs
under bounds. A bound only rejects: below it, it changes nothing about the result.

An expansion is a sequence of segments: literal text, and fields, the places the cursor visits in
turn. How a field is written depends on who reads the output, so it is left to a `FieldFormat`.
-/

namespace Shorthand

/-! ## Bounds -/

/-- The bounds of one expansion. -/
structure Limits where
  /-- Characters in the abbreviation. -/
  abbreviationLength : Nat := 4096
  /-- The count after a single `*`. -/
  repeatCount : Nat := 1000
  /-- Elements of the tree after every repetition is written out. -/
  elements : Nat := 10000
  /-- Levels open at once while reading: children and groups. -/
  depth : Nat := 100
  /-- Snippets expanded inside one another. -/
  snippetDepth : Nat := 8
  deriving Repr, DecidableEq

/-- Bounds that no abbreviation of practical size reaches. -/
def Limits.unlimited : Limits :=
  { abbreviationLength := wordMax
    repeatCount := wordMax
    elements := wordMax
    depth := wordMax
    snippetDepth := wordMax }

/-! ## Output with tab-stops -/

/-- How a field is written, given its index and its placeholder. -/
abbrev FieldFormat := Nat → Option String → String

namespace FieldFormat

/-- Fields as plain text: the placeholder, or nothing. -/
def plain : FieldFormat := fun _ placeholder => placeholder.getD ""

/-- Fields as tab-stops of an editor snippet: `${1}` or `${1:placeholder}`. -/
def snippet : FieldFormat := fun index placeholder =>
  let label := match placeholder with
    | some text => if text.isEmpty then "" else ":" ++ text
    | none => ""
  "$\x7b" ++ toString index ++ label ++ "\x7d"

end FieldFormat

/-- A piece of output. -/
inductive Segment where
  | literal (s : String)
  | field (index : Nat) (placeholder : Option String)
  deriving Repr, DecidableEq

namespace Segment

/-- The text of a segment. -/
def render (format : FieldFormat) : Segment → String
  | .literal s => s
  | .field index placeholder => format index placeholder

/-- The text of a sequence of segments. -/
def renderAll (format : FieldFormat) (segments : List Segment) : String :=
  String.join (segments.map (render format))

@[simp] theorem renderAll_nil (format : FieldFormat) : renderAll format [] = "" := rfl

@[simp] theorem renderAll_cons (format : FieldFormat) (first : Segment) (rest : List Segment) :
    renderAll format (first :: rest) = render format first ++ renderAll format rest := by
  rw [renderAll, List.map_cons, String.join_cons, renderAll]

@[simp] theorem renderAll_append (format : FieldFormat) (first second : List Segment) :
    renderAll format (first ++ second) = renderAll format first ++ renderAll format second := by
  rw [renderAll, List.map_append, String.join_append, renderAll, renderAll]

/-- The index of a segment that is a field. -/
def index? : Segment → Option Nat
  | .literal _ => none
  | .field index _ => some index

end Segment

/-! ## Options -/

/-- The two kinds of abbreviation. -/
inductive Grammar where
  | markup
  | stylesheet
  deriving Repr, DecidableEq

/-- The layout and the bounds of an expansion. -/
structure Options where
  /-- How tab-stops are written. -/
  field : FieldFormat := FieldFormat.plain
  /-- What one level of nesting is indented by. -/
  indent : String := "\t"
  /-- What separates lines. -/
  newline : String := "\n"
  /-- From how many inline siblings on each stands on a line of its own. -/
  inlineBreak : Nat := 3
  limits : Limits := {}

end Shorthand
