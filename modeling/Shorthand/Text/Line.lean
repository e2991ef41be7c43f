/-!
# Line — lines and positions of a document

A line ends at a newline and at nothing else. A position is a line and a column in UTF-16 code
units, of which a character beyond the basic plane takes two. The library counts characters; a
column inside a character is rounded down to its start.
-/

namespace Shorthand

/-- A place in a document, as editors give it: both numbers count from zero. -/
structure Position where
  line : Nat
  character : Nat
  deriving Repr, DecidableEq

/-- A stretch of a document. -/
structure Range where
  start : Position
  stop : Position
  deriving Repr, DecidableEq

namespace Text

/-! ## Columns -/

/-- How many UTF-16 code units a character takes. -/
def units (c : Char) : Nat := if c.toNat < 0x10000 then 1 else 2

theorem units_pos (c : Char) : 0 < units c := by
  unfold units
  split <;> decide

/-- The length of a line in UTF-16 code units. -/
def width : List Char → Nat
  | [] => 0
  | c :: rest => units c + width rest

@[simp] theorem width_nil : width [] = 0 := rfl

@[simp] theorem width_cons (c : Char) (rest : List Char) :
    width (c :: rest) = units c + width rest := rfl

/-- The column after the first `index` characters of a line, or after all of them. Columns are
summed up in 32 bits, so this is about lines of less than `2 ^ 32` code units, which all lines are
that a document of at most 500 megabytes can have. -/
def columnOf (line : List Char) (index : Nat) : Nat := width (line.take index)

/-- The number of characters of a line that lie before a column, whole. -/
def indexOf : List Char → (column : Nat) → Nat
  | [], _ => 0
  | c :: rest, column => if units c ≤ column then indexOf rest (column - units c) + 1 else 0

/-! ## Lines -/

/-- The lines of a text, of which there is at least one. -/
def lines (text : List Char) : List (List Char) := text.splitOn '\n'

def lineCount (text : List Char) : Nat := (lines text).length

/-- A line without a carriage return at its end. -/
def dropReturn (line : List Char) : List Char :=
  if line.getLast? = some '\r' then line.dropLast else line

/-- The line with this number, without a carriage return at its end. -/
def line? (text : List Char) (number : Nat) : Option (List Char) :=
  (lines text)[number]?.map dropReturn

/-- What follows the first `number` newlines of a text, if it has as many. -/
def fromLine? : (number : Nat) → List Char → Option (List Char)
  | 0, text => some text
  | _ + 1, [] => none
  | number + 1, c :: text =>
    if c = '\n' then fromLine? number text else fromLine? (number + 1) text

/-- The characters of a text before the first line break character. -/
def upToBreak (text : List Char) : List Char := text.takeWhile fun c => c != '\n' && c != '\r'

/-- How many characters of a text lie before a position. A column past the end of its line is the
end of the line, and a line past the last one is the end of the text. -/
def offsetOf (text : List Char) (position : Position) : Nat :=
  match fromLine? position.line text with
  | none => text.length
  | some tail => text.length - tail.length + indexOf (upToBreak tail) position.character

end Text

end Shorthand
