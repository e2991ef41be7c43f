import Shorthand.Editor.Document
import Shorthand.Expand
import Shorthand.Extraction.Basic

/-!
# Completion — offering an expansion at the cursor

A completion finds the abbreviation at the cursor, expands it, and offers to replace it by the
expansion. Columns are in UTF-16 code units, as editors count them.
-/

namespace Shorthand.Editor

open Text

/-- The languages whose abbreviations are markup. -/
def markupLanguages : List String :=
  ["html", "blade", "twig", "eruby", "erb", "razor", "javascript", "javascriptreact",
   "javascript.jsx", "typescript", "typescriptreact", "typescript.tsx", "liquid"]

/-- The grammar of a language: stylesheet, unless it is known for markup. -/
def grammarOf (language : String) : Grammar :=
  if markupLanguages.contains language then .markup else .stylesheet

/-- Expands an abbreviation for an editor, with tab-stops it can visit. -/
def expand (grammar : Grammar) (abbreviation : String) : Except Failure String :=
  Shorthand.expand grammar { field := FieldFormat.snippet } abbreviation

/-- An abbreviation in a line, with the columns it lies between. -/
structure Located where
  abbreviation : String
  start : Nat
  stop : Nat
  deriving Repr, DecidableEq

/-- Finds the abbreviation at a column of a line. -/
def locate? (grammar : Grammar) (line : String) (column : Nat) : Option Located :=
  let chars := line.toList
  (Extraction.ofLine? grammar true line (indexOf chars column)).map fun found =>
    { abbreviation := found.abbreviation
      start := columnOf chars found.start
      stop := columnOf chars found.stop }

/-- What a completion carries along, to come back when it is resolved. -/
structure CompletionData where
  range : Range
  textResult : String
  deriving Repr, DecidableEq

/-- A completion: what is replaced, by what, and how it is shown. -/
structure CompletionItem where
  label : String
  detail : String
  documentation : String
  range : Range
  newText : String
  data : CompletionData
  deriving Repr, DecidableEq

/-- Why there is no completion. -/
inductive CompletionError where
  | documentNotFound (uri : Uri)
  | lineOutOfRange (line count : Nat)
  | noAbbreviation
  | expansionFailed (e : Error)
  | emptyExpansion
  | internal (message : String)
  deriving Repr, DecidableEq

/-- What the user is told. -/
def CompletionError.message : CompletionError → String
  | .documentNotFound uri => "document not found: " ++ uri.text
  | .lineOutOfRange line count => s!"line {line} is out of range (document has {count} lines)"
  | .noAbbreviation => "no abbreviation at cursor"
  | .expansionFailed e => "cannot expand abbreviation: " ++ e.display
  | .emptyExpansion => "abbreviation expands to nothing"
  | .internal message => "internal error: " ++ message

/-- The completions for an abbreviation: one, that replaces it by its expansion. -/
def CompletionItem.build (found : Located) (expanded : String) (line : Nat) :
    List CompletionItem :=
  let range := { start := ⟨line, found.start⟩, stop := ⟨line, found.stop⟩ }
  [{ label := found.abbreviation
     detail := found.abbreviation
     documentation := expanded
     range
     newText := expanded
     data := { range, textResult := expanded } }]

/-- How a computation ends: with a result, or by breaking down with a message, if it is text. -/
inductive Attempt (α : Type) where
  | finished (result : Except CompletionError α)
  | brokeDown (message : Option String)

/-- The result of an attempt: a breakdown is an internal error. -/
def Attempt.result {α : Type} : Attempt α → Except CompletionError α
  | .finished result => result
  | .brokeDown message => .error (.internal (message.getD "panic in completion pipeline"))

/-- Looks for the completions at a position of a document, and may break down on the way. -/
def attemptCompletion (language text : String) (position : Position) :
    Attempt (List CompletionItem) :=
  let grammar := grammarOf language
  match line? text.toList position.line with
  | none => .finished (.error (.lineOutOfRange position.line (lineCount text.toList)))
  | some line =>
    match locate? grammar (String.ofList line) position.character with
    | none => .finished (.error .noAbbreviation)
    | some found =>
      match expand grammar found.abbreviation with
      | .error (.rejected e) => .finished (.error (.expansionFailed e))
      | .error (.brokeDown message) => .brokeDown (some message)
      | .ok expanded =>
        if expanded.isEmpty then .finished (.error .emptyExpansion)
        else .finished (.ok (CompletionItem.build found expanded position.line))

/-- The completions at a position of a document. -/
def complete (language text : String) (position : Position) :
    Except CompletionError (List CompletionItem) :=
  (attemptCompletion language text position).result

end Shorthand.Editor
