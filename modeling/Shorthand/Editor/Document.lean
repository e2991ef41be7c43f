import Shorthand.Text.Line

/-!
# Document — a text under edit

Documents are named by URIs. A character outside ASCII is written as the bytes of its UTF-8
encoding, each as a percent sign and two hexadecimal digits, so that one document has one name.

A document is replaced as a whole or changed in places. The ranges of a list of changes refer each
to the text that the changes before it have left.
-/

namespace Shorthand.Editor

/-- The name of a document. -/
structure Uri where
  text : String
  deriving Repr, DecidableEq

namespace Uri

/-- A hexadecimal digit, in upper case. -/
def hexDigit (n : Nat) : Char := (Nat.digitChar n).toUpper

/-- A byte as a percent sign and two digits. -/
def encodeByte (b : UInt8) : List Char :=
  ['%', hexDigit (b.toNat / 16), hexDigit (b.toNat % 16)]

/-- A character as it stands in a URI. -/
def encodeChar (c : Char) : List Char :=
  if c.toNat < 0x80 then [c] else (String.utf8EncodeChar c).flatMap encodeByte

/-- The URI that is written as `s`. -/
def ofString (s : String) : Uri := { text := String.ofList (s.toList.flatMap encodeChar) }

end Uri

open Text

/-- An open document. -/
structure Document where
  text : String
  language : String
  version : Int
  deriving Repr, DecidableEq

/-- A change: new text for a range, or for all of the document. -/
structure Change where
  range : Option Range := none
  text : String
  deriving Repr, DecidableEq

/-- A text after a change. A range that ends before it starts is empty. -/
def Change.apply (text : List Char) (change : Change) : List Char :=
  match change.range with
  | none => change.text.toList
  | some range =>
    let start := offsetOf text range.start
    let stop := max (offsetOf text range.stop) start
    text.take start ++ change.text.toList ++ text.drop stop

/-- A text after a list of changes. -/
def Change.applyAll (changes : List Change) (text : String) : String :=
  String.ofList (changes.foldl Change.apply text.toList)

/-- The size of a text, in bytes of its UTF-8 encoding. -/
def textSize (text : String) : Nat := text.utf8ByteSize

end Shorthand.Editor
