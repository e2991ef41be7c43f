import Shorthand.Text.Span

/-!
# Value — names, attribute values and texts

What an abbreviation writes as a name, an attribute value or a text is not a plain string: it can
hold tab-stops (`${1:name}`) and numberings (`$$@3`) that stand for the number of a repeated copy.
A `Value` is the sequence of those pieces.
-/

namespace Shorthand

/-- Which copy of a repeated node is being written: `index` counts from zero. -/
structure Copy where
  index : Nat
  count : Nat
  deriving Repr, DecidableEq

/-- The only copy of a node that is not repeated. -/
def Copy.only : Copy := { index := 0, count := 1 }

/-- A run of dollars, with its optional `@` modifier: the number of the current copy. -/
structure Numbering where
  /-- How many digits to write at least. -/
  size : Nat
  /-- Count down instead of up. -/
  reverse : Bool := false
  /-- The smallest number written. -/
  base : Nat := 1
  deriving Repr, DecidableEq

namespace Numbering

/-- How far from `base` the number of a copy is: up from it, or down to it when counting in
reverse. -/
def offset (n : Numbering) (copy : Copy) : Nat :=
  if n.reverse then copy.count - 1 - min copy.index (copy.count - 1) else copy.index

/-- The number a copy gets, in 64 bits. -/
def number (n : Numbering) (copy : Copy) : Nat := addWord n.base (n.offset copy)

/-- The number of a copy in decimal, filled up with zeros to `size` digits. -/
def format (n : Numbering) (copy : Copy) : String :=
  String.ofList ((Nat.toDigits 10 (n.number copy)).leftpad n.size '0')

end Numbering

/-- A piece of a value. -/
inductive Token where
  | text (s : String)
  | field (index : Nat) (placeholder : Option String)
  | number (n : Numbering)
  deriving Repr, DecidableEq

/-- A name, an attribute value or a text, piece by piece. -/
abbrev Value := List Token

/-- The text a token stands for before it is numbered: a tab-stop shows its placeholder, and a
numbering its dollars. -/
def Token.shown : Token → String
  | .text s => s
  | .field _ placeholder => placeholder.getD ""
  | .number n => String.ofList (List.replicate n.size '$')

namespace Value

/-- A value that is plain text. -/
def ofText (s : String) : Value := [.text s]

/-- The text a value stands for before it is numbered. -/
def shown (v : Value) : String := String.join (v.map Token.shown)

/-- Whether a value is empty: no tokens but empty texts. -/
def isBlank (v : Value) : Bool :=
  v.all fun
    | .text s => s.isEmpty
    | _ => false

/-- Puts text in front of a value, as one piece with a text that is already there. -/
def consText (s : String) : Value → Value
  | .text t :: v => .text (s ++ t) :: v
  | v => .text s :: v

/-- Puts one character in front of a value. -/
def consChar (c : Char) (v : Value) : Value := consText (String.singleton c) v

/-- A value with its numberings written out for one copy and neighbouring texts joined. -/
def numbered (copy : Copy) : Value → Value
  | [] => []
  | .text s :: v => consText s (numbered copy v)
  | .number n :: v => consText (n.format copy) (numbered copy v)
  | .field index placeholder :: v => .field index placeholder :: numbered copy v

/-- The indices of the tab-stops of a value, in order. -/
def fieldIndices (v : Value) : List Nat :=
  v.filterMap fun
    | .field index _ => some index
    | _ => none

end Value

end Shorthand
