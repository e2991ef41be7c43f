import Shorthand.Markup.Reader
import Shorthand.Proofs.Value.Printing

/-!
# Printing forests

A forest as an abbreviation. Each attribute stands in a set of its own with its value in quotes, and
every level is written out; no shorthand of the language (`#id`, `.class`, snippets) is used.

The one thing a printer has to know about the reader is how far it went down: after a node with
children the reader is still among the last of them, so a sibling needs as many carets as levels are
open there (`Node.openLevels`), and a `+` only where none is.

`Forest.Canonical` says which forests can be printed at all: those that are written with names,
counts and values that the reader can give.
-/

namespace Shorthand

open Text

/-! ## The printer -/

namespace Markup

/-- The value of an attribute in quotes, behind its `=`. -/
def printAssigned : Option Value → List Char
  | none => []
  | some v => '=' :: '"' :: (v.print ++ ['"'])

/-- An attribute, as a set with no other attribute in it. -/
def Attribute.print (a : Attribute) : List Char :=
  '[' :: (a.name.toList ++ printAssigned a.value ++ [']'])

/-- A text in its braces. -/
def printText : Option Value → List Char
  | none => []
  | some v => '{' :: (v.print ++ ['}'])

/-- What an element is written with behind its name: attributes, text and the closing slash. -/
def Element.printModifiers (e : Element) : List Char :=
  e.attributes.flatMap Attribute.print ++ (printText e.text ++ if e.selfClosing then ['/'] else [])

/-- An element without its children. -/
def Element.print (e : Element) : List Char := (e.shownName.getD "").toList ++ e.printModifiers

/-- The repeat count of a node, behind its `*`. -/
def printTimes : Option Nat → List Char
  | none => []
  | some n => '*' :: Nat.toDigits 10 n

mutual

/-- How many levels are open below the level of a node when the node has been written. A group
closes its own. -/
def Node.openLevels : Node → Nat
  | .element _ _ children => if children.isEmpty then 0 else Forest.openLevels children + 1
  | .group _ _ => 0

/-- How many levels are open below a level when the level has been written: those of its last
node. -/
def Forest.openLevels : Forest → Nat
  | [] => 0
  | [node] => node.openLevels
  | _ :: next :: rest => Forest.openLevels (next :: rest)

end

/-- What stands between a node and its next sibling. -/
def Node.separator (node : Node) : List Char :=
  if node.openLevels = 0 then ['+'] else List.replicate node.openLevels '^'

mutual

/-- A node with all that is below it. -/
def Node.print : Node → List Char
  | .element e times children =>
    e.print ++ (printTimes times ++ if children.isEmpty then [] else '>' :: Forest.print children)
  | .group times children => '(' :: (Forest.print children ++ ')' :: printTimes times)

/-- The nodes of a level, side by side. -/
def Forest.print : Forest → List Char
  | [] => []
  | [node] => node.print
  | node :: next :: rest => node.print ++ (node.separator ++ Forest.print (next :: rest))

end

mutual

/-- How many levels a node has below its own. -/
def Node.height : Node → Nat
  | .element _ _ children => Forest.height children
  | .group _ children => Forest.height children

/-- How many levels a forest has. -/
def Forest.height : Forest → Nat
  | [] => 0
  | node :: rest => max (node.height + 1) (Forest.height rest)

end

end Markup

/-! ## What can be printed -/

/-- A token that can stand between quotes: a placeholder is written as it is, so it must not hold a
quote or a backslash. -/
def Token.Quotable : Token → Prop
  | .field _ placeholder => ∀ p ∈ placeholder, '\\' ∉ p.toList ∧ '"' ∉ p.toList
  | _ => True

instance : DecidablePred Token.Quotable
  | .text _ => isTrue trivial
  | .field _ placeholder =>
    inferInstanceAs (Decidable (∀ p ∈ placeholder, '\\' ∉ p.toList ∧ '"' ∉ p.toList))
  | .number _ => isTrue trivial

/-- A canonical value that can stand between quotes. -/
def Value.Quotable (v : Value) : Prop := v.Canonical ∧ ∀ t ∈ v, t.Quotable

instance (v : Value) : Decidable v.Quotable := inferInstanceAs (Decidable (_ ∧ _))

namespace Markup

/-- A name without numberings: one text of name characters. -/
def IsPlainName : Value → Prop
  | [.text s] => s ≠ "" ∧ s.toList.all isNameChar = true
  | _ => False

instance : DecidablePred IsPlainName
  | [.text s] => inferInstanceAs (Decidable (s ≠ "" ∧ s.toList.all isNameChar = true))
  | [] => isFalse id
  | [.field _ _] => isFalse id
  | [.number _] => isFalse id
  | _ :: _ :: _ => isFalse (by simp [IsPlainName])

/-- An attribute that can be written: its name is one word, and a class has a value. -/
structure Attribute.Canonical (a : Attribute) : Prop where
  name_ne : a.name ≠ ""
  name_word : a.name.toList.any isBlank = false
  name_plain : '=' ∉ a.name.toList ∧ ']' ∉ a.name.toList ∧ '"' ∉ a.name.toList ∧
    '\'' ∉ a.name.toList
  assigned : a.name = "class" → a.value ≠ none
  value : ∀ v ∈ a.value, v.Quotable

instance (a : Attribute) : Decidable a.Canonical :=
  decidable_of_iff (_ ∧ _ ∧ _ ∧ _ ∧ _)
    ⟨fun h => ⟨h.1, h.2.1, h.2.2.1, h.2.2.2.1, h.2.2.2.2⟩, fun h => ⟨h.1, h.2, h.3, h.4, h.5⟩⟩

/-- An element that can be written: all its parts can be, and there is at least one. -/
structure Element.Canonical (e : Element) : Prop where
  name : ∀ v ∈ e.name, IsPlainName v
  attributes : ∀ a ∈ e.attributes, a.Canonical
  distinct : (e.attributes.map Attribute.name).Nodup
  text : ∀ v ∈ e.text, v.Quotable
  present : e ≠ {}

instance (e : Element) : Decidable e.Canonical :=
  decidable_of_iff (_ ∧ _ ∧ _ ∧ _ ∧ _)
    ⟨fun h => ⟨h.1, h.2.1, h.2.2.1, h.2.2.2.1, h.2.2.2.2⟩, fun h => ⟨h.1, h.2, h.3, h.4, h.5⟩⟩

/-- A repeat count that the limits admit. -/
def RepeatFits (limits : Limits) (times : Option Nat) : Prop :=
  ∀ n ∈ times, 1 ≤ n ∧ n ≤ limits.repeatCount ∧ n ≤ wordMax

instance (limits : Limits) (times : Option Nat) : Decidable (RepeatFits limits times) :=
  inferInstanceAs (Decidable (∀ n ∈ times, _))

mutual

/-- A node that can be written under the limits. -/
def Node.Canonical (limits : Limits) : Node → Prop
  | .element e times children =>
    e.Canonical ∧ RepeatFits limits times ∧ Forest.Canonical limits children
  | .group times children =>
    children ≠ [] ∧ RepeatFits limits times ∧ Forest.Canonical limits children

/-- A forest of nodes that can be written under the limits. -/
def Forest.Canonical (limits : Limits) : Forest → Prop
  | [] => True
  | node :: rest => node.Canonical limits ∧ Forest.Canonical limits rest

end

mutual

instance Node.decidableCanonical (limits : Limits) : DecidablePred (Node.Canonical limits)
  | .element _ _ children =>
    @instDecidableAnd _ _ _
      (@instDecidableAnd _ _ _ (Forest.decidableCanonical limits children))
  | .group _ children =>
    @instDecidableAnd _ _ _
      (@instDecidableAnd _ _ _ (Forest.decidableCanonical limits children))

instance Forest.decidableCanonical (limits : Limits) : DecidablePred (Forest.Canonical limits)
  | [] => isTrue trivial
  | node :: rest =>
    @instDecidableAnd _ _ (Node.decidableCanonical limits node)
      (Forest.decidableCanonical limits rest)

end

end Markup

end Shorthand
