import Shorthand.Value.Basic

/-!
# Node — the tree an abbreviation denotes

An abbreviation denotes a forest. Its nodes are elements, with a name, attributes, a text and
children, and groups, which only hold their children together. Either can be repeated.
-/

namespace Shorthand.Markup

/-- An attribute; without a value it is only present. -/
structure Attribute where
  name : String
  value : Option Value
  deriving Repr, DecidableEq

/-- What an abbreviation says about one element, its children aside. -/
structure Element where
  name : Option Value := none
  attributes : List Attribute := []
  text : Option Value := none
  selfClosing : Bool := false
  deriving Repr, DecidableEq

/-- A node of the tree: an element or a group, an optional repeat count, and the children. -/
inductive Node where
  | element (e : Element) (times : Option Nat) (children : List Node)
  | group (times : Option Nat) (children : List Node)
  deriving Repr, Inhabited

/-- A sequence of nodes side by side. -/
abbrev Forest := List Node

namespace Attribute

/-- Gives the attribute called `name` a value, in place if it is there and else at the end. -/
def set (name : String) (value : Option Value) : List Attribute → List Attribute
  | [] => [{ name, value }]
  | a :: as => if a.name = name then { name, value } :: as else a :: set name value as

/-- Two class lists in one: a space between them, unless the first is empty. -/
def joinClasses (old new : Value) : Value :=
  if old.isBlank then old ++ new else old ++ .text " " :: new

/-- Adds to the `class` attribute, or makes one at the end. -/
def addClass (classes : Value) : List Attribute → List Attribute
  | [] => [{ name := "class", value := some classes }]
  | a :: as =>
    if a.name = "class" then { a with value := some (joinClasses (a.value.getD []) classes) } :: as
    else a :: addClass classes as

/-- Writes an attribute over the ones there are: a class adds to the classes, and one without a
value adds nothing; any other attribute is set. -/
def override (a : Attribute) (as : List Attribute) : List Attribute :=
  if a.name = "class" then
    match a.value with
    | some classes => addClass classes as
    | none => as
  else set a.name a.value as

/-- Writes an attribute of a bracketed set: as `override`, but an attribute that is there already
moves to the end. -/
def putLast (a : Attribute) (as : List Attribute) : List Attribute :=
  if a.name = "class" then override a as
  else as.filter (·.name != a.name) ++ [a]

end Attribute

namespace Element

/-- The name as text, before numbering. -/
def shownName (e : Element) : Option String := e.name.map Value.shown

/-- Whether the element is text alone: no name, no attributes. -/
def isText (e : Element) : Bool := e.name.isNone && e.attributes.isEmpty && e.text.isSome

def setAttribute (name : String) (value : Option Value) (e : Element) : Element :=
  { e with attributes := Attribute.set name value e.attributes }

def addClass (classes : Value) (e : Element) : Element :=
  { e with attributes := Attribute.addClass classes e.attributes }

/-- The attribute called `name`. -/
def attribute? (name : String) (e : Element) : Option Attribute :=
  e.attributes.find? (·.name == name)

/-- Adds text after the text there is. -/
def addText (text : Value) (e : Element) : Element :=
  { e with text := some (e.text.getD [] ++ text) }

/-- The element with all its numberings written out for one copy. -/
def numbered (copy : Copy) (e : Element) : Element :=
  { e with
    name := e.name.map (Value.numbered copy)
    attributes := e.attributes.map fun a => { a with value := a.value.map (Value.numbered copy) }
    text := e.text.map (Value.numbered copy) }

end Element

namespace Node

def children : Node → Forest
  | .element _ _ children => children
  | .group _ children => children

/-- The repeat count, if the node has one. -/
def times : Node → Option Nat
  | .element _ times _ => times
  | .group times _ => times

/-- The element of a node that is one. -/
def element? : Node → Option Element
  | .element e _ _ => some e
  | .group .. => none

/-- The node with another repeat count. -/
def withTimes (times : Option Nat) : Node → Node
  | .element e _ children => .element e times children
  | .group _ children => .group times children

/-- The node with more children after its own. -/
def addChildren (more : Forest) : Node → Node
  | .element e times children => .element e times (children ++ more)
  | .group times children => .group times (children ++ more)

end Node

/-- Adds children to the last element of a level, if the level has an element. Groups of the level
are passed over. -/
def Forest.addToLastElement? (more : Forest) : Forest → Option Forest
  | [] => none
  | node :: rest =>
    match addToLastElement? more rest with
    | some rest => some (node :: rest)
    | none =>
      match node with
      | .element .. => some (node.addChildren more :: rest)
      | .group .. => none

/-- Puts what was written after `>` below a node. Below a group it goes to the last element
directly in the group; a group without one takes it itself. -/
def Node.attach (more : Forest) : Node → Node
  | .element e times children => .element e times (children ++ more)
  | .group times children =>
    .group times ((Forest.addToLastElement? more children).getD (children ++ more))

end Shorthand.Markup
