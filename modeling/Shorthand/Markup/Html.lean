import Shorthand.Markup.Node
import Shorthand.Markup.Vocabulary
import Shorthand.Options

/-!
# Html — a forest as markup

The writer lays a forest out as HTML, as segments. Siblings stand on lines of their own if one of
them is a block, or if there are many; the children of an element are indented.

Tab-stops are numbered through the whole output: the ones written in an element keep their order
behind all numbers used before it, and every place left empty, an attribute without a value or an
element without content, gets a number of its own. The numbers have 64 bits.
-/

namespace Shorthand

/-- The output for a token, inside an element whose tab-stops are counted from `base`. Tab-stop zero
is the final one and stays zero. -/
def Token.segment (base : Nat) : Token → Segment
  | .text s => .literal s
  | .field index placeholder => .field (if index = 0 then 0 else addWord base index) placeholder
  | .number n => .literal (n.format .only)

/-- The output for a value. -/
def Value.segments (base : Nat) (v : Value) : List Segment := v.map (Token.segment base)

namespace Markup

/-- The largest tab-stop written in an element, or zero. -/
def Element.maxField (e : Element) : Nat :=
  let values := e.attributes.filterMap (·.value) ++ e.text.toList
  (values.flatMap Value.fieldIndices).foldl max 0

/-- Whether a node stands on one line with its siblings. -/
def Node.isInline : Node → Bool
  | .element e _ _ =>
    match e.shownName with
    | some name => Markup.isInline name
    | none => true
  | .group .. => false

namespace Html

/-- What the writer remembers: the last tab-stop used, and whether the output has any text yet. -/
structure Pen where
  lastField : Nat := 0
  started : Bool := false
  deriving Repr, DecidableEq

/-- A piece of output: its segments, the pen after it, and whether a node in it was put on a new
line. -/
structure Written where
  segments : List Segment
  pen : Pen
  broke : Bool := false
  deriving Repr, DecidableEq

/-- A new line at some level of nesting. -/
def newline (o : Options) (level : Nat) : Segment :=
  .literal (o.newline ++ String.join (List.replicate level o.indent))

/-- Whether the nodes of a level stand on lines of their own. -/
def breaks (o : Options) (force : Bool) (forest : Forest) : Bool :=
  force || forest.any (fun node => !node.isInline) || o.inlineBreak ≤ forest.length

/-- An attribute, inside an element whose tab-stops are counted from `base`, after `lastField`.
Returns the last tab-stop used as well. -/
def writeAttribute (base lastField : Nat) (a : Attribute) : List Segment × Nat :=
  let write (body : List Segment) (lastField : Nat) : List Segment × Nat :=
    (.literal (" " ++ a.name ++ "=\"") :: body ++ [.literal "\""], lastField)
  match a.value with
  | some value =>
    if value.isBlank then write [.field (addWord lastField 1) none] (addWord lastField 1)
    else write (value.segments base) lastField
  | none =>
    if isBooleanAttribute a.name then write [.literal a.name] lastField
    else write [.field (addWord lastField 1) none] (addWord lastField 1)

/-- The attributes of an element. -/
def writeAttributes (base lastField : Nat) : List Attribute → List Segment × Nat
  | [] => ([], lastField)
  | a :: rest =>
    let first := writeAttribute base lastField a
    let others := writeAttributes base first.2 rest
    (first.1 ++ others.1, others.2)

/-- The text of an element. -/
def writeText (base : Nat) (e : Element) : List Segment := Value.segments base (e.text.getD [])

/-- The opening tag of an element whose tab-stops are counted from `base`, and the last tab-stop
used in it. -/
def writeOpening (base : Nat) (name : String) (e : Element) : List Segment × Nat :=
  let attributes := writeAttributes base (addWord base e.maxField) e.attributes
  (.literal ("<" ++ name) :: attributes.1 ++ [.literal ">"], attributes.2)

/-- The closing tag of an element. -/
def writeClosing (name : String) : List Segment := [.literal ("</" ++ name ++ ">")]

/-- The level of nesting of an element's children. -/
def innerLevel (name : String) (level : Nat) : Nat := if isUnindented name then level else level + 1

/-- What stands between the tags of an element without text and children: a tab-stop. -/
def writeHole (o : Options) (name : String) (level inner index : Nat) : List Segment :=
  if isSpread name then [newline o inner, .field index none, newline o level]
  else [.field index none]

mutual

/-- Writes a node at some level of nesting. -/
def writeNode (o : Options) (level : Nat) (pen : Pen) : Node → Written
  | .group _ children =>
    let inner := writeLevel o level (breaks o false children) pen children
    { segments := inner.segments, pen := inner.pen }
  | .element e _ children =>
    let base := pen.lastField
    let text := writeText base e
    match e.shownName with
    | none =>
      let visible := text.any fun segment => !(segment.render o.field).isEmpty
      let pen := { lastField := addWord base e.maxField, started := pen.started || visible }
      let inner := writeLevel o level (breaks o false children) pen children
      { segments := text ++ inner.segments, pen := inner.pen }
    | some name =>
      let opening := writeOpening base name e
      let pen := { lastField := opening.2, started := true }
      let inside := innerLevel name level
      if isVoid name || e.selfClosing then { segments := opening.1, pen }
      else if !children.isEmpty then
        let inner := writeLevel o inside (breaks o (isSpread name) children) pen children
        let gap := if inner.broke then [newline o level] else []
        { segments := opening.1 ++ text ++ inner.segments ++ gap ++ writeClosing name
          pen := inner.pen }
      else if e.text.isSome then { segments := opening.1 ++ text ++ writeClosing name, pen }
      else
        let index := addWord pen.lastField 1
        { segments := opening.1 ++ writeHole o name level inside index ++ writeClosing name
          pen := { pen with lastField := index } }

/-- Writes the nodes of a level. If they stand on lines of their own, each starts a new line, except
where there is no text before it. -/
def writeLevel (o : Options) (level : Nat) (onLines : Bool) (pen : Pen) : Forest → Written
  | [] => { segments := [], pen }
  | node :: rest =>
    let broke := onLines && pen.started
    let gap := if broke then [newline o level] else []
    let first := writeNode o level pen node
    let others := writeLevel o level onLines first.pen rest
    { segments := gap ++ first.segments ++ others.segments
      pen := others.pen
      broke := broke || others.broke }

end

/-- The segments of a forest. -/
def segments (o : Options) (forest : Forest) : List Segment :=
  (writeLevel o 0 (breaks o false forest) {} forest).segments

end Html

/-- A forest as HTML. -/
def html (o : Options) (forest : Forest) : String :=
  Segment.renderAll o.field (Html.segments o forest)

end Markup

end Shorthand
