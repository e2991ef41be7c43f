import Shorthand.Markup.Html

/-!
# Writing — the cases of the HTML writer

What the writer makes of a node, case by case: a group, an element without a name, one without a
closing tag, and with a closing tag one with children, with a text only, or with nothing in it. Each
case is an equation, so that no other proof has to open the writer.
-/

namespace Shorthand.Markup.Html

variable (o : Options) (level : Nat) (pen : Pen) (times : Option Nat)

theorem writeNode_group (children : Forest) :
    writeNode o level pen (.group times children) =
      { segments := (writeLevel o level (breaks o false children) pen children).segments
        pen := (writeLevel o level (breaks o false children) pen children).pen } := by
  rw [writeNode]

/-- The pen after the text of an element without a name. -/
def penAfterText (e : Element) : Pen :=
  { lastField := addWord pen.lastField e.maxField
    started := pen.started ||
      (writeText pen.lastField e).any fun segment => !(segment.render o.field).isEmpty }

theorem writeNode_unnamed {e : Element} (hname : e.shownName = none) (children : Forest) :
    writeNode o level pen (.element e times children) =
      { segments := writeText pen.lastField e ++
          (writeLevel o level (breaks o false children) (penAfterText o pen e) children).segments
        pen := (writeLevel o level (breaks o false children) (penAfterText o pen e)
          children).pen } := by
  simp only [writeNode, hname, penAfterText]

/-- The pen after the opening tag of an element. -/
def penInside (name : String) (e : Element) : Pen :=
  { lastField := (writeOpening pen.lastField name e).2, started := true }

section Named

variable {e : Element} {name : String} (hname : e.shownName = some name)
include hname

theorem writeNode_unclosed (hopen : (isVoid name || e.selfClosing) = true) (children : Forest) :
    writeNode o level pen (.element e times children) =
      { segments := (writeOpening pen.lastField name e).1, pen := penInside pen name e } := by
  simp only [writeNode, hname, hopen, if_true, penInside]

variable (hclosed : (isVoid name || e.selfClosing) = false)
include hclosed

theorem writeNode_parent {children : Forest} (hchildren : children ≠ []) :
    writeNode o level pen (.element e times children) =
      let inner := writeLevel o (innerLevel name level) (breaks o (isSpread name) children)
        (penInside pen name e) children
      { segments := (writeOpening pen.lastField name e).1 ++ writeText pen.lastField e ++
          inner.segments ++ (if inner.broke then [newline o level] else []) ++ writeClosing name
        pen := inner.pen } := by
  have hempty : children.isEmpty = false := List.isEmpty_eq_false_iff.mpr hchildren
  simp only [writeNode, hname, hclosed, hempty, Bool.not_false, Bool.false_eq_true, if_false,
    if_true, penInside]
  rfl

theorem writeNode_text (htext : e.text.isSome = true) :
    writeNode o level pen (.element e times []) =
      { segments := (writeOpening pen.lastField name e).1 ++ writeText pen.lastField e ++
          writeClosing name
        pen := penInside pen name e } := by
  simp only [writeNode, hname, hclosed, htext, List.isEmpty_nil, Bool.not_true,
    Bool.false_eq_true, if_false, if_true, penInside]

theorem writeNode_empty (htext : e.text = none) :
    writeNode o level pen (.element e times []) =
      let index := addWord (penInside pen name e).lastField 1
      { segments := (writeOpening pen.lastField name e).1 ++
          writeHole o name level (innerLevel name level) index ++ writeClosing name
        pen := { penInside pen name e with lastField := index } } := by
  simp only [writeNode, hname, hclosed, htext, List.isEmpty_nil, Bool.not_true,
    Bool.false_eq_true, if_false, Option.isSome_none, penInside]

end Named

theorem writeLevel_cons (onLines : Bool) (node : Node) (rest : Forest) :
    writeLevel o level onLines pen (node :: rest) =
      let broke := onLines && pen.started
      let first := writeNode o level pen node
      let others := writeLevel o level onLines first.pen rest
      { segments := (if broke then [newline o level] else []) ++ first.segments ++ others.segments
        pen := others.pen
        broke := broke || others.broke } := by
  simp only [writeLevel]

end Shorthand.Markup.Html
