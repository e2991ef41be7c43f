import Shorthand.Markup.Html
import Shorthand.Markup.Snippet
import Shorthand.Stylesheet.Css

/-!
# Expand — from an abbreviation to its output

A markup abbreviation is read into a forest, its snippets are expanded, unnamed elements are named,
repetitions are written out, and the result is laid out as HTML. Reading, snippets and the layout
have their own modules; what is between them is here.

Naming: `ul>.item` means `ul>li.item`. An element without a name gets the one its nearest named
ancestor suggests. Text alone stays unnamed. Groups are looked through.

Unrolling turns a forest into one without groups and repeat counts: every repeated node becomes that
many copies, and every numbering becomes the number of the copy it is in, the innermost one if
repetitions nest. The elements made are counted, and too many of them are an error.
-/

namespace Shorthand

namespace Markup

/-! ## Unnamed elements -/

/-- Names an element inside `parent`, unless it has a name or is text alone. -/
def Element.nameImplicitly (parent : Option String) (e : Element) : Element :=
  if e.name.isNone && !e.isText then { e with name := some (Value.ofText (implicitName parent)) }
  else e

mutual

/-- Names the unnamed elements of a node inside `parent`. -/
def Node.nameImplicitly (parent : Option String) : Node → Node
  | .element e times children =>
    let named := e.nameImplicitly parent
    .element named times (Forest.nameWithin (named.shownName.or parent) children)
  | .group times children => .group times (Forest.nameWithin parent children)

/-- Names the unnamed elements of a forest inside `parent`. -/
def Forest.nameWithin (parent : Option String) : Forest → Forest
  | [] => []
  | node :: rest => node.nameImplicitly parent :: Forest.nameWithin parent rest

end

/-- Names the unnamed elements of a forest. -/
def nameImplicitly (forest : Forest) : Forest := Forest.nameWithin none forest

/-! ## Repetition -/

/-- The result of unrolling: the nodes, and how many elements were made so far in all. -/
structure Unrolled where
  nodes : Forest
  made : Nat
  deriving Repr

/-- Makes the copies of a repeated node that are still missing, `left` of `count`. -/
def makeCopies (count : Nat) (make : Copy → Nat → Except Error Unrolled) :
    (left made : Nat) → Except Error Unrolled
  | 0, made => .ok { nodes := [], made }
  | left + 1, made => do
    let first ← make { index := count - (left + 1), count } made
    let rest ← makeCopies count make left first.made
    return { nodes := first.nodes ++ rest.nodes, made := rest.made }

mutual

/-- Makes one copy of a node, after `made` elements. -/
def Node.unroll (limits : Limits) (copy : Copy) (made : Nat) : Node → Except Error Unrolled
  | .element e _ children =>
    if made < limits.elements then do
      let inner ← Forest.unrollFrom limits copy (made + 1) children
      return { nodes := [.element (e.numbered copy) none inner.nodes], made := inner.made }
    else .error { cause := .tooManyElements limits.elements }
  | .group _ children => Forest.unrollFrom limits copy made children

/-- Unrolls a forest inside the copy `copy` of a repeated node, after `made` elements. -/
def Forest.unrollFrom (limits : Limits) (copy : Copy) (made : Nat) :
    Forest → Except Error Unrolled
  | [] => .ok { nodes := [], made }
  | node :: rest => do
    let first ← match node.times with
      | some count => makeCopies count (fun copy made => node.unroll limits copy made) count made
      | none => node.unroll limits copy made
    let others ← Forest.unrollFrom limits copy first.made rest
    return { nodes := first.nodes ++ others.nodes, made := others.made }

end

/-- Unrolls a forest. -/
def unroll (limits : Limits) (forest : Forest) : Except Error Forest := do
  let unrolled ← Forest.unrollFrom limits .only 0 forest
  return unrolled.nodes

/-! ## Whole abbreviations -/

/-- The finished forest of an abbreviation: elements only, named or text, without repetition. -/
def parse (limits : Limits) (abbreviation : String) : Except Failure Forest := do
  let forest ← (read limits abbreviation).mapError .rejected
  let forest ← expandSnippets limits forest
  (unroll limits (nameImplicitly forest)).mapError .rejected

/-- An abbreviation as HTML. -/
def expand (o : Options) (abbreviation : String) : Except Failure String := do
  let forest ← parse o.limits abbreviation
  return html o forest

end Markup

/-- Expands an abbreviation of either grammar. -/
def expand (grammar : Grammar) (o : Options) (abbreviation : String) : Except Failure String :=
  match grammar with
  | .markup => Markup.expand o abbreviation
  | .stylesheet => (Stylesheet.expand o abbreviation).mapError .rejected

end Shorthand
