import Shorthand.Markup.Node

/-!
# Place — where in the tree the next node goes

While an abbreviation is read, one level of the tree is being filled, and the levels around it wait.
A `Place` is that level together with the way from it up to the top: through groups that are still
open, and through nodes whose children are being read.
-/

namespace Shorthand.Markup

/-- An unfinished level and the levels around it, each with the nodes it has so far. -/
inductive Place where
  /-- The top level. -/
  | top (nodes : Forest)
  /-- Inside an open group; `opened` is the input from its `(` on. -/
  | group (outer : Place) (opened : List Char) (nodes : Forest)
  /-- Among the children of `parent`, which itself belongs to `outer`. -/
  | under (outer : Place) (parent : Node) (nodes : Forest)
  deriving Repr

/-- A group that was open around a finished level. -/
structure Enclosing where
  outer : Place
  opened : List Char
  deriving Repr

namespace Place

/-- How many levels are open. -/
def depth : Place → Nat
  | .top _ => 1
  | .group outer _ _ => outer.depth + 1
  | .under outer _ _ => outer.depth + 1

/-- Adds a node at the end of the level. -/
def push (node : Node) : Place → Place
  | .top nodes => .top (nodes ++ [node])
  | .group outer opened nodes => .group outer opened (nodes ++ [node])
  | .under outer parent nodes => .under outer parent (nodes ++ [node])

/-- Goes up `k` levels, attaching each level that is left to its parent. The top and an open group
are as far up as one can go. -/
def climb : Nat → Place → Place
  | k + 1, .under outer parent nodes => climb k (outer.push (parent.attach nodes))
  | _, place => place

/-- Finishes the level and all levels up to the top or the innermost open group, after adding `more`
to the level. Returns the nodes of that outermost level, and the group it is in. -/
def finish : Place → Forest → Forest × Option Enclosing
  | .top nodes, more => (nodes ++ more, none)
  | .group outer opened nodes, more => (nodes ++ more, some { outer, opened })
  | .under outer parent nodes, more => finish outer [parent.attach (nodes ++ more)]

end Place

end Shorthand.Markup
