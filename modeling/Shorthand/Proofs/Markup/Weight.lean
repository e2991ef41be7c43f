import Shorthand.Proofs.Markup.NormalForm

/-!
# Weight — how many elements a forest unrolls to

The number of elements can be told from the forest: an element is one and what is below it, and
whatever is repeated counts as often as it is repeated (`Forest.weight`). Unrolling counts them as
it goes, through all copies and levels, and gives up at the first one too many.

`Forest.unrollFrom_eq` says that this amounts to one comparison in advance. It gives the result of
unrolling as well, without the counter: `Forest.written` writes each repeated node as often as it
says, and is what everything else about unrolled forests is shown of.
-/

namespace Shorthand.Markup

/-! ## Weight -/

mutual

/-- How many elements a node unrolls to. -/
def Node.weight : Node → Nat
  | .element _ times children => times.getD 1 * (1 + Forest.weight children)
  | .group times children => times.getD 1 * Forest.weight children

/-- How many elements a forest unrolls to. -/
def Forest.weight : Forest → Nat
  | [] => 0
  | node :: rest => node.weight + Forest.weight rest

end

theorem Forest.weight_append (xs ys : Forest) :
    Forest.weight (xs ++ ys) = Forest.weight xs + Forest.weight ys := by
  induction xs with
  | nil => rw [List.nil_append, Forest.weight, Nat.zero_add]
  | cons node xs ih => rw [List.cons_append, Forest.weight, Forest.weight, ih, Nat.add_assoc]

/-- How many elements one copy of a node unrolls to. -/
def Node.weightOnce : Node → Nat
  | .element _ _ children => 1 + Forest.weight children
  | .group _ children => Forest.weight children

theorem Node.weight_eq (node : Node) : node.weight = node.times.getD 1 * node.weightOnce := by
  cases node <;> rw [Node.weight, Node.weightOnce, Node.times]

/-! ## Unrolling without counting -/

/-- What all copies of a node give one after the other: as many as its repeat count says, or just
the one in the copy around it. -/
def eachCopy {α : Type} (times : Option Nat) (around : Copy) (f : Copy → List α) : List α :=
  match times with
  | some count => (List.range count).flatMap fun index => f { index, count }
  | none => f around

mutual

/-- A node written out once, as the copy `copy`. -/
def Node.written (copy : Copy) : Node → Forest
  | .element e _ children => [.element (e.numbered copy) none (Forest.written copy children)]
  | .group _ children => Forest.written copy children

/-- A forest written out inside the copy `copy` of a repeated node. -/
def Forest.written (copy : Copy) : Forest → Forest
  | [] => []
  | node :: rest =>
    eachCopy node.times copy (fun copy => node.written copy) ++ Forest.written copy rest

end

theorem Forest.written_append (copy : Copy) (xs ys : Forest) :
    Forest.written copy (xs ++ ys) = Forest.written copy xs ++ Forest.written copy ys := by
  induction xs with
  | nil => rw [List.nil_append, Forest.written, List.nil_append]
  | cons node xs ih =>
      rw [List.cons_append, Forest.written, Forest.written, ih, List.append_assoc]

theorem Forest.elements_eachCopy {f : Copy → Forest} {n : Nat}
    (h : ∀ copy, Forest.elements (f copy) = n) (times : Option Nat) (around : Copy) :
    Forest.elements (eachCopy times around f) = times.getD 1 * n := by
  cases times with
  | none => rw [eachCopy, h, Option.getD_none, Nat.one_mul]
  | some count =>
      have hsome : ∀ indices : List Nat, Forest.elements
          (indices.flatMap fun index => f { index, count }) = indices.length * n := by
        intro indices
        induction indices with
        | nil => rw [List.flatMap_nil, Forest.elements, List.length_nil, Nat.zero_mul]
        | cons index indices ih =>
            rw [List.flatMap_cons, Forest.elements_append, h, ih, List.length_cons, Nat.succ_mul,
              Nat.add_comm]
      rw [eachCopy, hsome, List.length_range, Option.getD_some]

mutual

theorem Node.elements_written : ∀ (node : Node) (copy : Copy),
    Forest.elements (node.written copy) = node.weightOnce
  | .element e times children, copy => by
      simp only [Node.written, Forest.elements, Node.elements, Node.weightOnce,
        Forest.elements_written children copy]
      omega
  | .group times children, copy => by
      rw [Node.written, Node.weightOnce, Forest.elements_written children copy]

/-- The weight of a forest is the number of elements written. -/
theorem Forest.elements_written : ∀ (forest : Forest) (copy : Copy),
    Forest.elements (Forest.written copy forest) = Forest.weight forest
  | [], copy => by rw [Forest.written, Forest.elements, Forest.weight]
  | node :: rest, copy => by
      rw [Forest.written, Forest.elements_append, Forest.elements_written rest copy,
        Forest.elements_eachCopy (Node.elements_written node), Forest.weight, Node.weight_eq]

end

/-! ## Unrolling and counting -/

/-- The outcome of unrolling to `nodes` that have the given weight, after `made` elements. -/
def counted (limits : Limits) (made weight : Nat) (nodes : Forest) : Except Error Unrolled :=
  if made + weight ≤ limits.elements then .ok { nodes, made := made + weight }
  else .error { cause := .tooManyElements limits.elements }

/-- Nothing more is no change, as long as there has been room so far. -/
theorem counted_nil {limits : Limits} {made : Nat} (h : made ≤ limits.elements) :
    counted limits made 0 [] = .ok { nodes := [], made } := by
  rw [counted, if_pos (by omega), Nat.add_zero]

/-- Unrolling one thing after the other fails where unrolling both would. -/
theorem counted_append {limits : Limits} {made weight more : Nat} {nodes others : Forest}
    {next : Nat → Except Error Unrolled}
    (hnext : ∀ made ≤ limits.elements, next made = counted limits made more others) :
    (do
      let first ← counted limits made weight nodes
      let second ← next first.made
      return { nodes := first.nodes ++ second.nodes, made := second.made }) =
      counted limits made (weight + more) (nodes ++ others) := by
  by_cases hfirst : made + weight ≤ limits.elements
  · by_cases hsecond : made + weight + more ≤ limits.elements
    · simp only [counted, if_pos hfirst, bind, Except.bind, hnext _ hfirst,
        if_pos (show made + (weight + more) ≤ limits.elements by omega), Nat.add_assoc]
      rfl
    · simp only [counted, if_pos hfirst, bind, Except.bind, hnext _ hfirst, if_neg hsecond,
        if_neg (show ¬made + (weight + more) ≤ limits.elements by omega)]
  · simp only [counted, if_neg hfirst, bind, Except.bind,
      if_neg (show ¬made + (weight + more) ≤ limits.elements by omega)]

/-- The copies that are still missing are the last ones. -/
theorem makeCopies_eq {limits : Limits} {count weight : Nat} {write : Copy → Forest}
    {make : Copy → Nat → Except Error Unrolled}
    (hmake : ∀ copy, ∀ made ≤ limits.elements,
      make copy made = counted limits made weight (write copy))
    {left : Nat} (hleft : left ≤ count) {made : Nat} (hmade : made ≤ limits.elements) :
    makeCopies count make left made =
      counted limits made (left * weight)
        ((List.range' (count - left) left).flatMap fun index => write { index, count }) := by
  induction left generalizing made with
  | zero => rw [makeCopies, Nat.zero_mul, List.range'_zero, List.flatMap_nil, counted_nil hmade]
  | succ left ih =>
      have hrest : ∀ made ≤ limits.elements, makeCopies count make left made = _ :=
        fun made hmade => ih (Nat.le_of_succ_le hleft) hmade
      have hindex : count - (left + 1) + 1 = count - left := by omega
      rw [makeCopies, hmake _ made hmade, counted_append hrest, Nat.succ_mul, Nat.add_comm weight,
        List.range'_succ, List.flatMap_cons, hindex]

mutual

theorem Node.unroll_eq (limits : Limits) : ∀ (node : Node) (copy : Copy),
    ∀ made ≤ limits.elements,
      node.unroll limits copy made = counted limits made node.weightOnce (node.written copy)
  | .element e times children, copy, made, hmade => by
      rw [Node.unroll, Node.weightOnce, Node.written]
      split
      · next hroom =>
        rw [Forest.unrollFrom_eq limits children copy (made + 1) hroom, counted, counted,
          Nat.add_assoc]
        by_cases hfits : made + (1 + Forest.weight children) ≤ limits.elements
        · rw [if_pos hfits, if_pos hfits]
          rfl
        · rw [if_neg hfits, if_neg hfits]
          rfl
      · next hfull => rw [counted, if_neg (by omega)]
  | .group times children, copy, made, hmade => by
      rw [Node.unroll, Node.weightOnce, Node.written]
      exact Forest.unrollFrom_eq limits children copy made hmade

/-- **Unrolling is one comparison**: it succeeds if the forest's weight fits, and then writes out
the forest. -/
theorem Forest.unrollFrom_eq (limits : Limits) : ∀ (forest : Forest) (copy : Copy),
    ∀ made ≤ limits.elements,
      Forest.unrollFrom limits copy made forest =
        counted limits made (Forest.weight forest) (Forest.written copy forest)
  | [], copy, made, hmade => by
      rw [Forest.unrollFrom, Forest.weight, Forest.written, counted_nil hmade]
  | node :: rest, copy, made, hmade => by
      have hcopies : node.copies limits copy made =
          counted limits made node.weight
            (eachCopy node.times copy fun copy => node.written copy) := by
        have honce := Node.unroll_eq limits node
        rw [Node.copies, Node.weight_eq]
        cases node.times with
        | none => rw [Option.getD_none, Nat.one_mul, eachCopy, honce copy made hmade]
        | some count =>
            have hall := makeCopies_eq honce (Nat.le_refl count) hmade
            rw [Nat.sub_self, ← List.range_eq_range'] at hall
            exact hall
      rw [Forest.unrollFrom_cons, hcopies, counted_append (Forest.unrollFrom_eq limits rest copy),
        Forest.weight, Forest.written]

end

theorem unroll_eq (limits : Limits) (forest : Forest) :
    unroll limits forest =
      if Forest.weight forest ≤ limits.elements then .ok (Forest.written .only forest)
      else .error { cause := .tooManyElements limits.elements } := by
  rw [unroll, Forest.unrollFrom_eq limits forest .only 0 (Nat.zero_le _), counted, Nat.zero_add]
  split <;> rfl

theorem eq_written_of_unroll {limits : Limits} {forest nodes : Forest}
    (h : unroll limits forest = .ok nodes) : nodes = Forest.written .only forest := by
  rw [unroll_eq] at h
  split at h
  · cases h
    rfl
  · cases h

end Shorthand.Markup
