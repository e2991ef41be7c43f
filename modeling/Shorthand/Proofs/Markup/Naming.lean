import Shorthand.Proofs.Markup.Copies
import Shorthand.Proofs.Markup.Preorder

/-!
# Naming — an element is named the same before and after unrolling

Elements are named while the forest still has its groups, its repeat counts and the dollars in its
names. After unrolling, the groups are gone, and the dollars are numbers. `unroll_nameImplicitly`
says that the two passes can change places all the same.

What an element is called depends on the name of its parent only through `implicitName`
(`Forest.nameWithin_congr`), and a name that suggests anything but `div` consists of letters. So a
name with a numbering suggests `div`, whether the numbering is still there or not
(`implicitName_numbered`).
-/

namespace Shorthand

/-! ## What a value shows -/

namespace Value

/-- Every numbering of the value has at least one dollar. -/
def Sized (v : Value) : Prop := ∀ n, Token.number n ∈ v → 1 ≤ n.size

theorem shown_cons (t : Token) (v : Value) : shown (t :: v) = t.shown ++ v.shown := by
  rw [shown, shown, List.map_cons, String.join_cons]

theorem shown_consText (s : String) (v : Value) : (v.consText s).shown = s ++ v.shown := by
  fun_cases consText s v with
  | case1 t v => rw [shown_cons, shown_cons, Token.shown, Token.shown, String.append_assoc]
  | case2 v => rw [shown_cons, Token.shown]

/-- A numbering shows its dollars, if it has any. -/
theorem dollar_mem_shown {v : Value} {n : Numbering} (h : Token.number n ∈ v) (hsize : 1 ≤ n.size) :
    '$' ∈ v.shown.toList := by
  induction v with
  | nil => cases h
  | cons t v ih =>
    rw [shown_cons, String.toList_append, List.mem_append]
    rcases List.mem_cons.mp h with rfl | h
    · left
      rw [Token.shown, String.toList_ofList, List.mem_replicate]
      exact ⟨by omega, rfl⟩
    · exact .inr (ih h)

/-- Once it is numbered, it shows a digit. -/
theorem exists_digit_mem_shown {v : Value} {n : Numbering} (h : Token.number n ∈ v) (copy : Copy) :
    ∃ c ∈ (v.numbered copy).shown.toList, c.isDigit = true := by
  induction v with
  | nil => cases h
  | cons t v ih =>
    rcases List.mem_cons.mp h with rfl | h
    · have hne : Nat.toDigits 10 (n.number copy) ≠ [] := Nat.toDigits_ne_nil
      obtain ⟨c, hc⟩ := List.exists_mem_of_ne_nil _ hne
      have hdigit : c.isDigit = true := Nat.isDigit_of_mem_toDigits (by decide) (by decide) hc
      have hmem : c ∈ (numbered copy (.number n :: v)).shown.toList := by
        rw [numbered, shown_consText, String.toList_append, n.toList_format, padded]
        simp [hc]
      exact ⟨c, hmem, hdigit⟩
    · obtain ⟨c, hc, hdigit⟩ := ih h
      refine ⟨c, ?_, hdigit⟩
      cases t <;> simp [numbered, shown_consText, shown_cons, hc]

/-- Where there is nothing to number, numbering only joins texts. -/
theorem shown_numbered {v : Value} (h : ∀ n, Token.number n ∉ v) (copy : Copy) :
    (v.numbered copy).shown = v.shown := by
  induction v with
  | nil => rfl
  | cons t v ih =>
    have hrest : shown (numbered copy v) = shown v :=
      ih fun n hn => h n (List.mem_cons_of_mem t hn)
    cases t with
    | text s => rw [numbered, shown_consText, hrest, shown_cons, Token.shown]
    | field index placeholder => rw [numbered, shown_cons, hrest, shown_cons]
    | number n => exact absurd List.mem_cons_self (h n)

end Value

namespace Markup

open Text

/-! ## What a name suggests -/

theorem inlineElements_letters : ∀ name ∈ inlineElements, name.toList.all Char.isLower = true := by
  decide

/-- A name with a character in it that is no letter suggests nothing in particular. -/
theorem implicitName_of_mem {name : String} {c : Char} (hc : c ∈ name.toList)
    (hcase : c.toLower = c) (hletter : c.isLower = false) : implicitName (some name) = "div" := by
  have hlower : ∀ s : String, c ∈ s.toList → c ∈ (lower s).toList := by
    intro s hs
    rw [lower, String.toList_ofList]
    exact List.mem_map.mpr ⟨c, hs, hcase⟩
  have hother : ∀ s known : String, c ∈ s.toList → known.toList.all Char.isLower = true →
      s ≠ known := by
    rintro s known hs hknown rfl
    rw [List.all_eq_true.mp hknown c hs] at hletter
    cases hletter
  rw [implicitName]
  split
  case h_15 =>
    rw [if_neg]
    intro hinline
    rw [isInline, List.contains_iff_mem] at hinline
    exact hother _ _ (hlower _ (hlower name hc)) (inlineElements_letters _ hinline) rfl
  all_goals exact absurd ‹_› (hother _ _ (hlower name hc) (by decide))

/-- Numbering a name changes nothing about what it suggests. -/
theorem implicitName_numbered {name : Value} (h : name.Sized) (copy : Copy) :
    implicitName (some (name.numbered copy).shown) = implicitName (some name.shown) := by
  by_cases hnumber : ∃ n, Token.number n ∈ name
  · obtain ⟨n, hn⟩ := hnumber
    obtain ⟨c, hc, hdigit⟩ := Value.exists_digit_mem_shown hn copy
    have hcase : c.toLower = c ∧ c.isLower = false := by
      delta Char.isDigit at hdigit
      delta Char.toLower Char.isLower
      grind
    rw [implicitName_of_mem hc hcase.1 hcase.2,
      implicitName_of_mem (Value.dollar_mem_shown hn (h n hn)) (by decide) (by decide)]
  · rw [Value.shown_numbered (fun n hn => hnumber ⟨n, hn⟩)]

/-! ## Naming inside a parent -/

/-- What the children of an element are named by: the name of the element, or what is around it. -/
def Element.context (parent : Option String) (e : Element) : Option String := e.shownName.or parent

theorem Element.implicitName_context {parent other : Option String}
    (h : implicitName parent = implicitName other) (e : Element) :
    implicitName (e.context parent) = implicitName (e.context other) := by
  rw [context, context]
  cases e.shownName with
  | none => exact h
  | some name => rfl

theorem Element.nameImplicitly_congr {parent other : Option String}
    (h : implicitName parent = implicitName other) (e : Element) :
    e.nameImplicitly parent = e.nameImplicitly other := by
  rw [nameImplicitly, nameImplicitly, h]

mutual

theorem Node.nameImplicitly_congr {parent other : Option String}
    (h : implicitName parent = implicitName other) : ∀ node : Node,
    node.nameImplicitly parent = node.nameImplicitly other
  | .element e times children => by
      have hinner := Element.implicitName_context h (e.nameImplicitly other)
      rw [Node.nameImplicitly, Node.nameImplicitly, Element.nameImplicitly_congr h e]
      exact congrArg _ (Forest.nameWithin_congr hinner children)
  | .group times children => by
      rw [Node.nameImplicitly, Node.nameImplicitly, Forest.nameWithin_congr h children]

/-- Two parents that suggest the same are the same to a forest. -/
theorem Forest.nameWithin_congr {parent other : Option String}
    (h : implicitName parent = implicitName other) : ∀ forest : Forest,
    Forest.nameWithin parent forest = Forest.nameWithin other forest
  | [] => by rw [Forest.nameWithin, Forest.nameWithin]
  | node :: rest => by
      rw [Forest.nameWithin, Forest.nameWithin, Node.nameImplicitly_congr h node,
        Forest.nameWithin_congr h rest]

end

theorem Forest.nameWithin_append (parent : Option String) (xs ys : Forest) :
    Forest.nameWithin parent (xs ++ ys) =
      Forest.nameWithin parent xs ++ Forest.nameWithin parent ys := by
  induction xs with
  | nil => rw [List.nil_append, Forest.nameWithin, List.nil_append]
  | cons node xs ih =>
      rw [List.cons_append, Forest.nameWithin, Forest.nameWithin, ih, List.cons_append]

theorem Node.times_nameImplicitly (parent : Option String) (node : Node) :
    (node.nameImplicitly parent).times = node.times := by
  cases node <;> rw [Node.nameImplicitly] <;> rfl

/-! ## Naming and unrolling -/

theorem Element.numbered_nameImplicitly (parent : Option String) (copy : Copy) (e : Element) :
    (e.nameImplicitly parent).numbered copy = (e.numbered copy).nameImplicitly parent := by
  have hnone : (e.numbered copy).name.isNone = e.name.isNone := by simp [numbered]
  have htext : (e.numbered copy).isText = e.isText := by simp [numbered, isText]
  rw [nameImplicitly, nameImplicitly, hnone, htext]
  split
  · rfl
  · rfl

/-- Every numbering in the name has at least one dollar. -/
def Element.NameSized (e : Element) : Prop := ∀ name ∈ e.name, name.Sized

theorem Element.NameSized.nameImplicitly {e : Element} (h : e.NameSized) (parent : Option String) :
    (e.nameImplicitly parent).NameSized := by
  rw [Element.nameImplicitly]
  split
  · intro name hname
    cases hname
    simp [Value.Sized, Value.ofText]
  · exact h

/-- An element suggests the same name for its children in each of its copies. -/
theorem Element.NameSized.implicitName_context {e : Element} (h : e.NameSized)
    (parent : Option String) (copy : Copy) :
    implicitName ((e.numbered copy).context parent) = implicitName (e.context parent) := by
  rw [context, context, shownName, shownName, numbered]
  cases hname : e.name with
  | none => rfl
  | some name => exact implicitName_numbered (h name hname) copy

mutual

theorem Node.weightOnce_nameImplicitly : ∀ (node : Node) (parent : Option String),
    (node.nameImplicitly parent).weightOnce = node.weightOnce
  | .element e times children, parent => by
      rw [Node.nameImplicitly, Node.weightOnce, Node.weightOnce,
        Forest.weight_nameWithin children]
  | .group times children, parent => by
      rw [Node.nameImplicitly, Node.weightOnce, Node.weightOnce, Forest.weight_nameWithin children]

theorem Forest.weight_nameWithin : ∀ (forest : Forest) (parent : Option String),
    Forest.weight (Forest.nameWithin parent forest) = Forest.weight forest
  | [], parent => by rw [Forest.nameWithin]
  | node :: rest, parent => by
      rw [Forest.nameWithin, Forest.weight, Forest.weight, Node.weight_eq, Node.weight_eq,
        Node.weightOnce_nameImplicitly node, Node.times_nameImplicitly,
        Forest.weight_nameWithin rest]

end

mutual

theorem Node.written_nameImplicitly : ∀ (node : Node) (parent : Option String) (copy : Copy),
    node.Each Element.NameSized →
    (node.nameImplicitly parent).written copy = Forest.nameWithin parent (node.written copy)
  | .element e times children, parent, copy, h => by
      rw [Node.each_element] at h
      have hinner := (h.1.nameImplicitly parent).implicitName_context parent copy
      have hchildren := Forest.written_nameWithin children
        ((e.nameImplicitly parent).context parent) copy h.2
      rw [Node.nameImplicitly, Node.written, Node.written, Forest.nameWithin, Forest.nameWithin,
        Node.nameImplicitly, ← e.numbered_nameImplicitly parent copy]
      -- below the copy, its number is part of the name that suggests
      exact congrArg (fun inner => [Node.element _ none inner])
        (hchildren.trans (Forest.nameWithin_congr hinner.symm _))
  | .group times children, parent, copy, h => by
      rw [Node.each_group] at h
      rw [Node.nameImplicitly, Node.written, Node.written,
        Forest.written_nameWithin children parent copy h]

/-- Writing out a forest that is named is naming what is written out. -/
theorem Forest.written_nameWithin : ∀ (forest : Forest) (parent : Option String) (copy : Copy),
    Forest.Each Element.NameSized forest →
    Forest.written copy (Forest.nameWithin parent forest) =
      Forest.nameWithin parent (Forest.written copy forest)
  | [], parent, copy, _ => by
      rw [Forest.nameWithin, Forest.written, Forest.nameWithin]
  | node :: rest, parent, copy, h => by
      rw [Forest.each_cons] at h
      have hnode : ∀ copy, (node.nameImplicitly parent).written copy =
          Forest.nameWithin parent (node.written copy) :=
        fun copy => Node.written_nameImplicitly node parent copy h.1
      have hcopies := apply_eachCopy node.times copy (g := Forest.nameWithin parent)
        (by rw [Forest.nameWithin]) (Forest.nameWithin_append parent) fun copy => node.written copy
      rw [Forest.nameWithin, Forest.written, Forest.written, Forest.nameWithin_append, hcopies,
        Node.times_nameImplicitly, Forest.written_nameWithin rest parent copy h.2]
      simp only [hnode]

end

/-- **Naming and unrolling commute.** If every numbering in a name has at least one dollar, it makes
no difference whether the elements are named before the repetitions are written out or after: the
forests are the same, or there are too many elements either way. -/
theorem unroll_nameImplicitly (limits : Limits) (forest : Forest)
    (h : ∀ e ∈ Forest.preorder forest, ∀ name ∈ e.name, ∀ n, Token.number n ∈ name → 1 ≤ n.size) :
    unroll limits (nameImplicitly forest) = (unroll limits forest).map nameImplicitly := by
  rw [unroll_eq, unroll_eq, nameImplicitly, Forest.weight_nameWithin,
    Forest.written_nameWithin forest none .only h]
  split
  · rfl
  · rfl

/-- Unnamed elements in a repeated group, below a text and below a name with a numbering. Without
the numbering, that name would suggest something else. -/
def unnamedRows : Forest :=
  [.element { name := some [.text "ul"] } none
    [.group (some 2)
      [.element { name := some [.text "em", .number { size := 1 }] } none
        [.element { text := some [.text "x"] } none
          [.element { attributes := [{ name := "id", value := none }] } none []]],
       .element { attributes := [{ name := "id", value := none }] } none []]]]

theorem unroll_nameImplicitly_unnamedRows :
    (unroll {} (nameImplicitly unnamedRows)).toOption.map
        (fun nodes => (Forest.preorder nodes).map Element.shownName) =
      some [some "ul", some "em1", none, some "div", some "li", some "em2", none, some "div",
        some "li"] ∧
    unroll {} (nameImplicitly unnamedRows) = (unroll {} unnamedRows).map nameImplicitly := by
  have hsized : ∀ e ∈ Forest.preorder unnamedRows, ∀ name ∈ e.name, ∀ n, Token.number n ∈ name →
      1 ≤ n.size := by
    simp [unnamedRows, Forest.preorder, Node.preorder]
  exact ⟨by decide +kernel, unroll_nameImplicitly {} unnamedRows hsized⟩

end Markup

end Shorthand
