import Shorthand.Expand
import Shorthand.Proofs.Markup.NormalForm
import Shorthand.Proofs.Markup.Resolution
import Shorthand.Proofs.Markup.Steps

/-!
# Preorder — the elements of a forest, and where they come from

`Forest.preorder` lists the elements of a forest, each before its children. The groups are left out.

No pass makes up an element. The reader only places the ones that it has read
(`exists_readElement_of_mem_read`), and all that happens to them later happens to one element at a
time. `Element.Kept` says what that is, and `each_parse` that a property kept by all of it holds of
every element of the result.
-/

namespace Shorthand.Markup

/-! ## Elements of a forest -/

mutual

/-- The elements of a node, each before its children. -/
def Node.preorder : Node → List Element
  | .element e _ children => e :: Forest.preorder children
  | .group _ children => Forest.preorder children

/-- The elements of a forest, each before its children. -/
def Forest.preorder : Forest → List Element
  | [] => []
  | node :: rest => node.preorder ++ Forest.preorder rest

end

namespace Forest

@[simp] theorem preorder_append (xs ys : Forest) :
    preorder (xs ++ ys) = preorder xs ++ preorder ys := by
  induction xs with
  | nil => simp [preorder]
  | cons node xs ih => simp only [List.cons_append, preorder, ih, List.append_assoc]

@[simp] theorem preorder_singleton (node : Node) : preorder [node] = node.preorder := by
  simp [preorder]

end Forest

/-- Children that are added are added once, wherever the level has its last element. -/
theorem Forest.mem_preorder_addToLastElement? {more forest result : Forest} {e : Element}
    (h : Forest.addToLastElement? more forest = some result) :
    e ∈ Forest.preorder result ↔ e ∈ Forest.preorder forest ∨ e ∈ Forest.preorder more := by
  fun_induction Forest.addToLastElement? more forest generalizing result with
  | case1 => cases h
  | case2 node rest inner hinner ih =>
      cases h
      simp only [Forest.preorder, List.mem_append, ih hinner, or_assoc]
  | case3 rest _ e' times children =>
      cases h
      simp only [Forest.preorder, Node.addChildren, Node.preorder, Forest.preorder_append,
        List.mem_append, List.mem_cons]
      grind
  | case4 => cases h

theorem Node.mem_preorder_attach {more : Forest} {node : Node} {e : Element} :
    e ∈ (node.attach more).preorder ↔ e ∈ node.preorder ∨ e ∈ Forest.preorder more := by
  cases node with
  | element e' times children => simp [Node.attach, Node.preorder, or_assoc]
  | group times children =>
      simp only [Node.attach, Node.preorder]
      cases hlast : Forest.addToLastElement? more children with
      | none => simp
      | some result => exact Forest.mem_preorder_addToLastElement? hlast

/-! ## Reading -/

/-- An element is somewhere in the levels of a place. -/
def Place.Holds (e : Element) : Place → Prop
  | .top nodes => e ∈ Forest.preorder nodes
  | .group outer _ nodes => outer.Holds e ∨ e ∈ Forest.preorder nodes
  | .under outer parent nodes => outer.Holds e ∨ e ∈ parent.preorder ∨ e ∈ Forest.preorder nodes

namespace Place

variable {e : Element}

theorem holds_push {node : Node} {place : Place} :
    (place.push node).Holds e ↔ place.Holds e ∨ e ∈ node.preorder := by
  cases place <;> simp [push, Holds, or_assoc]

theorem holds_climb {k : Nat} {place : Place} : (place.climb k).Holds e ↔ place.Holds e := by
  fun_induction climb k place with
  | case1 k outer parent nodes ih => rw [ih, holds_push, Node.mem_preorder_attach, Holds]
  | case2 => exact Iff.rfl

/-- What a level is finished with goes to the outermost level that is left. -/
theorem mem_preorder_finish {place : Place} {more nodes : Forest} {around : Option Enclosing}
    (h : place.finish more = (nodes, around)) :
    (e ∈ Forest.preorder nodes ∨ ∃ a ∈ around, a.outer.Holds e) ↔
      place.Holds e ∨ e ∈ Forest.preorder more := by
  induction place generalizing more with
  | top inner =>
      cases h
      simp [Holds]
  | group outer opened inner =>
      cases h
      simp [Holds]
      grind
  | under outer parent inner ih =>
      rw [finish] at h
      rw [ih h, Forest.preorder_singleton, Node.mem_preorder_attach, Forest.preorder_append, Holds,
        List.mem_append]
      grind

end Place

namespace Reading

/-- An element is in what has been read so far. -/
def Holds (e : Element) (r : Reading) : Prop :=
  r.place.Holds e ∨ ∃ node ∈ r.pending, e ∈ node.preorder

/-- A step adds no element but the one that it reads. -/
theorem holds_of_step {limits : Limits} {r next : Reading} {e : Element} (h : Step limits r next)
    (he : next.Holds e) : r.Holds e ∨ ∃ s rest, readElement s = .ok (e, rest) := by
  cases h with
  | opens => exact .inl (by simpa [Holds, Place.Holds, Forest.preorder] using he)
  | @element place s tail rest found times helement htimes =>
      rcases he with he | ⟨node, hnode, he⟩
      · exact .inl (.inl he)
      · cases hnode
        simp only [Node.preorder, Forest.preorder, List.mem_singleton] at he
        exact .inr ⟨s, tail, he ▸ helement⟩
  | child => exact .inl (by simpa [Holds, Place.Holds, Forest.preorder] using he)
  | sibling => exact .inl (by simpa [Holds, Place.holds_push] using he)
  | climb => exact .inl (by simpa [Holds, Place.holds_push, Place.holds_climb] using he)
  | closes hfinish =>
      have hmem := Place.mem_preorder_finish (e := e) hfinish
      left
      simp only [Holds, Node.preorder, Option.mem_def, Option.some.injEq, exists_eq_left',
        Forest.preorder_singleton] at he hmem ⊢
      exact hmem.mp he.symm

/-- What is read to the end are the elements that were there and the ones that are read. -/
theorem exists_readElement_of_steps {limits : Limits} {r last : Reading} {e : Element}
    (h : Relation.ReflTransGen (Step limits) r last) (he : last.Holds e) :
    r.Holds e ∨ ∃ s rest, readElement s = .ok (e, rest) := by
  induction h with
  | refl => exact .inl he
  | tail _ hstep ih =>
      rcases holds_of_step hstep he with he | hread
      · exact ih he
      · exact .inr hread

end Reading

/-- Every element of a forest that is read has been read by itself. -/
theorem exists_readElement_of_mem_read {limits : Limits} {abbreviation : String} {forest : Forest}
    (h : read limits abbreviation = .ok forest) {e : Element} (he : e ∈ Forest.preorder forest) :
    ∃ s rest, readElement s = .ok (e, rest) := by
  obtain ⟨_, _, _, last, hsteps, place, node, rfl, hfinish⟩ := read_eq_ok_iff.mp h
  have hlast : Reading.Holds e ⟨place, some node, []⟩ := by
    have hmem := (Place.mem_preorder_finish (e := e) hfinish).mp (.inl he)
    simpa [Reading.Holds] using hmem
  rcases Reading.exists_readElement_of_steps hsteps hlast with hstart | hread
  · simp [Reading.Holds, Place.Holds, Forest.preorder] at hstart
  · exact hread

/-! ## Properties of every element -/

/-- All elements of a node have the property. -/
def Node.Each (P : Element → Prop) (node : Node) : Prop := ∀ e ∈ node.preorder, P e

/-- All elements of a forest have the property. -/
def Forest.Each (P : Element → Prop) (forest : Forest) : Prop := ∀ e ∈ Forest.preorder forest, P e

section Each

variable {P : Element → Prop}

@[simp] theorem Node.each_element {e : Element} {times : Option Nat} {children : Forest} :
    (Node.element e times children).Each P ↔ P e ∧ Forest.Each P children := by
  simp [Node.Each, Node.preorder, Forest.Each]

@[simp] theorem Node.each_group {times : Option Nat} {children : Forest} :
    (Node.group times children).Each P ↔ Forest.Each P children := by
  simp [Node.Each, Node.preorder, Forest.Each]

@[simp] theorem Forest.each_nil : Forest.Each P [] := by
  simp [Forest.Each, Forest.preorder]

@[simp] theorem Forest.each_cons {node : Node} {rest : Forest} :
    Forest.Each P (node :: rest) ↔ node.Each P ∧ Forest.Each P rest := by
  simp [Node.Each, Forest.Each, Forest.preorder, or_imp, forall_and]

@[simp] theorem Forest.each_append {xs ys : Forest} :
    Forest.Each P (xs ++ ys) ↔ Forest.Each P xs ∧ Forest.Each P ys := by
  simp [Forest.Each, or_imp, forall_and]

/-! ## Snippets -/

mutual

theorem Node.each_updateFirstNamed? {f : Element → Element} (hf : ∀ e, P e → P (f e)) :
    ∀ (node : Node) {result : Node}, node.Each P → node.updateFirstNamed? f = some result →
      result.Each P
  | .element e times children, result, hnode, h => by
      rw [Node.each_element] at hnode
      rw [Node.updateFirstNamed?] at h
      split at h
      · cases h
        exact Node.each_element.mpr ⟨hf e hnode.1, hnode.2⟩
      · obtain ⟨inner, hinner, rfl⟩ := Option.map_eq_some_iff.mp h
        exact Node.each_element.mpr
          ⟨hnode.1, Forest.each_updateFirstNamed? hf children hnode.2 hinner⟩
  | .group times children, result, hnode, h => by
      rw [Node.each_group] at hnode
      rw [Node.updateFirstNamed?] at h
      obtain ⟨inner, hinner, rfl⟩ := Option.map_eq_some_iff.mp h
      exact Node.each_group.mpr (Forest.each_updateFirstNamed? hf children hnode hinner)

theorem Forest.each_updateFirstNamed? {f : Element → Element} (hf : ∀ e, P e → P (f e)) :
    ∀ (forest : Forest) {result : Forest}, Forest.Each P forest →
      Forest.updateFirstNamed? f forest = some result → Forest.Each P result
  | [], result, _, h => by
      rw [Forest.updateFirstNamed?] at h
      cases h
  | node :: rest, result, hforest, h => by
      rw [Forest.each_cons] at hforest
      rw [Forest.updateFirstNamed?] at h
      split at h
      · next first hfirst =>
        cases h
        exact Forest.each_cons.mpr
          ⟨Node.each_updateFirstNamed? hf node hforest.1 hfirst, hforest.2⟩
      · obtain ⟨others, hothers, rfl⟩ := Option.map_eq_some_iff.mp h
        exact Forest.each_cons.mpr
          ⟨hforest.1, Forest.each_updateFirstNamed? hf rest hforest.2 hothers⟩

end

mutual

theorem Node.each_updateLastLeaf {f : Node → Node}
    (hf : ∀ node : Node, node.Each P → (f node).Each P) :
    ∀ node : Node, node.Each P → (node.updateLastLeaf f).Each P
  | .element e times children, hnode => by
      rw [Node.updateLastLeaf]
      split
      · exact hf _ hnode
      · rw [Node.each_element] at hnode ⊢
        exact ⟨hnode.1, Forest.each_updateLastLeaf hf children hnode.2⟩
  | .group times children, hnode => by
      rw [Node.updateLastLeaf]
      split
      · exact hf _ hnode
      · rw [Node.each_group] at hnode ⊢
        exact Forest.each_updateLastLeaf hf children hnode

theorem Forest.each_updateLastLeaf {f : Node → Node}
    (hf : ∀ node : Node, node.Each P → (f node).Each P) :
    ∀ forest : Forest, Forest.Each P forest → Forest.Each P (Forest.updateLastLeaf f forest)
  | [], _ => by
      rw [Forest.updateLastLeaf]
      exact Forest.each_nil
  | [node], hforest => by
      rw [Forest.each_cons] at hforest
      rw [Forest.updateLastLeaf, Forest.each_cons]
      exact ⟨Node.each_updateLastLeaf hf node hforest.1, Forest.each_nil⟩
  | node :: next :: rest, hforest => by
      rw [Forest.each_cons] at hforest
      rw [Forest.updateLastLeaf, Forest.each_cons]
      exact ⟨hforest.1, Forest.each_updateLastLeaf hf (next :: rest) hforest.2⟩

end

theorem Node.each_receive (haddText : ∀ text {e : Element}, P e → P (e.addText text))
    (text : Option Value) {more : Forest} (hmore : Forest.Each P more) {node : Node}
    (hnode : node.Each P) : (node.receive text more).Each P := by
  cases node with
  | element e times children =>
      rw [Node.each_element] at hnode
      have hchildren : Forest.Each P (children ++ more) := Forest.each_append.mpr ⟨hnode.2, hmore⟩
      cases text with
      | none => exact Node.each_element.mpr ⟨hnode.1, hchildren⟩
      | some text => exact Node.each_element.mpr ⟨haddText text hnode.1, hchildren⟩
  | group times children =>
      rw [Node.each_group] at hnode
      rw [Node.receive, Node.each_group, Forest.each_append]
      exact ⟨hnode, hmore⟩

theorem Snippet.each_merge {e : Element}
    (hoverride : ∀ {own : Element}, P own → P (e.overrideWith own))
    (haddText : ∀ text {own : Element}, P own → P (own.addText text)) (times : Option Nat)
    {children forest : Forest} (hchildren : Forest.Each P children)
    (hforest : Forest.Each P forest) :
    (Snippet.merge e times children forest).Each P := by
  rw [Snippet.merge, Node.each_group]
  refine Forest.each_updateLastLeaf (fun _ => Node.each_receive haddText e.text hchildren) _ ?_
  cases hupdated : Forest.updateFirstNamed? e.overrideWith forest with
  | none => exact hforest
  | some updated =>
      exact Forest.each_updateFirstNamed? (P := P) (fun _ => hoverride) forest hforest hupdated

/-- What happens to the elements when snippets are expanded keeps a property, and every snippet is
written with elements that have it. Then it holds after expanding if it holds before. -/
theorem Snippet.Resolved.each {limits : Limits} {budget : Nat} {visited : List String}
    {forest result : Forest} (h : Snippet.Resolved limits budget visited forest result)
    (hsettles : ∀ {visited : List String} {e settled : Element}, Snippet.Settles visited e settled →
      P e → P settled)
    (hoverride : ∀ {written own : Element}, P written → P own → P (written.overrideWith own))
    (haddText : ∀ text {own : Element}, P own → P (own.addText text))
    (hread : ∀ {name source : String} {parsed : Forest}, Snippet.source? name = some source →
      read limits (Snippet.withVariables source) = .ok parsed → Forest.Each P parsed)
    (hforest : Forest.Each P forest) : Forest.Each P result := by
  induction h with
  | nil => exact hforest
  | group _ _ ihchildren ihrest =>
      rw [Forest.each_cons, Node.each_group] at hforest ⊢
      exact ⟨ihchildren hforest.1, ihrest hforest.2⟩
  | settled hsettled _ _ ihchildren ihrest =>
      rw [Forest.each_cons, Node.each_element] at hforest ⊢
      exact ⟨⟨hsettles hsettled hforest.1.1, ihchildren hforest.1.2⟩, ihrest hforest.2⟩
  | snippet hasks hparsed _ _ _ ihexpanded ihchildren ihrest =>
      rw [Forest.each_cons, Node.each_element] at hforest
      -- the forest of the snippet has been read and expanded itself
      have hexpanded := ihexpanded (hread hasks.source hparsed)
      refine Forest.each_cons.mpr ⟨?_, ihrest hforest.2⟩
      exact Snippet.each_merge (P := P) (hoverride hforest.1.1) haddText _
        (ihchildren hforest.1.2) hexpanded

/-- A property that holds of every element that is read, and that is kept by all that can happen to
an element afterwards. -/
structure Element.Kept (P : Element → Prop) : Prop where
  read : ∀ {s e rest}, readElement s = .ok (e, rest) → P e
  fill : ∀ count {e}, P e → P (Lorem.fill count e)
  dropMarker : ∀ name {e}, P e → P (Snippet.dropMarker name e)
  overrideWith : ∀ {written e}, P written → P e → P (written.overrideWith e)
  addText : ∀ text {e}, P e → P (e.addText text)
  nameImplicitly : ∀ parent {e}, P e → P (e.nameImplicitly parent)
  numbered : ∀ copy {e}, P e → P (e.numbered copy)

namespace Element.Kept

theorem each_read (hP : Kept P) {limits : Limits} {abbreviation : String} {forest : Forest}
    (h : Markup.read limits abbreviation = .ok forest) : Forest.Each P forest := by
  intro e he
  obtain ⟨s, rest, hread⟩ := exists_readElement_of_mem_read h he
  exact hP.read hread

theorem of_settles (hP : Kept P) {visited : List String} {e settled : Element}
    (h : Snippet.Settles visited e settled) (he : P e) : P settled := by
  cases h with
  | unnamed => exact he
  | lorem => exact hP.fill _ he
  | inside => exact he
  | unknown => exact hP.dropMarker _ he

theorem each_resolve (hP : Kept P) {limits : Limits} {budget : Nat} {visited : List String}
    {forest result : Forest} (hforest : Forest.Each P forest)
    (h : Snippet.resolve limits budget visited forest = .ok result) : Forest.Each P result :=
  (Snippet.resolve_eq_ok_iff.mp h).each hP.of_settles hP.overrideWith hP.addText
    (fun _ hread => hP.each_read hread) hforest

end Element.Kept

/-! ## Naming and unrolling -/

mutual

theorem Node.each_nameImplicitly (hP : Element.Kept P) : ∀ (node : Node) (parent : Option String),
    node.Each P → (node.nameImplicitly parent).Each P
  | .element e times children, parent, h => by
      rw [Node.each_element] at h
      rw [Node.nameImplicitly, Node.each_element]
      exact ⟨hP.nameImplicitly parent h.1, Forest.each_nameWithin hP children _ h.2⟩
  | .group times children, parent, h => by
      rw [Node.each_group] at h
      rw [Node.nameImplicitly, Node.each_group]
      exact Forest.each_nameWithin hP children parent h

theorem Forest.each_nameWithin (hP : Element.Kept P) : ∀ (forest : Forest) (parent : Option String),
    Forest.Each P forest → Forest.Each P (Forest.nameWithin parent forest)
  | [], parent, _ => by
      rw [Forest.nameWithin]
      exact Forest.each_nil
  | node :: rest, parent, h => by
      rw [Forest.each_cons] at h
      rw [Forest.nameWithin, Forest.each_cons]
      exact ⟨Node.each_nameImplicitly hP node parent h.1, Forest.each_nameWithin hP rest parent h.2⟩

end

theorem each_makeCopies {count : Nat} {make : Copy → Nat → Except Error Unrolled}
    (hmake : ∀ {copy made u}, make copy made = .ok u → Forest.Each P u.nodes) (left : Nat)
    {made : Nat} {u : Unrolled} (h : makeCopies count make left made = .ok u) :
    Forest.Each P u.nodes := by
  induction left generalizing made u with
  | zero =>
      cases h
      exact Forest.each_nil
  | succ left ih =>
      rw [makeCopies] at h
      obtain ⟨first, hfirst, h⟩ := bind_eq_ok.mp h
      obtain ⟨rest, hrest, h⟩ := bind_eq_ok.mp h
      cases h
      exact Forest.each_append.mpr ⟨hmake hfirst, ih hrest⟩

mutual

theorem Node.each_unroll (hP : Element.Kept P) {limits : Limits} : ∀ (node : Node) {copy : Copy}
    {made : Nat} {u : Unrolled}, node.Each P → node.unroll limits copy made = .ok u →
    Forest.Each P u.nodes
  | .element e times children, copy, made, u, hnode, h => by
      rw [Node.each_element] at hnode
      rw [Node.unroll] at h
      split at h
      · obtain ⟨inner, hinner, h⟩ := bind_eq_ok.mp h
        cases h
        rw [Forest.each_cons, Node.each_element]
        exact ⟨⟨hP.numbered copy hnode.1, Forest.each_unrollFrom hP children hnode.2 hinner⟩,
          Forest.each_nil⟩
      · cases h
  | .group times children, copy, made, u, hnode, h => by
      rw [Node.each_group] at hnode
      rw [Node.unroll] at h
      exact Forest.each_unrollFrom hP children hnode h

theorem Forest.each_unrollFrom (hP : Element.Kept P) {limits : Limits} : ∀ (forest : Forest)
    {copy : Copy} {made : Nat} {u : Unrolled}, Forest.Each P forest →
    Forest.unrollFrom limits copy made forest = .ok u → Forest.Each P u.nodes
  | [], copy, made, u, _, h => by
      rw [Forest.unrollFrom] at h
      cases h
      exact Forest.each_nil
  | node :: rest, copy, made, u, hforest, h => by
      rw [Forest.each_cons] at hforest
      rw [Forest.unrollFrom_cons] at h
      obtain ⟨first, hfirst, h⟩ := bind_eq_ok.mp h
      obtain ⟨others, hothers, h⟩ := bind_eq_ok.mp h
      cases h
      refine Forest.each_append.mpr ⟨?_, Forest.each_unrollFrom hP rest hforest.2 hothers⟩
      rw [Node.copies] at hfirst
      split at hfirst
      · exact each_makeCopies (Node.each_unroll hP node hforest.1) _ hfirst
      · exact Node.each_unroll hP node hforest.1 hfirst

end

/-- A property that is kept by all that happens to an element holds of every element of a finished
forest. -/
theorem Element.Kept.each_parse (hP : Element.Kept P) {limits : Limits} {abbreviation : String}
    {forest : Forest} (h : parse limits abbreviation = .ok forest) : Forest.Each P forest := by
  obtain ⟨written, expanded, hwritten, hexpanded, h⟩ := stages_of_parse h
  rw [unroll] at h
  obtain ⟨u, hu, h⟩ := bind_eq_ok.mp h
  cases h
  have hsnippets : Forest.Each P expanded := hP.each_resolve (hP.each_read hwritten) hexpanded
  exact Forest.each_unrollFrom hP _ (Forest.each_nameWithin hP expanded none hsnippets) hu

end Each

end Shorthand.Markup
