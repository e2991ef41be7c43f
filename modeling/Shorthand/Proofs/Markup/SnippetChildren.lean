import Mathlib.Data.List.Forall2
import Shorthand.Proofs.Markup.LastElement
import Shorthand.Proofs.Markup.Preorder
import Shorthand.Proofs.Markup.Resolution

/-!
# SnippetChildren — where the children of a snippet go

An element that is a snippet is replaced by the forest of the snippet, and its children have to go
somewhere in there. They go to the last element of that forest, behind the children that it has, and
stay together. `Node.AddedUnderLast` says so without the search that finds the place: the element is
the last one in preorder. It is found because no group of a forest that is read, or of an expanded
one, is empty (`Resolved.filled`).
-/

namespace Shorthand.Markup

/-- The elements of a forest are those of its nodes, one node after the other. -/
theorem Forest.preorder_eq_flatMap (forest : Forest) :
    Forest.preorder forest = forest.flatMap Node.preorder := by
  induction forest with
  | nil => rw [Forest.preorder, List.flatMap_nil]
  | cons node rest ih => rw [Forest.preorder, List.flatMap_cons, ih]

/-! ## Under the last element -/

mutual

/-- The one node is the other with `more` as the last children of its last element in preorder. -/
inductive Node.AddedUnderLast (more : Forest) : Node → Node → Prop
  | here {e : Element} {times : Option Nat} {children : Forest}
      (hlast : Forest.preorder children = []) :
      Node.AddedUnderLast more (.element e times children) (.element e times (children ++ more))
  | child {e : Element} {times : Option Nat} {children result : Forest}
      (h : Forest.AddedUnderLast more children result) :
      Node.AddedUnderLast more (.element e times children) (.element e times result)
  | group {times : Option Nat} {children result : Forest}
      (h : Forest.AddedUnderLast more children result) :
      Node.AddedUnderLast more (.group times children) (.group times result)

/-- The one forest is the other with `more` as the last children of its last element in preorder. -/
inductive Forest.AddedUnderLast (more : Forest) : Forest → Forest → Prop
  | first {node result : Node} {rest : Forest} (h : Node.AddedUnderLast more node result)
      (hlast : Forest.preorder rest = []) :
      Forest.AddedUnderLast more (node :: rest) (result :: rest)
  | rest {node : Node} {rest result : Forest} (h : Forest.AddedUnderLast more rest result) :
      Forest.AddedUnderLast more (node :: rest) (node :: result)

end

mutual

theorem Node.AddedUnderLast.preorder_eq {more : Forest} : ∀ {node result : Node},
    Node.AddedUnderLast more node result →
    result.preorder = node.preorder ++ Forest.preorder more
  | _, _, .here hlast => by
      simp only [Node.preorder, Forest.preorder_append, hlast, List.nil_append, List.cons_append]
  | _, _, .child h => by
      simp only [Node.preorder, h.preorder_eq, List.cons_append]
  | _, _, .group h => by
      simp only [Node.preorder, h.preorder_eq]

/-- What is added under the last element comes last. -/
theorem Forest.AddedUnderLast.preorder_eq {more : Forest} : ∀ {forest result : Forest},
    Forest.AddedUnderLast more forest result →
    Forest.preorder result = Forest.preorder forest ++ Forest.preorder more
  | _, _, .first h hlast => by
      simp only [Forest.preorder, h.preorder_eq, hlast, List.append_nil]
  | _, _, .rest h => by
      simp only [Forest.preorder, h.preorder_eq, List.append_assoc]

end

mutual

theorem Node.addedUnderLast_updateLastLeaf (text : Option Value) (more : Forest) :
    ∀ node : Node, node.Filled →
      Node.AddedUnderLast more (node.updateLastLeaf (·.receive text []))
        (node.updateLastLeaf (·.receive text more))
  | .element e times children, h => by
      rw [Node.Filled] at h
      rw [Node.updateLastLeaf, Node.updateLastLeaf]
      by_cases hchildren : children = []
      · -- here the text and the children arrive
        subst hchildren
        exact .here rfl
      · rw [List.isEmpty_eq_false_iff.mpr hchildren]
        exact .child (Forest.addedUnderLast_updateLastLeaf text more children h hchildren)
  | .group times children, h => by
      rw [Node.Filled] at h
      rw [Node.updateLastLeaf, Node.updateLastLeaf, List.isEmpty_eq_false_iff.mpr h.1]
      exact .group (Forest.addedUnderLast_updateLastLeaf text more children h.2 h.1)

/-- Following last children down leads to the last element, if no group is empty. -/
theorem Forest.addedUnderLast_updateLastLeaf (text : Option Value) (more : Forest) :
    ∀ forest : Forest, Forest.Filled forest → forest ≠ [] →
      Forest.AddedUnderLast more (Forest.updateLastLeaf (·.receive text []) forest)
        (Forest.updateLastLeaf (·.receive text more) forest)
  | [], _, hne => absurd rfl hne
  | [node], h, _ => by
      rw [Forest.filled_cons] at h
      rw [Forest.updateLastLeaf, Forest.updateLastLeaf]
      exact .first (Node.addedUnderLast_updateLastLeaf text more node h.1) rfl
  | node :: next :: rest, h, _ => by
      rw [Forest.filled_cons] at h
      rw [Forest.updateLastLeaf, Forest.updateLastLeaf]
      exact .rest (Forest.addedUnderLast_updateLastLeaf text more (next :: rest) h.2
        (List.cons_ne_nil _ _))

end

/-! ## Expanded forests have no empty group -/

mutual

theorem Node.Filled.updateFirstNamed? {f : Element → Element} : ∀ {node result : Node},
    node.Filled → node.updateFirstNamed? f = some result → result.Filled
  | .element e times children, result, h, hresult => by
      rw [Node.Filled] at h
      rw [Node.updateFirstNamed?] at hresult
      split at hresult
      · cases hresult
        rwa [Node.Filled]
      · obtain ⟨inner, hinner, rfl⟩ := Option.map_eq_some_iff.mp hresult
        rw [Node.Filled]
        exact (Forest.Filled.updateFirstNamed? h hinner).2
  | .group times children, result, h, hresult => by
      rw [Node.Filled] at h
      rw [Node.updateFirstNamed?] at hresult
      obtain ⟨inner, hinner, rfl⟩ := Option.map_eq_some_iff.mp hresult
      rw [Node.Filled]
      exact Forest.Filled.updateFirstNamed? h.2 hinner

theorem Forest.Filled.updateFirstNamed? {f : Element → Element} : ∀ {forest result : Forest},
    Forest.Filled forest → Forest.updateFirstNamed? f forest = some result →
    result ≠ [] ∧ Forest.Filled result
  | [], result, h, hresult => by
      rw [Forest.updateFirstNamed?] at hresult
      cases hresult
  | node :: rest, result, h, hresult => by
      rw [Forest.filled_cons] at h
      rw [Forest.updateFirstNamed?] at hresult
      split at hresult
      · next first hfirst =>
        cases hresult
        exact ⟨List.cons_ne_nil _ _,
          Forest.filled_cons.mpr ⟨Node.Filled.updateFirstNamed? h.1 hfirst, h.2⟩⟩
      · obtain ⟨others, hothers, rfl⟩ := Option.map_eq_some_iff.mp hresult
        exact ⟨List.cons_ne_nil _ _,
          Forest.filled_cons.mpr ⟨h.1, (Forest.Filled.updateFirstNamed? h.2 hothers).2⟩⟩

end

theorem Forest.updateLastLeaf_ne_nil (f : Node → Node) :
    ∀ {forest : Forest}, forest ≠ [] → Forest.updateLastLeaf f forest ≠ []
  | [], hne => absurd rfl hne
  | [node], _ => by
      rw [Forest.updateLastLeaf]
      exact List.cons_ne_nil _ _
  | node :: next :: rest, _ => by
      rw [Forest.updateLastLeaf]
      exact List.cons_ne_nil _ _

mutual

theorem Node.Filled.updateLastLeaf {f : Node → Node}
    (hf : ∀ {node : Node}, node.Filled → (f node).Filled) :
    ∀ {node : Node}, node.Filled → (node.updateLastLeaf f).Filled
  | .element e times children, h => by
      rw [Node.updateLastLeaf]
      split
      · exact hf h
      · rw [Node.Filled] at h ⊢
        exact Forest.Filled.updateLastLeaf hf h
  | .group times children, h => by
      rw [Node.updateLastLeaf]
      split
      · exact hf h
      · rw [Node.Filled] at h ⊢
        exact ⟨Forest.updateLastLeaf_ne_nil f h.1, Forest.Filled.updateLastLeaf hf h.2⟩

theorem Forest.Filled.updateLastLeaf {f : Node → Node}
    (hf : ∀ {node : Node}, node.Filled → (f node).Filled) :
    ∀ {forest : Forest}, Forest.Filled forest → Forest.Filled (Forest.updateLastLeaf f forest)
  | [], h => by rwa [Forest.updateLastLeaf]
  | [node], h => by
      rw [Forest.filled_cons] at h
      rw [Forest.updateLastLeaf, Forest.filled_cons]
      exact ⟨Node.Filled.updateLastLeaf hf h.1, h.2⟩
  | node :: next :: rest, h => by
      rw [Forest.filled_cons] at h
      rw [Forest.updateLastLeaf, Forest.filled_cons]
      exact ⟨h.1, Forest.Filled.updateLastLeaf hf h.2⟩

end

theorem Node.Filled.receive {node : Node} (h : node.Filled) (text : Option Value) {more : Forest}
    (hmore : Forest.Filled more) : (node.receive text more).Filled := by
  cases node with
  | element e times children =>
    rw [Node.Filled] at h
    have hchildren : Forest.Filled (children ++ more) := Forest.filled_append.mpr ⟨h, hmore⟩
    cases text <;> rwa [Node.receive, Node.Filled]
  | group times children =>
    rw [Node.Filled] at h
    rw [Node.receive, Node.Filled]
    exact ⟨List.append_ne_nil_of_left_ne_nil h.1 more, Forest.filled_append.mpr ⟨h.2, hmore⟩⟩

namespace Snippet

/-- The forest of a snippet with the attributes of an element in it, which is what the children go
under. -/
def dressed (e : Element) (forest : Forest) : Forest :=
  (Forest.updateFirstNamed? e.overrideWith forest).getD forest

theorem merge_eq (e : Element) (times : Option Nat) (children forest : Forest) :
    merge e times children forest =
      .group times (Forest.updateLastLeaf (·.receive e.text children) (dressed e forest)) := rfl

theorem filled_dressed (e : Element) {forest : Forest} (hne : forest ≠ [])
    (h : Forest.Filled forest) : dressed e forest ≠ [] ∧ Forest.Filled (dressed e forest) := by
  rw [dressed]
  cases hupdated : Forest.updateFirstNamed? e.overrideWith forest with
  | none => exact ⟨hne, h⟩
  | some updated => exact h.updateFirstNamed? hupdated

theorem filled_merge (e : Element) (times : Option Nat) {children forest : Forest}
    (hchildren : Forest.Filled children) (hne : forest ≠ []) (h : Forest.Filled forest) :
    (merge e times children forest).Filled := by
  obtain ⟨hdressed, hfilled⟩ := filled_dressed e hne h
  rw [merge_eq, Node.Filled]
  exact ⟨Forest.updateLastLeaf_ne_nil _ hdressed,
    hfilled.updateLastLeaf fun hnode => hnode.receive e.text hchildren⟩

theorem Resolved.ne_nil {limits : Limits} {budget : Nat} {visited : List String}
    {forest result : Forest} (h : Resolved limits budget visited forest result)
    (hne : forest ≠ []) : result ≠ [] := by
  cases h with
  | nil => exact hne
  | group => exact List.cons_ne_nil _ _
  | settled => exact List.cons_ne_nil _ _
  | snippet => exact List.cons_ne_nil _ _

/-- Expanding makes no empty group. -/
theorem Resolved.filled {limits : Limits} {budget : Nat} {visited : List String}
    {forest result : Forest} (h : Resolved limits budget visited forest result)
    (hforest : Forest.Filled forest) : Forest.Filled result := by
  induction h with
  | nil => exact hforest
  | group hchildren _ ihchildren ihrest =>
    rw [Forest.filled_cons, Node.Filled] at hforest ⊢
    obtain ⟨⟨hne, hfilled⟩, hrest⟩ := hforest
    exact ⟨⟨hchildren.ne_nil hne, ihchildren hfilled⟩, ihrest hrest⟩
  | settled _ _ _ ihchildren ihrest =>
    rw [Forest.filled_cons, Node.Filled] at hforest ⊢
    exact ⟨ihchildren hforest.1, ihrest hforest.2⟩
  | snippet _ hread hexpanded _ _ ihexpanded ihchildren ihrest =>
    rw [Forest.filled_cons, Node.Filled] at hforest
    -- the forest of a snippet has been read, so it is not empty
    obtain ⟨hne, hparsed⟩ := ne_nil_and_filled_of_read hread
    refine Forest.filled_cons.mpr ⟨?_, ihrest hforest.2⟩
    exact filled_merge _ _ (ihchildren hforest.1) (hexpanded.ne_nil hne) (ihexpanded hparsed)

/-- Every node of a level is expanded by itself. -/
theorem Resolved.forall₂ {limits : Limits} {budget : Nat} {visited : List String}
    {forest result : Forest} (h : Resolved limits budget visited forest result) :
    List.Forall₂ (fun node expanded => Resolved limits budget visited [node] [expanded])
      forest result := by
  induction h with
  | nil => exact .nil
  | group hchildren _ _ ih => exact .cons (.group hchildren .nil) ih
  | settled hsettles hchildren _ _ ih => exact .cons (.settled hsettles hchildren .nil) ih
  | snippet hasks hread hexpanded hchildren _ _ _ ih =>
    exact .cons (.snippet hasks hread hexpanded hchildren .nil) ih

theorem addedUnderLast_merge (e : Element) (times : Option Nat) (children : Forest)
    {forest : Forest} (hne : forest ≠ []) (h : Forest.Filled forest) :
    Node.AddedUnderLast children (merge e times [] forest) (merge e times children forest) := by
  obtain ⟨hdressed, hfilled⟩ := filled_dressed e hne h
  rw [merge_eq, merge_eq]
  exact .group (Forest.addedUnderLast_updateLastLeaf e.text children _ hfilled hdressed)

end Snippet

/-- The node without its children. -/
def Node.alone : Node → Node
  | .element e times _ => .element e times []
  | .group times _ => .group times []

/-- What becomes of one element: what becomes of it without its children, with the expanded children
under the last element of that. -/
theorem Snippet.resolved_element {limits : Limits} {budget : Nat} {visited : List String}
    {e : Element} {times : Option Nat} {children result : Forest}
    (h : Resolved limits budget visited [.element e times children] result) :
    ∃ whole own inner, result = [whole] ∧
      Resolved limits budget visited [.element e times []] [own] ∧
      Resolved limits budget visited children inner ∧ whole.times = times ∧ own.times = times ∧
      Node.AddedUnderLast inner own whole := by
  cases h with
  | settled hsettles hchildren hrest =>
    cases hrest
    exact ⟨_, _, _, rfl, .settled hsettles .nil .nil, hchildren, rfl, rfl, .here rfl⟩
  | snippet hasks hread hexpanded hchildren hrest =>
    cases hrest
    obtain ⟨hne, hparsed⟩ := ne_nil_and_filled_of_read hread
    exact ⟨_, _, _, rfl, .snippet hasks hread hexpanded .nil .nil, hchildren, rfl, rfl,
      addedUnderLast_merge e times _ (hexpanded.ne_nil hne) (hexpanded.filled hparsed)⟩

theorem Snippet.resolved_group {limits : Limits} {budget : Nat} {visited : List String}
    {times : Option Nat} {children result : Forest}
    (h : Resolved limits budget visited [.group times children] result) :
    ∃ inner, result = [.group times inner] ∧ Resolved limits budget visited children inner := by
  cases h with
  | group hchildren hrest =>
    cases hrest
    exact ⟨_, rfl, hchildren⟩

/-- **Snippets keep what is nested in them.** A node with children is expanded to what it is
expanded to without them, and after that in preorder the expanded children. They stay together, as
the last children of the last element of the expansion, or of the group. The node that takes the
place of a node has its repeat count. -/
theorem expandSnippets_children {limits : Limits} {node : Node} {result : Forest}
    (h : expandSnippets limits [node] = .ok result) :
    ∃ whole own inner, result = [whole] ∧ expandSnippets limits [node.alone] = .ok [own] ∧
      List.Forall₂ (fun child expanded => expandSnippets limits [child] = .ok [expanded])
        node.children inner ∧
      whole.preorder = own.preorder ++ inner.flatMap Node.preorder ∧
      whole.times = node.times ∧ own.times = node.times ∧
      (∀ e, node.element? = some e → Node.AddedUnderLast inner own whole) ∧
      (node.element? = none → own = .group node.times [] ∧ whole = .group node.times inner) := by
  have hresolved := Snippet.resolve_eq_ok_iff.mp h
  cases node with
  | element e times children =>
    obtain ⟨whole, own, inner, rfl, hown, hinner, hwhole, htimes, hadded⟩ :=
      Snippet.resolved_element hresolved
    refine ⟨whole, own, inner, rfl, Snippet.resolve_of_resolved hown, ?_, ?_, hwhole, htimes,
      fun _ _ => hadded, ?_⟩
    · exact hinner.forall₂.imp fun _ _ hchild => Snippet.resolve_of_resolved hchild
    · rw [hadded.preorder_eq, Forest.preorder_eq_flatMap]
    · intro hnone
      cases hnone
  | group times children =>
    obtain ⟨inner, rfl, hinner⟩ := Snippet.resolved_group hresolved
    refine ⟨.group times inner, .group times [], inner, rfl,
      Snippet.resolve_of_resolved (.group .nil .nil), ?_, ?_, rfl, rfl, ?_, fun _ => ⟨rfl, rfl⟩⟩
    · exact hinner.forall₂.imp fun _ _ hchild => Snippet.resolve_of_resolved hchild
    · rw [Node.preorder, Node.preorder, Forest.preorder_eq_flatMap, Forest.preorder,
        List.nil_append]
    · intro e hsome
      cases hsome

/-- Three lists with one item, in which a link and two bold texts are written. -/
def listOfLinks : Node :=
  .element { name := some (.ofText "ul+") } (some 3)
    [.element { name := some (.ofText "a") } none [],
      .element { name := some (.ofText "b") } (some 2) []]

/-- The link and the texts get into the item, and the lists are still three. -/
theorem expandSnippets_children_listOfLinks :
    ∃ whole own inner, expandSnippets {} [listOfLinks] = .ok [whole] ∧
      expandSnippets {} [listOfLinks.alone] = .ok [own] ∧
      own.preorder.map Element.shownName = [some "ul", some "li"] ∧
      whole.preorder.map Element.shownName = [some "ul", some "li", some "a", some "b"] ∧
      whole.times = some 3 ∧ Node.AddedUnderLast inner own whole := by
  obtain ⟨result, h, hresult⟩ : ∃ result, expandSnippets {} [listOfLinks] = .ok result ∧
      (Forest.preorder result).map Element.shownName = [some "ul", some "li", some "a", some "b"] :=
    exists_eq_ok (by decide +kernel)
  obtain ⟨expanded, halone, hexpanded⟩ :
      ∃ expanded, expandSnippets {} [listOfLinks.alone] = .ok expanded ∧
        (Forest.preorder expanded).map Element.shownName = [some "ul", some "li"] :=
    exists_eq_ok (by decide +kernel)
  obtain ⟨whole, own, inner, rfl, hown, _, _, htimes, _, hadded, _⟩ := expandSnippets_children h
  cases hown.symm.trans halone
  rw [Forest.preorder_singleton] at hresult hexpanded
  exact ⟨whole, own, inner, h, hown, hexpanded, hresult, htimes, hadded _ rfl⟩

end Shorthand.Markup
