import Shorthand.Proofs.Markup.AttributeOverride
import Shorthand.Proofs.Markup.SnippetChildren
import Shorthand.Proofs.Markup.SnippetNesting

/-!
# SnippetAttributes — attributes written on a snippet

What is written on a snippet goes over the attributes of the first named element of its expansion.
Two expansions are compared, with and without the written attributes: they are the same but for that
element (`Node.FirstReplaced`), and of that element only the attributes differ
(`Element.Overridden`).
-/

namespace Shorthand.Markup

/-! ## The first named element -/

mutual

/-- The one node is the other with `y` in place of `x`, its first named element in preorder. -/
inductive Node.FirstReplaced (x y : Element) : Node → Node → Prop
  | here {times : Option Nat} {children : Forest} (hname : x.name.isSome = true) :
      Node.FirstReplaced x y (.element x times children) (.element y times children)
  | child {e : Element} {times : Option Nat} {children result : Forest} (hname : e.name = none)
      (h : Forest.FirstReplaced x y children result) :
      Node.FirstReplaced x y (.element e times children) (.element e times result)
  | group {times : Option Nat} {children result : Forest}
      (h : Forest.FirstReplaced x y children result) :
      Node.FirstReplaced x y (.group times children) (.group times result)

/-- The one forest is the other with `y` in place of `x`, its first named element in preorder. -/
inductive Forest.FirstReplaced (x y : Element) : Forest → Forest → Prop
  | first {node result : Node} {rest : Forest} (h : Node.FirstReplaced x y node result) :
      Forest.FirstReplaced x y (node :: rest) (result :: rest)
  | rest {node : Node} {rest result : Forest} (hnode : node.Each (·.name = none))
      (h : Forest.FirstReplaced x y rest result) :
      Forest.FirstReplaced x y (node :: rest) (node :: result)

end

section

variable {x y : Element}

mutual

theorem Node.FirstReplaced.exists_preorder : ∀ {node result : Node},
    Node.FirstReplaced x y node result →
    ∃ before after, node.preorder = before ++ x :: after ∧
      result.preorder = before ++ y :: after ∧
      (∀ e ∈ before, e.name = none) ∧ x.name.isSome = true
  | .element _ _ children, _, .here hname =>
      ⟨[], Forest.preorder children, by rw [Node.preorder, List.nil_append],
        by rw [Node.preorder, List.nil_append], by simp, hname⟩
  | .element e _ _, _, .child hname h => by
      obtain ⟨before, after, hchildren, hresult, hbefore, hx⟩ := h.exists_preorder
      refine ⟨e :: before, after, ?_, ?_, List.forall_mem_cons.mpr ⟨hname, hbefore⟩, hx⟩
      · rw [Node.preorder, hchildren, List.cons_append]
      · rw [Node.preorder, hresult, List.cons_append]
  | _, _, .group h => by
      obtain ⟨before, after, hchildren, hresult, hbefore, hx⟩ := h.exists_preorder
      exact ⟨before, after, by rw [Node.preorder, hchildren], by rw [Node.preorder, hresult],
        hbefore, hx⟩

theorem Forest.FirstReplaced.exists_preorder : ∀ {forest result : Forest},
    Forest.FirstReplaced x y forest result →
    ∃ before after, Forest.preorder forest = before ++ x :: after ∧
      Forest.preorder result = before ++ y :: after ∧
      (∀ e ∈ before, e.name = none) ∧ x.name.isSome = true
  | _ :: rest, _, .first h => by
      obtain ⟨before, after, hnode, hresult, hbefore, hx⟩ := h.exists_preorder
      refine ⟨before, after ++ Forest.preorder rest, ?_, ?_, hbefore, hx⟩
      · rw [Forest.preorder, hnode, List.append_assoc, List.cons_append]
      · rw [Forest.preorder, hresult, List.append_assoc, List.cons_append]
  | node :: _, _, .rest hnode h => by
      obtain ⟨before, after, hrest, hresult, hbefore, hx⟩ := h.exists_preorder
      refine ⟨node.preorder ++ before, after, ?_, ?_, ?_, hx⟩
      · rw [Forest.preorder, hrest, List.append_assoc]
      · rw [Forest.preorder, hresult, List.append_assoc]
      · exact List.forall_mem_append.mpr ⟨hnode, hbefore⟩

end

theorem Forest.FirstReplaced.ne_nil {forest result : Forest}
    (h : Forest.FirstReplaced x y forest result) : forest ≠ [] ∧ result ≠ [] := by
  cases h <;> exact ⟨List.cons_ne_nil _ _, List.cons_ne_nil _ _⟩

theorem Forest.updateLastLeaf_cons (f : Node → Node) (node : Node) {rest : Forest}
    (h : rest ≠ []) :
    Forest.updateLastLeaf f (node :: rest) = node :: Forest.updateLastLeaf f rest := by
  cases rest with
  | nil => exact absurd rfl h
  | cons next rest => rw [Forest.updateLastLeaf]

mutual

theorem Node.FirstReplaced.updateLastLeaf (text : Option Value) (more : Forest) :
    ∀ {node result : Node}, Node.FirstReplaced x y node result →
      ∃ t : Option Value → Option Value,
        Node.FirstReplaced { x with text := t x.text } { y with text := t y.text }
          (node.updateLastLeaf (·.receive text more)) (result.updateLastLeaf (·.receive text more))
  | .element _ _ children, _, .here hname => by
      rw [Node.updateLastLeaf, Node.updateLastLeaf]
      by_cases hchildren : children.isEmpty = true
      · rw [if_pos hchildren, if_pos hchildren]
        cases text with
        | none => exact ⟨id, .here hname⟩
        | some text => exact ⟨fun old => some (old.getD [] ++ text), .here hname⟩
      · rw [if_neg hchildren, if_neg hchildren]
        exact ⟨id, .here hname⟩
  | _, _, .child hname h => by
      obtain ⟨t, ht⟩ := Forest.FirstReplaced.updateLastLeaf text more h
      rw [Node.updateLastLeaf, Node.updateLastLeaf, List.isEmpty_eq_false_iff.mpr h.ne_nil.1,
        List.isEmpty_eq_false_iff.mpr h.ne_nil.2]
      exact ⟨t, .child hname ht⟩
  | _, _, .group h => by
      obtain ⟨t, ht⟩ := Forest.FirstReplaced.updateLastLeaf text more h
      rw [Node.updateLastLeaf, Node.updateLastLeaf, List.isEmpty_eq_false_iff.mpr h.ne_nil.1,
        List.isEmpty_eq_false_iff.mpr h.ne_nil.2]
      exact ⟨t, .group ht⟩

/-- The text and the children that go to the last leaf are the same with either element, and the
text may be added to this element. -/
theorem Forest.FirstReplaced.updateLastLeaf (text : Option Value) (more : Forest) :
    ∀ {forest result : Forest}, Forest.FirstReplaced x y forest result →
      ∃ t : Option Value → Option Value,
        Forest.FirstReplaced { x with text := t x.text } { y with text := t y.text }
          (Forest.updateLastLeaf (·.receive text more) forest)
          (Forest.updateLastLeaf (·.receive text more) result)
  | [_], _, .first h => by
      obtain ⟨t, ht⟩ := Node.FirstReplaced.updateLastLeaf text more h
      rw [Forest.updateLastLeaf, Forest.updateLastLeaf]
      exact ⟨t, .first ht⟩
  | _ :: _ :: _, _, .first h => by
      rw [Forest.updateLastLeaf, Forest.updateLastLeaf]
      exact ⟨id, .first h⟩
  | _, _, .rest hnode h => by
      obtain ⟨t, ht⟩ := Forest.FirstReplaced.updateLastLeaf text more h
      rw [Forest.updateLastLeaf_cons _ _ h.ne_nil.1, Forest.updateLastLeaf_cons _ _ h.ne_nil.2]
      exact ⟨t, .rest hnode ht⟩

end

end

mutual

theorem Node.unnamed_or_updateFirstNamed? : ∀ node : Node,
    (node.Each (·.name = none) ∧ ∀ f, node.updateFirstNamed? f = none) ∨
    ∃ x ∈ node.preorder, x.name.isSome = true ∧ ∀ f g : Element → Element, (f x).name = x.name →
      ∃ result result', node.updateFirstNamed? f = some result ∧
        node.updateFirstNamed? g = some result' ∧
        Node.FirstReplaced (f x) (g x) result result'
  | .element e times children => by
      simp only [Node.updateFirstNamed?]
      cases hname : e.name with
      | some name =>
        refine .inr ⟨e, by simp [Node.preorder], by simp [hname], fun f g hsame => ?_⟩
        exact ⟨_, _, rfl, rfl, .here (by rw [hsame, hname]; rfl)⟩
      | none =>
        rcases Forest.unnamed_or_updateFirstNamed? children with
          ⟨hnone, hf⟩ | ⟨x, hx, hsome, hupdate⟩
        · refine .inl ⟨Node.each_element.mpr ⟨hname, hnone⟩, fun f => ?_⟩
          rw [hf f]
          rfl
        · refine .inr ⟨x, ?_, hsome, fun f g hsame => ?_⟩
          · rw [Node.preorder]
            exact List.mem_cons_of_mem e hx
          · obtain ⟨result, result', hresult, hresult', h⟩ := hupdate f g hsame
            rw [hresult, hresult']
            exact ⟨_, _, rfl, rfl, .child hname h⟩
  | .group times children => by
      simp only [Node.updateFirstNamed?]
      rcases Forest.unnamed_or_updateFirstNamed? children with ⟨hnone, hf⟩ | ⟨x, hx, hsome, hupdate⟩
      · refine .inl ⟨Node.each_group.mpr hnone, fun f => ?_⟩
        rw [hf f]
        rfl
      · refine .inr ⟨x, by rwa [Node.preorder], hsome, fun f g hsame => ?_⟩
        obtain ⟨result, result', hresult, hresult', h⟩ := hupdate f g hsame
        rw [hresult, hresult']
        exact ⟨_, _, rfl, rfl, .group h⟩

/-- Two changes of the first named element give forests that differ in that element. -/
theorem Forest.unnamed_or_updateFirstNamed? : ∀ forest : Forest,
    (Forest.Each (·.name = none) forest ∧ ∀ f, Forest.updateFirstNamed? f forest = none) ∨
    ∃ x ∈ Forest.preorder forest, x.name.isSome = true ∧
      ∀ f g : Element → Element, (f x).name = x.name → ∃ result result',
        Forest.updateFirstNamed? f forest = some result ∧
        Forest.updateFirstNamed? g forest = some result' ∧
        Forest.FirstReplaced (f x) (g x) result result'
  | [] => .inl ⟨Forest.each_nil, fun f => by rw [Forest.updateFirstNamed?]⟩
  | node :: rest => by
      simp only [Forest.updateFirstNamed?, Forest.preorder, List.mem_append]
      rcases Node.unnamed_or_updateFirstNamed? node with ⟨hnode, hf⟩ | ⟨x, hx, hsome, hupdate⟩
      · simp only [hf]
        rcases Forest.unnamed_or_updateFirstNamed? rest with ⟨hrest, hf⟩ | ⟨x, hx, hsome, hupdate⟩
        · refine .inl ⟨Forest.each_cons.mpr ⟨hnode, hrest⟩, fun f => ?_⟩
          rw [hf f]
          rfl
        · refine .inr ⟨x, .inr hx, hsome, fun f g hsame => ?_⟩
          obtain ⟨result, result', hresult, hresult', h⟩ := hupdate f g hsame
          rw [hresult, hresult']
          exact ⟨_, _, rfl, rfl, .rest hnode h⟩
      · refine .inr ⟨x, .inl hx, hsome, fun f g hsame => ?_⟩
        obtain ⟨result, result', hresult, hresult', h⟩ := hupdate f g hsame
        rw [hresult, hresult']
        exact ⟨_, _, rfl, rfl, .first h⟩

end

/-! ## Snippets of the table -/

namespace Snippet

/-- No snippet is written with a class of empty tokens. -/
theorem solidClasses_table : ∀ entry ∈ table, ((parsed? entry.2).all fun parsed =>
    (Forest.preorder parsed).all fun e => e.attributes.all fun a => decide a.Solid) = true := by
  decide +kernel

theorem solidClasses_of_read {limits : Limits} {name source : String} {parsed : Forest}
    (hsource : source? name = some source) (h : read limits (withVariables source) = .ok parsed) :
    Forest.Each Element.SolidClasses parsed := by
  have htable := solidClasses_table _ (mem_table_of_source? hsource)
  rw [parsed?_of_read hsource h, Option.all_some, List.all_eq_true] at htable
  intro e he a ha
  exact of_decide_eq_true (List.all_eq_true.mp (htable e he) a ha)

theorem Settles.attributes_eq {visited : List String} {e settled : Element}
    (h : Settles visited e settled) : settled.attributes = e.attributes := by
  cases h with
  | unnamed => rfl
  | lorem => rfl
  | inside => rfl
  | unknown =>
    rw [dropMarker]
    split <;> rfl

/-- Nor is one expanded to it, however snippets are nested. -/
theorem Resolved.solidClasses {limits : Limits} {budget : Nat} {visited : List String}
    {forest result : Forest} (h : Resolved limits budget visited forest result)
    (hforest : Forest.Each Element.SolidClasses forest) :
    Forest.Each Element.SolidClasses result := by
  refine h.each ?_ Element.SolidClasses.overrideWith (fun _ _ hown => hown) solidClasses_of_read
    hforest
  intro visited e settled hsettles he a ha
  exact he a (hsettles.attributes_eq ▸ ha)

/-- No snippet is called as placeholder text is. -/
theorem wordCount?_table : ∀ entry ∈ table, (Lorem.wordCount? entry.1).isNone = true := by
  decide +kernel

/-- An element with the name of a snippet is expanded, where it is not inside of one. -/
theorem exists_asks {e : Element} {name : String} (hname : e.name = some (.ofText name))
    (htable : name ∈ table.map Prod.fst) : ∃ source, Asks [] e name source := by
  obtain ⟨entry, hentry, rfl⟩ := List.mem_map.mp htable
  cases hsource : source? entry.1 with
  | none =>
    have hne := List.lookup_eq_none_iff.mp hsource entry hentry
    simp at hne
  | some source =>
    have hkey : key? e = some entry.1 := by
      rw [key?, hname]
      rfl
    have hlorem := Option.isNone_iff_eq_none.mp (wordCount?_table entry hentry)
    exact ⟨source, hkey, hlorem, List.not_mem_nil, hsource⟩

/-- The snippet called `name` is expanded to this forest, before anything is merged into it. -/
def Expands (limits : Limits) (budget : Nat) (visited : List String) (name source : String)
    (expanded : Forest) : Prop :=
  ∃ parsed, read limits (withVariables source) = .ok parsed ∧
    Resolved limits budget (name :: visited) parsed expanded

section

variable {limits : Limits} {budget : Nat} {visited : List String} {name source : String}
  {expanded : Forest}

theorem Expands.unique {other : Forest} (h : Expands limits budget visited name source expanded)
    (hother : Expands limits budget visited name source other) : expanded = other := by
  obtain ⟨parsed, hread, hexpanded⟩ := h
  obtain ⟨_, hread', hother⟩ := hother
  cases hread.symm.trans hread'
  exact hexpanded.unique hother

theorem Expands.solidClasses (h : Expands limits budget visited name source expanded)
    (hsource : source? name = some source) : Forest.Each Element.SolidClasses expanded := by
  obtain ⟨parsed, hread, hexpanded⟩ := h
  exact hexpanded.solidClasses (solidClasses_of_read hsource hread)

/-- An element that asks for a snippet becomes what the snippet is expanded to, with the element
merged in. -/
theorem resolved_iff_of_asks {e : Element} {times : Option Nat} {children result : Forest}
    (hasks : Asks visited e name source) :
    Resolved limits budget visited [.element e times children] result ↔
      ∃ left expanded inner, budget = left + 1 ∧
        Expands limits left visited name source expanded ∧
        Resolved limits budget visited children inner ∧
        result = [merge e times inner expanded] := by
  constructor
  · intro h
    cases h with
    | settled hsettles => exact absurd hasks hsettles.not_asks
    | snippet hasks' hread hexpanded hchildren hrest =>
      obtain ⟨rfl, rfl⟩ := hasks'.unique hasks
      cases hrest
      exact ⟨_, _, _, rfl, ⟨_, hread, hexpanded⟩, hchildren, rfl⟩
  · rintro ⟨left, expanded, inner, rfl, ⟨parsed, hread, hexpanded⟩, hchildren, rfl⟩
    exact .snippet hasks hread hexpanded hchildren .nil

end

/-- With what is written on an element, a snippet is expanded to the same nodes as without, but for
the attributes of the first named element. -/
theorem firstReplaced_merge {e : Element} (he : e.Distinct) {expanded : Forest}
    (hsolid : Forest.Each Element.SolidClasses expanded)
    (hnamed : ¬Forest.Each (·.name = none) expanded) (times : Option Nat) (inner : Forest) :
    ∃ x y, e.Overridden x y ∧
      Node.FirstReplaced x y (merge { e with attributes := [] } times inner expanded)
        (merge e times inner expanded) := by
  rcases Forest.unnamed_or_updateFirstNamed? expanded with ⟨hnone, _⟩ | ⟨own, hown, _, hupdate⟩
  · exact absurd hnone hnamed
  · obtain ⟨bare, full, hbare, hfull, hreplaced⟩ :=
      hupdate (Element.overrideWith { e with attributes := [] }) e.overrideWith rfl
    obtain ⟨t, ht⟩ := hreplaced.updateLastLeaf e.text inner
    rw [merge_eq, merge_eq, dressed, dressed, hbare, hfull]
    refine ⟨_, _, ?_, .group ht⟩
    -- neither the slash nor the text that is added has to do with the attributes
    exact Element.overridden_override he (hsolid own hown)

/-- Names come only from the snippet and from the children. -/
theorem each_unnamed_merge (e : Element) (times : Option Nat) {expanded : Forest}
    (h : Forest.Each (·.name = none) expanded) :
    (merge e times [] expanded).Each (·.name = none) :=
  each_merge (fun hown => hown) (fun _ _ hown => hown) times Forest.each_nil h

end Snippet

/-- **Attributes written on a snippet go over those of the snippet.** An element has the name of a
snippet whose expansion has a named element. With attributes of different names on it, it is
expanded to the same as without them, but for the first named element `x`: in its place is `y`,
which is `x` with the attributes of the element over its own. -/
theorem expandSnippets_attributes {limits : Limits} {e : Element} {name : String}
    {times : Option Nat} {children alone bare : Forest} (hname : e.name = some (.ofText name))
    (htable : name ∈ Snippet.table.map Prod.fst)
    (hdistinct : (e.attributes.map Attribute.name).Nodup)
    (halone : expandSnippets limits [.element { name := e.name } none []] = .ok alone)
    (hnamed : ∃ x ∈ Forest.preorder alone, x.name.isSome = true)
    (hbare : expandSnippets limits [.element { e with attributes := [] } times children] =
      .ok bare) :
    ∃ plain full x y, bare = [plain] ∧
      expandSnippets limits [.element e times children] = .ok [full] ∧
      e.Overridden x y ∧ Node.FirstReplaced x y plain full ∧
      ∃ before after, plain.preorder = before ++ x :: after ∧ full.preorder = before ++ y :: after ∧
        (∀ b ∈ before, b.name = none) ∧ x.name.isSome = true := by
  obtain ⟨source, hasks⟩ := Snippet.exists_asks hname htable
  have hasksBare : Snippet.Asks [] { e with attributes := [] } name source :=
    ⟨hasks.key, hasks.lorem, hasks.fresh, hasks.source⟩
  have hasksAlone : Snippet.Asks [] { name := e.name } name source :=
    ⟨hasks.key, hasks.lorem, hasks.fresh, hasks.source⟩
  obtain ⟨left, expanded, inner, hbudget, hexpands, hinner, rfl⟩ :=
    (Snippet.resolved_iff_of_asks hasksBare).mp (Snippet.resolve_eq_ok_iff.mp hbare)
  obtain ⟨left', expanded', inner', hbudget', hexpands', hinner', rfl⟩ :=
    (Snippet.resolved_iff_of_asks hasksAlone).mp (Snippet.resolve_eq_ok_iff.mp halone)
  -- Whatever is written on the element, the snippet is expanded to one and the same forest.
  cases hbudget.symm.trans hbudget'
  cases hexpands.unique hexpands'
  have hexpanded : ¬Forest.Each (·.name = none) expanded := by
    intro hnone
    obtain ⟨x, hx, hsome⟩ := hnamed
    cases hinner'.unique .nil
    rw [Forest.preorder_singleton] at hx
    simp [Snippet.each_unnamed_merge { name := e.name } none hnone x hx] at hsome
  obtain ⟨x, y, hoverridden, hreplaced⟩ := Snippet.firstReplaced_merge hdistinct
    (hexpands.solidClasses hasks.source) hexpanded times inner
  refine ⟨_, _, x, y, rfl, Snippet.resolve_of_resolved ?_, hoverridden, hreplaced,
    hreplaced.exists_preorder⟩
  exact (Snippet.resolved_iff_of_asks hasks).mpr
    ⟨left, expanded, inner, hbudget, hexpands, hinner, rfl⟩

/-- A field with a name of its own, and with a class. -/
def searchField : Element :=
  { name := some (.ofText "inp")
    attributes := [⟨"class", some (.ofText "wide")⟩, ⟨"name", some (.ofText "q")⟩] }

/-- The snippet has an element that is a snippet itself. -/
theorem expandSnippets_attributes_searchField :
    ∃ plain full x y,
      expandSnippets {} [.element { searchField with attributes := [] } none []] = .ok [plain] ∧
      expandSnippets {} [.element searchField none []] = .ok [full] ∧
      Node.FirstReplaced x y plain full ∧ searchField.Overridden x y ∧
      plain.preorder.map Element.attributes = [[⟨"type", some (.ofText "text")⟩,
        ⟨"name", some [.field 1 none]⟩, ⟨"id", some [.field 1 none]⟩]] ∧
      full.preorder.map Element.attributes = [[⟨"type", some (.ofText "text")⟩,
        ⟨"name", some (.ofText "q")⟩, ⟨"id", some [.field 1 none]⟩,
        ⟨"class", some (.ofText "wide")⟩]] := by
  obtain ⟨bare, hbare, hview⟩ :
      ∃ bare, expandSnippets {} [.element { searchField with attributes := [] } none []] =
          .ok bare ∧
        ((Forest.preorder bare).any (·.name.isSome),
          (Forest.preorder bare).map Element.attributes) =
        (true, [[⟨"type", some (.ofText "text")⟩, ⟨"name", some [.field 1 none]⟩,
          ⟨"id", some [.field 1 none]⟩]]) :=
    exists_eq_ok (by decide +kernel)
  obtain ⟨result, hresult, hfull⟩ :
      ∃ result, expandSnippets {} [.element searchField none []] = .ok result ∧
        (Forest.preorder result).map Element.attributes = [[⟨"type", some (.ofText "text")⟩,
          ⟨"name", some (.ofText "q")⟩, ⟨"id", some [.field 1 none]⟩,
          ⟨"class", some (.ofText "wide")⟩]] :=
    exists_eq_ok (by decide +kernel)
  obtain ⟨hnamed, hplain⟩ := Prod.mk.inj hview
  obtain ⟨plain, full, x, y, rfl, hexpanded, hoverridden, hreplaced, _⟩ :=
    expandSnippets_attributes (e := searchField) rfl (by decide +kernel) (by decide) hbare
      (List.any_eq_true.mp hnamed) hbare
  cases hexpanded.symm.trans hresult
  rw [Forest.preorder_singleton] at hplain hfull
  exact ⟨plain, full, x, y, hbare, hexpanded, hreplaced, hoverridden, hplain, hfull⟩

end Shorthand.Markup
