import Shorthand.Proofs.Markup.Stretches

/-!
# Indentation — the lines of an output follow the nesting of its forest

The writer passes a level down and raises it by one at some elements and not at others, and at each
level of the forest it decides from all nodes there whether they go on lines of their own. Seen from
the forest both are simple: the level of an element counts the named elements above it, `html` aside
(`levelOf`), and an element that is not inline is always put on a line, except at the very start.

A node is looked for by its path (`Occurs`), and found in the output with its label
(`exists_reached`): each step of the path leads from the output of a node to that of a level in it,
and from there to one node of the level.
-/

namespace Shorthand.Markup

/-! ## Nodes of a forest -/

namespace Node

/-- The name of a node that is an element with a name. -/
def shownName : Node → Option String
  | .element e _ _ => e.shownName
  | .group .. => none

/-- Whether the children of a node are printed: an element without a closing tag has none in the
output. -/
def showsChildren : Node → Bool
  | .element e _ _ =>
    match e.shownName with
    | some name => !(isVoid name || e.selfClosing)
    | none => true
  | .group .. => true

end Node

/-- A node of a forest. `above` are the nodes that it is below of, the closest first, and `path` are
the positions of the node and of these. -/
inductive Occurs (forest : Forest) : (above : List Node) → (path : List Nat) → Node → Prop
  | top {i : Nat} {node : Node} (h : forest[i]? = some node) : Occurs forest [] [i] node
  | child {above : List Node} {path : List Nat} {parent : Node} {i : Nat} {node : Node}
      (hparent : Occurs forest above path parent) (h : parent.children[i]? = some node) :
      Occurs forest (parent :: above) (i :: path) node

namespace Html

/-- How deep a node is nested: the number of named elements above it other than `html`. -/
def levelOf (above : List Node) : Nat := (above.filterMap Node.shownName).countP (· != "html")

/-- The level that the children of a node are written at. -/
def levelBelow (node : Node) (level : Nat) : Nat :=
  match node.shownName with
  | some name => innerLevel name level
  | none => level

theorem levelOf_cons (node : Node) (above : List Node) :
    levelOf (node :: above) = levelBelow node (levelOf above) := by
  rw [levelOf, levelBelow, List.filterMap_cons]
  cases node.shownName with
  | none => rfl
  | some name =>
      by_cases hhtml : name = "html" <;>
        simp [innerLevel, isUnindented, levelOf, hhtml]

/-! ## From a level to a node, and from a node to a level -/

theorem breaks_of_block {o : Options} {force : Bool} {forest : Forest} {node : Node}
    (hmem : node ∈ forest) (hblock : node.isInline = false) : breaks o force forest = true := by
  have hany : forest.any (fun node => !node.isInline) = true :=
    List.any_eq_true.mpr ⟨node, hmem, by rw [hblock]; rfl⟩
  rw [breaks, hany, Bool.or_true, Bool.true_or]

/-- A node of a level is found in the output of the level, behind its line if it has one. -/
theorem exists_node_of_level (o : Options) (level : Nat) (onLines : Bool) (pen : Pen)
    (path : List Nat) (k : Nat) {forest : Forest} {i : Nat} {node : Node}
    (h : forest[i]? = some node) :
    ∃ front next back,
      stretchesOfLevel o level onLines pen path k forest =
        front ++ lineFor ((k + i) :: path) level (onLines && next.started) ++
          stretchesOfNode o level next ((k + i) :: path) node ++ back ∧
      Quiet o pen (segmentsOf o front) next := by
  induction forest generalizing i k pen with
  | nil => cases h
  | cons first rest ih =>
      rw [stretchesOfLevel]
      cases i with
      | zero =>
          cases h
          exact ⟨[], pen, _, rfl, Quiet.refl o pen⟩
      | succ i =>
          obtain ⟨front, next, back, hsplit, hquiet⟩ :=
            ih (writeNode o level pen first).pen (k + 1) (i := i) h
          refine ⟨lineFor (k :: path) level (onLines && pen.started) ++
            stretchesOfNode o level pen (k :: path) first ++ front, next, back, ?_, ?_⟩
          · rw [hsplit, Nat.add_right_comm, Nat.add_assoc]
            simp only [List.append_assoc]
          · rw [segmentsOf_append, segmentsOf_append, segmentsOf_lineFor,
              segmentsOf_stretchesOfNode]
            exact ((Quiet.lineBreak o pen onLines level).append
              (quiet_writeNode o level pen first)).append hquiet

/-- The children of a node are found in the output of the node. They are on lines if one of them is
not inline. -/
theorem exists_level_of_node (o : Options) (level : Nat) (pen : Pen) (path : List Nat) {node : Node}
    (h : node.showsChildren = true) :
    ∃ front onLines next back,
      stretchesOfNode o level pen path node =
        front ++ stretchesOfLevel o (levelBelow node level) onLines next path 0 node.children ++
          back ∧
      Quiet o pen (segmentsOf o front) next ∧
      ∀ child ∈ node.children, child.isInline = false → onLines = true := by
  cases node with
  | group times children =>
      rw [stretchesOfNode]
      exact ⟨[], breaks o false children, pen, [], by rw [List.append_nil]; rfl, Quiet.refl o pen,
        fun child hmem hblock => breaks_of_block hmem hblock⟩
  | element e times children =>
      cases hname : e.shownName with
      | none =>
          have hlevel : levelBelow (.element e times children) level = level := by
            simp only [levelBelow, Node.shownName, hname]
          simp only [stretchesOfNode, hname, hlevel]
          refine ⟨[.content (writeText pen.lastField e)], breaks o false children,
            penAfterText o pen e, [], ?_, ?_, fun child hmem hblock => breaks_of_block hmem hblock⟩
          · rw [List.append_nil]
            rfl
          · rw [segmentsOf_cons, segmentsOf_nil, List.append_nil]
            exact quiet_writeText o pen e
      | some name =>
          have hlevel : levelBelow (.element e times children) level = innerLevel name level := by
            simp only [levelBelow, Node.shownName, hname]
          simp only [Node.showsChildren, hname, Bool.not_eq_true'] at h
          simp only [stretchesOfNode, hname, hlevel, h, Bool.false_eq_true, if_false]
          refine ⟨[.opening path (writeOpening pen.lastField name e).1,
            .content (writeText pen.lastField e)], breaks o (isSpread name) children,
            penInside pen name e,
            [.content (beforeClosing o level pen name e children), .closing path name], ?_,
            Quiet.of_started rfl, fun child hmem hblock => breaks_of_block hmem hblock⟩
          rw [List.append_assoc]
          rfl

/-! ## Finding a node -/

/-- The writer comes to a node with `pen`, behind the stretches `before`. If the pen has not started
they show nothing, and if it has, they end with a line for a node that is not inline. -/
structure Reached (o : Options) (whole : List Stretch) (level : Nat) (path : List Nat) (node : Node)
    (before : List Stretch) (pen : Pen) : Prop where
  split : ∃ after, whole = before ++ stretchesOfNode o level pen path node ++ after
  silent : pen.started = false → textOf o before = ""
  line : node.isInline = false → pen.started = true → ∃ front, before = front ++ [.line path level]

theorem exists_reached_of_level {o : Options} {whole front back : List Stretch} {level : Nat}
    {onLines : Bool} {pen : Pen} {path : List Nat} {siblings : Forest} {i : Nat} {node : Node}
    (hwhole : whole = front ++ stretchesOfLevel o level onLines pen path 0 siblings ++ back)
    (hsilent : pen.started = false → textOf o front = "")
    (hblocks : ∀ child ∈ siblings, child.isInline = false → onLines = true)
    (h : siblings[i]? = some node) :
    ∃ before next, Reached o whole level (i :: path) node before next := by
  obtain ⟨inner, next, after, hsplit, hquiet⟩ :=
    exists_node_of_level o level onLines pen path 0 h
  rw [Nat.zero_add] at hsplit
  refine ⟨front ++ inner ++ lineFor (i :: path) level (onLines && next.started), next,
    ⟨after ++ back, ?_⟩, fun hnext => ?_, fun hblock hstarted => ⟨front ++ inner, ?_⟩⟩
  · rw [hwhole, hsplit]
    simp only [List.append_assoc]
  · obtain ⟨hpen, hinner⟩ := hquiet hnext
    rw [hnext, Bool.and_false, textOf_append, textOf_append, hsilent hpen, textOf, hinner]
    rfl
  · rw [hstarted, hblocks node (List.mem_of_getElem? h) hblock]
    rfl

/-- **A printed node is found in the output**, at its level. -/
theorem exists_reached {o : Options} {forest : Forest} {above : List Node} {path : List Nat}
    {node : Node} (h : Occurs forest above path node) (hprinted : ∀ a ∈ above, a.showsChildren) :
    ∃ before pen, Reached o (stretches o forest) (levelOf above) path node before pen := by
  induction h with
  | top h =>
      have hwhole : stretches o forest =
          [] ++ stretchesOfLevel o 0 (breaks o false forest) {} [] 0 forest ++ [] := by
        rw [List.nil_append, List.append_nil, stretches]
      exact exists_reached_of_level hwhole (fun _ => rfl)
        (fun child hmem hblock => breaks_of_block hmem hblock) h
  | @child above path parent i node _ h ih =>
      obtain ⟨hparent, habove⟩ := List.forall_mem_cons.mp hprinted
      obtain ⟨before, pen, ⟨after, hsplit⟩, hsilent, -⟩ := ih habove
      obtain ⟨front, onLines, next, back, hnode, hquiet, hblocks⟩ :=
        exists_level_of_node o (levelOf above) pen path hparent
      rw [levelOf_cons]
      have hwhole : stretches o forest = (before ++ front) ++
          stretchesOfLevel o (levelBelow parent (levelOf above)) onLines next path 0
            parent.children ++ (back ++ after) := by
        rw [hsplit, hnode]
        simp only [List.append_assoc]
      refine exists_reached_of_level hwhole (fun hnext => ?_) hblocks h
      obtain ⟨hpen, hfront⟩ := hquiet hnext
      rw [textOf_append, hsilent hpen, textOf, hfront]
      rfl

/-! ## Lines of children -/

/-- A node of the level is put on a line. -/
def PutsOnLines (path : List Nat) (stretches : List Stretch) : Prop :=
  ∃ i level, .line (i :: path) level ∈ stretches

theorem putsOnLines_level (o : Options) (level : Nat) (onLines : Bool) {pen : Pen}
    (hpen : pen.started = true) (path : List Nat) (k : Nat) (forest : Forest) :
    PutsOnLines path (stretchesOfLevel o level onLines pen path k forest) ↔
      forest ≠ [] ∧ onLines = true := by
  constructor
  · rintro ⟨i, l, hmem⟩
    induction forest generalizing k pen with
    | nil =>
        rw [stretchesOfLevel] at hmem
        cases hmem
    | cons node rest ih =>
        rw [stretchesOfLevel, List.mem_append, List.mem_append] at hmem
        refine ⟨List.cons_ne_nil _ _, ?_⟩
        rcases hmem with (hmem | hmem) | hmem
        · cases onLines with
          | true => rfl
          | false => cases hmem
        · -- the lines inside a node are for nodes further down
          rcases path?_stretchesOfNode o level pen (k :: path) node _ hmem _ rfl with
            ⟨-, hno⟩ | ⟨j, hj⟩
          · exact absurd rfl (hno _ _)
          · have := hj.length_le
            simp only [List.length_cons] at this
            omega
        · exact (ih ((quiet_writeNode o level pen node).started hpen) (k + 1) hmem).2
  · rintro ⟨hne, rfl⟩
    obtain ⟨node, rest, rfl⟩ := List.exists_cons_of_ne_nil hne
    refine ⟨k, level, ?_⟩
    rw [stretchesOfLevel, hpen]
    exact List.mem_append_left _ (List.mem_append_left _ List.mem_cons_self)

theorem putsOnLines_between {path : List Nat} {inner : List Stretch} (text gap : List Segment) :
    PutsOnLines path (.content text :: (inner ++ [.content gap])) ↔ PutsOnLines path inner := by
  simp [PutsOnLines]

/-- A break is written behind children that were put on lines. -/
theorem beforeClosing_of_lines {o : Options} {level : Nat} {pen : Pen} {name : String} {e : Element}
    {children : Forest} (hne : children ≠ []) (hlines : breaks o (isSpread name) children = true) :
    beforeClosing o level pen name e children = [newline o level] := by
  obtain ⟨child, rest, rfl⟩ := List.exists_cons_of_ne_nil hne
  have hbroke : (writeInner o level pen name e (child :: rest)).broke = true := by
    rw [writeInner, hlines, writeLevel_cons]
    rfl
  rw [beforeClosing, hbroke]
  rfl

/-! ## Elements in the output -/

/-- The output ends with a line break and the indentation of a level. -/
def AtLine (o : Options) (level : Nat) (before : List Stretch) : Prop :=
  ∃ text, textOf o before = text ++ (o.newline ++ String.join (List.replicate level o.indent))

theorem atLine_of_break {o : Options} {level : Nat} {stretch : Stretch}
    (h : stretch.segments o = [newline o level]) (front : List Stretch) :
    AtLine o level (front ++ [stretch]) := by
  refine ⟨textOf o front, ?_⟩
  rw [textOf_append, textOf, textOf, segmentsOf_cons, h]
  simp [newline, Segment.render]

/-- The opening tag of an element that is not inline starts a line, if there is text before it. -/
theorem Reached.atLine {o : Options} {whole before : List Stretch} {level : Nat} {path : List Nat}
    {e : Element} {times : Option Nat} {children : Forest} {name : String} {pen : Pen}
    (h : Reached o whole level path (.element e times children) before pen)
    (hname : e.shownName = some name) (hblock : Markup.isInline name = false) :
    textOf o before = "" ∨ AtLine o level before := by
  cases hstarted : pen.started with
  | false => exact .inl (h.silent hstarted)
  | true =>
      have hnode : (Node.element e times children).isInline = false := by
        simpa only [Node.isInline, hname] using hblock
      obtain ⟨front, rfl⟩ := h.line hnode hstarted
      exact .inr (atLine_of_break rfl front)

/-- What stands between the tags of an element. Its children are put on lines if the layout says
so, and then a break at the level of the element is the last thing there. -/
theorem exists_inside (o : Options) (level : Nat) (pen : Pen) (path : List Nat) {e : Element}
    (times : Option Nat) (children : Forest) {name : String} (hname : e.shownName = some name)
    (hclosed : (isVoid name || e.selfClosing) = false) :
    ∃ inside, stretchesOfNode o level pen path (.element e times children) =
        .opening path (writeOpening pen.lastField name e).1 :: (inside ++ [.closing path name]) ∧
      (PutsOnLines path inside ↔ children ≠ [] ∧ breaks o (isSpread name) children = true) ∧
      (PutsOnLines path inside → ∃ front, inside = front ++ [.content [newline o level]]) := by
  simp only [stretchesOfNode, hname, hclosed, Bool.false_eq_true, if_false]
  have hlines := putsOnLines_level o (innerLevel name level) (breaks o (isSpread name) children)
    (show (penInside pen name e).started = true from rfl) path 0 children
  refine ⟨.content (writeText pen.lastField e) :: (stretchesOfLevel o (innerLevel name level)
    (breaks o (isSpread name) children) (penInside pen name e) path 0 children ++
    [.content (beforeClosing o level pen name e children)]), by simp,
    (putsOnLines_between _ _).trans hlines, fun hput => ?_⟩
  obtain ⟨hne, hbreaks⟩ := hlines.mp ((putsOnLines_between _ _).mp hput)
  rw [beforeClosing_of_lines hne hbreaks, ← List.cons_append]
  exact ⟨_, rfl⟩

/-- How the element at `path` stands in the output: `before` its opening tag, between its tags and
behind that. -/
structure LaidOut (o : Options) (forest : Forest) (above : List Node) (path : List Nat)
    (e : Element) (children : Forest) (name : String) (before : List Stretch)
    (tag : List Segment) (inside after : List Stretch) : Prop where
  split : stretches o forest = before ++ .opening path tag :: (inside ++ after)
  isTag : ∃ last, tag = (writeOpening last name e).1
  /-- The opening tag of an element that is not inline starts a line at the level of the element. -/
  opening : Markup.isInline name = false → textOf o before = "" ∨ AtLine o (levelOf above) before
  closing : (isVoid name || e.selfClosing) = false → ∃ rest, after = .closing path name :: rest
  /-- Children start lines of their own if the rules of the layout say so. -/
  lines : (isVoid name || e.selfClosing) = false →
    (PutsOnLines path inside ↔ children ≠ [] ∧ breaks o (isSpread name) children = true)
  /-- If a child starts a line, the closing tag starts one at the level of the element. -/
  closingLine : PutsOnLines path inside →
    AtLine o (levelOf above) (before ++ .opening path tag :: inside)

/-- **Indentation follows nesting.** The labelled output is the output, and opens each element once.
Every printed element with a name is in it, and whatever its options and its place, the lines that
it starts are indented by its level. -/
theorem indentation_follows_nesting (o : Options) (forest : Forest) :
    textOf o (stretches o forest) = html o forest ∧ (openings (stretches o forest)).Nodup ∧
    ∀ (above : List Node) (path : List Nat) (e : Element) (times : Option Nat) (children : Forest)
      (name : String), Occurs forest above path (.element e times children) →
      (∀ a ∈ above, a.showsChildren = true) → e.shownName = some name →
      ∃ before tag inside after,
        LaidOut o forest above path e children name before tag inside after := by
  refine ⟨textOf_stretches o forest, nodup_openings o forest, ?_⟩
  intro above path e times children name hoccurs hprinted hname
  obtain ⟨before, pen, hreached⟩ := exists_reached (o := o) hoccurs hprinted
  obtain ⟨after, hsplit⟩ := hreached.split
  cases hclosed : isVoid name || e.selfClosing with
  | true =>
      have hnone : ¬ PutsOnLines path [] := by
        rintro ⟨i, level, hmem⟩
        exact List.not_mem_nil hmem
      simp only [stretchesOfNode, hname, hclosed, if_true, List.append_assoc] at hsplit
      exact ⟨before, _, [], after, hsplit, ⟨pen.lastField, rfl⟩, hreached.atLine hname,
        by simp [hclosed], by simp [hclosed], fun hlines => absurd hlines hnone⟩
  | false =>
      obtain ⟨inside, hinside, hlines, hbreak⟩ :=
        exists_inside o (levelOf above) pen path times children hname hclosed
      refine ⟨before, _, inside, .closing path name :: after, ?_, ⟨pen.lastField, rfl⟩,
        hreached.atLine hname, fun _ => ⟨after, rfl⟩, fun _ => hlines, fun hput => ?_⟩
      · rw [hsplit, hinside]
        simp only [List.append_assoc, List.cons_append, List.nil_append]
      · obtain ⟨front, rfl⟩ := hbreak hput
        rw [← List.cons_append, ← List.append_assoc]
        exact atLine_of_break rfl _

/-- A list under a text under the body of a page. -/
def nestedList : Node :=
  .element { name := some [.text "ul"] } none [.element { name := some [.text "li"] } none []]

def nestedText : Node := .element { text := some [.text "x"] } none [nestedList]

def nestedBody : Node := .element { name := some [.text "body"] } none [nestedText]

def nestedPage : Node := .element { name := some [.text "html"] } none [nestedBody]

theorem indentation_nestedList :
    Occurs [nestedPage] [nestedText, nestedBody, nestedPage] [0, 0, 0, 0] nestedList ∧
      (∀ a ∈ [nestedText, nestedBody, nestedPage], a.showsChildren = true) ∧
      levelOf [nestedText, nestedBody, nestedPage] = 1 ∧
      html {} [nestedPage] =
        "<html>\n<body>\n\tx\n\t<ul>\n\t\t<li></li>\n\t</ul>\n</body>\n</html>" ∧
      ∃ before tag inside after,
        LaidOut {} [nestedPage] [nestedText, nestedBody, nestedPage] [0, 0, 0, 0]
          { name := some [.text "ul"] } nestedList.children "ul" before tag inside after := by
  have hoccurs : Occurs [nestedPage] [nestedText, nestedBody, nestedPage] [0, 0, 0, 0] nestedList :=
    .child (.child (.child (.top rfl) rfl) rfl) rfl
  have hprinted : ∀ a ∈ [nestedText, nestedBody, nestedPage], a.showsChildren = true := by
    decide +kernel
  refine ⟨hoccurs, hprinted, by decide +kernel, by decide +kernel, ?_⟩
  exact (indentation_follows_nesting {} [nestedPage]).2.2 _ _ _ none _ "ul" hoccurs hprinted
    (by decide +kernel)

end Html

end Shorthand.Markup
