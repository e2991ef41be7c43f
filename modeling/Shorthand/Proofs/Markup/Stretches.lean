import Mathlib.Data.List.Nodup
import Shorthand.Proofs.Markup.Writing

/-!
# Stretches — the output with the nodes that it comes from

The segments of an output do not tell what they were written for: a line break in a text looks like
one of the layout. `stretches` is the same output (`textOf_stretches`) with every stretch of it
labelled: the tags of the element at a path, the line that was started for the node at a path, or
other content. A label stands for one place only (`nodup_openings`), so a place of the output can be
talked about by the label that stands there.
-/

namespace Shorthand.Markup.Html

/-! ## Labels -/

/-- A stretch of the output with its label. A path leads from a node to the top. -/
inductive Stretch where
  /-- The line break and the indentation in front of the node at `path`. -/
  | line (path : List Nat) (level : Nat)
  /-- The opening tag of the element at `path`. -/
  | opening (path : List Nat) (tag : List Segment)
  /-- Texts, tab-stops, and line breaks that no node is put behind. -/
  | content (segments : List Segment)
  /-- The closing tag of the element at `path`. -/
  | closing (path : List Nat) (name : String)
  deriving Repr, DecidableEq

namespace Stretch

def segments (o : Options) : Stretch → List Segment
  | .line _ level => [newline o level]
  | .opening _ tag => tag
  | .content segments => segments
  | .closing _ name => writeClosing name

/-- The path in a label. -/
def path? : Stretch → Option (List Nat)
  | .line path _ => some path
  | .opening path _ => some path
  | .content _ => none
  | .closing path _ => some path

/-- The element whose opening tag a stretch is. -/
def opened? : Stretch → Option (List Nat)
  | .opening path _ => some path
  | _ => none

theorem path?_of_opened? {stretch : Stretch} {path : List Nat} (h : stretch.opened? = some path) :
    stretch.path? = some path := by
  cases stretch with
  | opening => exact h
  | line => cases h
  | content => cases h
  | closing => cases h

end Stretch

/-- The segments of labelled output. -/
def segmentsOf (o : Options) (stretches : List Stretch) : List Segment :=
  stretches.flatMap (Stretch.segments o)

/-- The text of labelled output. -/
def textOf (o : Options) (stretches : List Stretch) : String :=
  Segment.renderAll o.field (segmentsOf o stretches)

/-- The elements whose opening tags are in labelled output. -/
def openings (stretches : List Stretch) : List (List Nat) := stretches.filterMap Stretch.opened?

section Lists

variable (o : Options) (first second : List Stretch) (stretch : Stretch)

@[simp] theorem segmentsOf_nil : segmentsOf o [] = [] := rfl

@[simp] theorem segmentsOf_cons :
    segmentsOf o (stretch :: second) = stretch.segments o ++ segmentsOf o second :=
  List.flatMap_cons

@[simp] theorem segmentsOf_append :
    segmentsOf o (first ++ second) = segmentsOf o first ++ segmentsOf o second :=
  List.flatMap_append

@[simp] theorem textOf_append : textOf o (first ++ second) = textOf o first ++ textOf o second := by
  rw [textOf, segmentsOf_append, Segment.renderAll_append, textOf, textOf]

@[simp] theorem openings_append :
    openings (first ++ second) = openings first ++ openings second := List.filterMap_append

@[simp] theorem openings_nil : openings [] = [] := rfl

@[simp] theorem openings_opening (path : List Nat) (tag : List Segment) :
    openings (.opening path tag :: second) = path :: openings second := rfl

@[simp] theorem openings_content (segments : List Segment) :
    openings (.content segments :: second) = openings second := rfl

@[simp] theorem openings_closing (path : List Nat) (name : String) :
    openings (.closing path name :: second) = openings second := rfl

end Lists

/-! ## The labelled writer -/

/-- The line in front of a node, if it is put on one. -/
def lineFor (path : List Nat) (level : Nat) (broke : Bool) : List Stretch :=
  if broke then [.line path level] else []

section Element

variable (o : Options) (level : Nat) (pen : Pen) (name : String) (e : Element) (children : Forest)

/-- The children of an element with a closing tag, as the writer puts them. -/
def writeInner : Written :=
  writeLevel o (innerLevel name level) (breaks o (isSpread name) children) (penInside pen name e)
    children

/-- What is written between the children of an element and its closing tag: a break if a child was
put on a new line, and a tab-stop if there is nothing else in the element. -/
def beforeClosing : List Segment :=
  if children.isEmpty then
    if e.text.isSome then []
    else writeHole o name level (innerLevel name level) (addWord (penInside pen name e).lastField 1)
  else if (writeInner o level pen name e children).broke then [newline o level] else []

end Element

mutual

/-- The output for the node at `path`, with labels. -/
def stretchesOfNode (o : Options) (level : Nat) (pen : Pen) (path : List Nat) :
    Node → List Stretch
  | .group _ children => stretchesOfLevel o level (breaks o false children) pen path 0 children
  | .element e _ children =>
    match e.shownName with
    | none =>
      .content (writeText pen.lastField e) ::
        stretchesOfLevel o level (breaks o false children) (penAfterText o pen e) path 0 children
    | some name =>
      .opening path (writeOpening pen.lastField name e).1 ::
        if isVoid name || e.selfClosing then []
        else
          .content (writeText pen.lastField e) ::
            (stretchesOfLevel o (innerLevel name level) (breaks o (isSpread name) children)
                (penInside pen name e) path 0 children ++
              [.content (beforeClosing o level pen name e children), .closing path name])

/-- The output for the nodes below `path`, with labels; the first has the number `k`. -/
def stretchesOfLevel (o : Options) (level : Nat) (onLines : Bool) (pen : Pen) (path : List Nat)
    (k : Nat) : Forest → List Stretch
  | [] => []
  | node :: rest =>
    lineFor (k :: path) level (onLines && pen.started) ++
      stretchesOfNode o level pen (k :: path) node ++
      stretchesOfLevel o level onLines (writeNode o level pen node).pen path (k + 1) rest

end

/-- The output for a forest, with labels. -/
def stretches (o : Options) (forest : Forest) : List Stretch :=
  stretchesOfLevel o 0 (breaks o false forest) {} [] 0 forest

/-! ## The output without labels -/

theorem segmentsOf_lineFor (o : Options) (path : List Nat) (level : Nat) (broke : Bool) :
    segmentsOf o (lineFor path level broke) = if broke then [newline o level] else [] := by
  cases broke <;> rfl

/-- An element with a closing tag, whatever is in it. -/
theorem segments_writeNode_closed (o : Options) (level : Nat) (pen : Pen) (times : Option Nat)
    {e : Element} {name : String} (hname : e.shownName = some name)
    (hclosed : (isVoid name || e.selfClosing) = false) (children : Forest) :
    (writeNode o level pen (.element e times children)).segments =
      (writeOpening pen.lastField name e).1 ++ writeText pen.lastField e ++
        (writeInner o level pen name e children).segments ++
        beforeClosing o level pen name e children ++ writeClosing name := by
  cases children with
  | cons child children =>
      rw [writeNode_parent _ _ _ _ hname hclosed (List.cons_ne_nil _ _)]
      rfl
  | nil =>
      have hinner : (writeInner o level pen name e []).segments = [] := by
        rw [writeInner, writeLevel]
      cases htext : e.text with
      | some text =>
          rw [writeNode_text _ _ _ _ hname hclosed (by rw [htext]; rfl)]
          simp [hinner, beforeClosing, htext]
      | none =>
          rw [writeNode_empty _ _ _ _ hname hclosed htext]
          simp [hinner, beforeClosing, htext, writeText, Value.segments]

mutual

theorem segmentsOf_stretchesOfNode (o : Options) (level : Nat) (pen : Pen) (path : List Nat) :
    (node : Node) →
    segmentsOf o (stretchesOfNode o level pen path node) = (writeNode o level pen node).segments
  | .group _ children => by
    rw [stretchesOfNode, writeNode_group]
    exact segmentsOf_stretchesOfLevel o level _ pen path 0 children
  | .element e times children => by
    cases hname : e.shownName with
    | none =>
        rw [writeNode_unnamed _ _ _ _ hname]
        simp only [stretchesOfNode, hname, segmentsOf_cons, Stretch.segments]
        rw [segmentsOf_stretchesOfLevel o level _ _ path 0 children]
    | some name =>
        simp only [stretchesOfNode, hname, segmentsOf_cons, Stretch.segments]
        cases hclosed : isVoid name || e.selfClosing with
        | true =>
            rw [writeNode_unclosed _ _ _ _ hname hclosed, if_pos rfl, segmentsOf_nil,
              List.append_nil]
        | false =>
            rw [segments_writeNode_closed o level pen times hname hclosed,
              if_neg Bool.false_ne_true]
            simp only [segmentsOf_cons, segmentsOf_append, segmentsOf_nil, Stretch.segments,
              List.append_nil, List.append_assoc]
            rw [segmentsOf_stretchesOfLevel o _ _ _ path 0 children, writeInner]

theorem segmentsOf_stretchesOfLevel (o : Options) (level : Nat) (onLines : Bool) (pen : Pen)
    (path : List Nat) (k : Nat) :
    (forest : Forest) →
    segmentsOf o (stretchesOfLevel o level onLines pen path k forest) =
      (writeLevel o level onLines pen forest).segments
  | [] => by rw [stretchesOfLevel, writeLevel, segmentsOf_nil]
  | node :: rest => by
    rw [stretchesOfLevel, writeLevel_cons, segmentsOf_append, segmentsOf_append,
      segmentsOf_lineFor, segmentsOf_stretchesOfNode o level pen (k :: path) node,
      segmentsOf_stretchesOfLevel o level onLines _ path (k + 1) rest]

end

/-- **Without the labels it is the output.** -/
theorem textOf_stretches (o : Options) (forest : Forest) :
    textOf o (stretches o forest) = html o forest := by
  rw [textOf, stretches, segmentsOf_stretchesOfLevel, html, segments]

/-! ## Places of labels -/

mutual

/-- The labels in the output for a node are about the node or about nodes below it, and the lines
are for nodes below it. -/
theorem path?_stretchesOfNode (o : Options) (level : Nat) (pen : Pen) (path : List Nat) :
    (node : Node) → ∀ stretch ∈ stretchesOfNode o level pen path node, ∀ q ∈ stretch.path?,
      (q = path ∧ ∀ r l, stretch ≠ .line r l) ∨ ∃ i, i :: path <:+ q
  | .group _ children => by
    rw [stretchesOfNode]
    intro stretch hmem q hq
    obtain ⟨i, -, hi⟩ := path?_stretchesOfLevel o level _ pen path 0 children stretch hmem q hq
    exact .inr ⟨i, hi⟩
  | .element e _ children => by
    intro stretch hmem q hq
    cases hname : e.shownName with
    | none =>
        simp only [stretchesOfNode, hname, List.mem_cons] at hmem
        rcases hmem with rfl | hmem
        · cases hq
        · obtain ⟨i, -, hi⟩ := path?_stretchesOfLevel o level _ _ path 0 children stretch hmem q hq
          exact .inr ⟨i, hi⟩
    | some name =>
        simp only [stretchesOfNode, hname, List.mem_cons] at hmem
        rcases hmem with rfl | hmem
        · cases hq
          exact .inl ⟨rfl, fun _ _ h => Stretch.noConfusion h⟩
        · split at hmem
          · cases hmem
          · rw [List.mem_cons, List.mem_append, List.mem_cons, List.mem_singleton] at hmem
            rcases hmem with rfl | hmem | rfl | rfl
            · cases hq
            · obtain ⟨i, -, hi⟩ :=
                path?_stretchesOfLevel o _ _ _ path 0 children stretch hmem q hq
              exact .inr ⟨i, hi⟩
            · cases hq
            · cases hq
              exact .inl ⟨rfl, fun _ _ h => Stretch.noConfusion h⟩

theorem path?_stretchesOfLevel (o : Options) (level : Nat) (onLines : Bool) (pen : Pen)
    (path : List Nat) (k : Nat) :
    (forest : Forest) → ∀ stretch ∈ stretchesOfLevel o level onLines pen path k forest,
      ∀ q ∈ stretch.path?, ∃ i, k ≤ i ∧ i :: path <:+ q
  | [] => by simp [stretchesOfLevel]
  | node :: rest => by
    intro stretch hmem q hq
    rw [stretchesOfLevel, List.mem_append, List.mem_append] at hmem
    rcases hmem with (hmem | hmem) | hmem
    · rw [lineFor] at hmem
      split at hmem
      · cases List.mem_singleton.mp hmem
        cases hq
        exact ⟨k, Nat.le_refl k, List.suffix_refl _⟩
      · cases hmem
    · rcases path?_stretchesOfNode o level pen (k :: path) node stretch hmem q hq with
        ⟨rfl, -⟩ | ⟨i, hi⟩
      · exact ⟨k, Nat.le_refl k, List.suffix_refl _⟩
      · exact ⟨k, Nat.le_refl k, (List.suffix_cons _ _).trans hi⟩
    · obtain ⟨i, hk, hi⟩ :=
        path?_stretchesOfLevel o level onLines _ path (k + 1) rest stretch hmem q hq
      exact ⟨i, by omega, hi⟩

end

/-- Two nodes below one path that lead to the same node are the same. -/
theorem eq_of_suffix {i j : Nat} {path q : List Nat} (hi : i :: path <:+ q) (hj : j :: path <:+ q) :
    i = j := by
  have hsame := List.suffix_of_suffix_length_le hi hj (Nat.le_refl _)
  exact (List.cons.inj (hsame.eq_of_length rfl)).1

theorem ne_of_suffix {i : Nat} {path q : List Nat} (h : i :: path <:+ q) : q ≠ path := by
  rintro rfl
  have := h.length_le
  rw [List.length_cons] at this
  omega

section Openings

variable {o : Options} {level k : Nat} {onLines : Bool} {pen : Pen} {path q : List Nat}

theorem suffix_of_mem_openings_node {node : Node}
    (h : q ∈ openings (stretchesOfNode o level pen path node)) : path <:+ q := by
  obtain ⟨stretch, hmem, hopened⟩ := List.mem_filterMap.mp h
  have hq := Stretch.path?_of_opened? hopened
  rcases path?_stretchesOfNode o level pen path node stretch hmem q hq with ⟨rfl, -⟩ | ⟨i, hi⟩
  · exact List.suffix_refl _
  · exact (List.suffix_cons _ _).trans hi

theorem suffix_of_mem_openings_level {forest : Forest}
    (h : q ∈ openings (stretchesOfLevel o level onLines pen path k forest)) :
    ∃ i, k ≤ i ∧ i :: path <:+ q := by
  obtain ⟨stretch, hmem, hq⟩ := List.mem_filterMap.mp h
  exact path?_stretchesOfLevel o level onLines pen path k forest stretch hmem q
    (Stretch.path?_of_opened? hq)

theorem openings_lineFor (broke : Bool) : openings (lineFor path level broke) = [] := by
  cases broke <;> rfl

end Openings

mutual

theorem nodup_openings_node (o : Options) (level : Nat) (pen : Pen) (path : List Nat) :
    (node : Node) → (openings (stretchesOfNode o level pen path node)).Nodup
  | .group _ children => by
    rw [stretchesOfNode]
    exact nodup_openings_level o level _ pen path 0 children
  | .element e _ children => by
    cases hname : e.shownName with
    | none =>
        simp only [stretchesOfNode, hname]
        exact nodup_openings_level o level _ _ path 0 children
    | some name =>
        simp only [stretchesOfNode, hname]
        split
        · exact List.nodup_singleton path
        · have hlevel := nodup_openings_level o (innerLevel name level)
            (breaks o (isSpread name) children) (penInside pen name e) path 0 children
          have hown : path ∉ openings (stretchesOfLevel o (innerLevel name level)
              (breaks o (isSpread name) children) (penInside pen name e) path 0 children) := by
            intro hmem
            obtain ⟨i, -, hi⟩ := suffix_of_mem_openings_level hmem
            exact ne_of_suffix hi rfl
          simp only [openings_opening, openings_content, openings_append, openings_closing,
            openings_nil, List.append_nil]
          exact List.nodup_cons.mpr ⟨hown, hlevel⟩

theorem nodup_openings_level (o : Options) (level : Nat) (onLines : Bool) (pen : Pen)
    (path : List Nat) (k : Nat) :
    (forest : Forest) → (openings (stretchesOfLevel o level onLines pen path k forest)).Nodup
  | [] => by
    rw [stretchesOfLevel]
    exact List.nodup_nil
  | node :: rest => by
    rw [stretchesOfLevel, openings_append, openings_append, openings_lineFor, List.nil_append]
    refine List.Nodup.append (nodup_openings_node o level pen (k :: path) node)
      (nodup_openings_level o level onLines _ path (k + 1) rest) ?_
    intro q hfirst hrest
    obtain ⟨i, hk, hi⟩ := suffix_of_mem_openings_level hrest
    have := eq_of_suffix (suffix_of_mem_openings_node hfirst) hi
    omega

end

/-- **Each element is opened at one place.** -/
theorem nodup_openings (o : Options) (forest : Forest) : (openings (stretches o forest)).Nodup :=
  nodup_openings_level ..

/-! ## Output that shows nothing yet -/

/-- Segments written between two states of the pen. As long as it has not started there is no
text. -/
def Quiet (o : Options) (pen : Pen) (segments : List Segment) (next : Pen) : Prop :=
  next.started = false → pen.started = false ∧ Segment.renderAll o.field segments = ""

namespace Quiet

variable {o : Options} {pen mid next : Pen} {first second : List Segment}

theorem refl (o : Options) (pen : Pen) : Quiet o pen [] pen := fun h => ⟨h, rfl⟩

theorem append (h₁ : Quiet o pen first mid) (h₂ : Quiet o mid second next) :
    Quiet o pen (first ++ second) next := by
  intro hnext
  obtain ⟨hmid, hsecond⟩ := h₂ hnext
  obtain ⟨hpen, hfirst⟩ := h₁ hmid
  exact ⟨hpen, by rw [Segment.renderAll_append, hfirst, hsecond]; rfl⟩

theorem of_started (h : next.started = true) : Quiet o pen first next := by
  intro hnext
  rw [h] at hnext
  cases hnext

/-- Once the pen has started it has started for good. -/
theorem started (h : Quiet o pen first next) (hpen : pen.started = true) : next.started = true := by
  cases hnext : next.started with
  | true => rfl
  | false => exact absurd (h hnext).1 (by rw [hpen]; decide)

/-- A line is started only behind some text. -/
theorem lineBreak (o : Options) (pen : Pen) (onLines : Bool) (level : Nat) :
    Quiet o pen (if onLines && pen.started then [newline o level] else []) pen := by
  intro h
  rw [h, Bool.and_false, if_neg Bool.false_ne_true]
  exact ⟨rfl, rfl⟩

end Quiet

theorem quiet_writeText (o : Options) (pen : Pen) (e : Element) :
    Quiet o pen (writeText pen.lastField e) (penAfterText o pen e) := by
  intro h
  rw [penAfterText, Bool.or_eq_false_iff, List.any_eq_false] at h
  refine ⟨h.1, ?_⟩
  have hsilent : ∀ segment ∈ writeText pen.lastField e, segment.render o.field = "" := by
    intro segment hmem
    simpa using h.2 segment hmem
  generalize writeText pen.lastField e = text at hsilent
  induction text with
  | nil => rfl
  | cons segment text ih =>
      obtain ⟨hfirst, hrest⟩ := List.forall_mem_cons.mp hsilent
      rw [Segment.renderAll_cons, hfirst, ih hrest]
      rfl

mutual

theorem quiet_writeNode (o : Options) (level : Nat) (pen : Pen) :
    (node : Node) →
    Quiet o pen (writeNode o level pen node).segments (writeNode o level pen node).pen
  | .group _ children => by
    rw [writeNode_group]
    exact quiet_writeLevel o level _ pen children
  | .element e times children => by
    cases hname : e.shownName with
    | none =>
        rw [writeNode_unnamed _ _ _ _ hname]
        exact (quiet_writeText o pen e).append (quiet_writeLevel o level _ _ children)
    | some name =>
        -- the opening tag is text, so the pen has started whatever comes behind it
        apply Quiet.of_started
        cases hclosed : isVoid name || e.selfClosing with
        | true => rw [writeNode_unclosed _ _ _ _ hname hclosed]; rfl
        | false =>
            cases children with
            | cons child children =>
                rw [writeNode_parent _ _ _ _ hname hclosed (List.cons_ne_nil _ _)]
                have hinner := quiet_writeLevel o (innerLevel name level)
                  (breaks o (isSpread name) (child :: children)) (penInside pen name e)
                  (child :: children)
                exact hinner.started rfl
            | nil =>
                cases htext : e.text with
                | some text => rw [writeNode_text _ _ _ _ hname hclosed (by rw [htext]; rfl)]; rfl
                | none => rw [writeNode_empty _ _ _ _ hname hclosed htext]; rfl

theorem quiet_writeLevel (o : Options) (level : Nat) (onLines : Bool) (pen : Pen) :
    (forest : Forest) →
    Quiet o pen (writeLevel o level onLines pen forest).segments
      (writeLevel o level onLines pen forest).pen
  | [] => by
    rw [writeLevel]
    exact Quiet.refl o pen
  | node :: rest => by
    rw [writeLevel_cons]
    exact ((Quiet.lineBreak o pen onLines level).append (quiet_writeNode o level pen node)).append
      (quiet_writeLevel o level onLines _ rest)

end

end Shorthand.Markup.Html
