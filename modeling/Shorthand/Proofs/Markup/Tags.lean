import Shorthand.Proofs.Markup.TabStops

/-!
# Tags — the tags of an HTML output are those of its forest

The writer mixes tags with texts, line breaks and indentation, and decides about these as it goes.
None of that touches the tags: `tags` lists them from the forest alone, and `pieces_html` says that
whatever stands between angle brackets in the output is that list, in that order. The list is
properly nested (`openNames_tags`): every closing tag closes the last tag that is still open.

An attribute without a value is shown with a tab-stop, so the text of a tag depends on how many
numbers have been used before it. `numbersOfNode` counts what a node uses.

The argument goes over stretches of the output. `Tagged` says of a stretch which tags it holds,
whatever follows it, so stretches can be put together in the order of the output.
-/

namespace Shorthand

/-- A text without angle brackets. -/
def Clear (s : List Char) : Prop := '<' ∉ s ∧ '>' ∉ s

instance (s : List Char) : Decidable (Clear s) := inferInstanceAs (Decidable (_ ∧ _))

theorem clear_nil : Clear [] := ⟨List.not_mem_nil, List.not_mem_nil⟩

theorem clear_append {s t : List Char} : Clear (s ++ t) ↔ Clear s ∧ Clear t := by
  simp only [Clear, List.mem_append, not_or]
  exact ⟨fun ⟨⟨a, b⟩, c, d⟩ => ⟨⟨a, c⟩, b, d⟩, fun ⟨⟨a, c⟩, b, d⟩ => ⟨⟨a, b⟩, c, d⟩⟩

theorem clear_of_isDigit {s : List Char} (h : ∀ c ∈ s, c.isDigit = true) : Clear s :=
  ⟨fun hmem => absurd (h '<' hmem) (by decide), fun hmem => absurd (h '>' hmem) (by decide)⟩

theorem Numbering.clear_format (n : Numbering) (copy : Copy) : Clear (n.format copy).toList := by
  refine clear_of_isDigit fun c hc => ?_
  rw [format, String.toList_ofList, List.leftpad, List.mem_append] at hc
  rcases hc with hc | hc
  · rw [List.eq_of_mem_replicate hc]
    rfl
  · exact Nat.isDigit_of_mem_toDigits (by decide) (by decide) hc

/-- A token whose text has no angle brackets. What a tab-stop shows is up to the field format. -/
def Token.Clear : Token → Prop
  | .text s => Shorthand.Clear s.toList
  | _ => True

instance : DecidablePred Token.Clear
  | .text s => inferInstanceAs (Decidable (Clear s.toList))
  | .field _ _ => isTrue trivial
  | .number _ => isTrue trivial

/-- A value whose texts have no angle brackets. -/
def Value.Clear (v : Value) : Prop := ∀ t ∈ v, t.Clear

instance (v : Value) : Decidable v.Clear := inferInstanceAs (Decidable (∀ t ∈ v, _))

namespace Segment

/-- Every tab-stop of a sequence is shown without angle brackets. -/
def FieldsClear (format : FieldFormat) (segments : List Segment) : Prop :=
  ∀ call ∈ calls segments, Clear (format call.1 call.2).toList

instance (format : FieldFormat) (segments : List Segment) :
    Decidable (FieldsClear format segments) :=
  inferInstanceAs (Decidable (∀ call ∈ calls segments, _))

theorem fieldsClear_append {format : FieldFormat} {first second : List Segment} :
    FieldsClear format (first ++ second) ↔
      FieldsClear format first ∧ FieldsClear format second := by
  simp only [FieldsClear, calls_append, List.forall_mem_append]

theorem clear_renderAll {format : FieldFormat} {segments : List Segment}
    (hliterals : ∀ s, .literal s ∈ segments → Clear s.toList)
    (hfields : FieldsClear format segments) : Clear (renderAll format segments).toList := by
  induction segments with
  | nil => exact clear_nil
  | cons segment segments ih =>
      have hrest := ih (fun s hs => hliterals s (List.mem_cons_of_mem _ hs))
      rw [renderAll_cons, String.toList_append, clear_append]
      cases segment with
      | literal s => exact ⟨hliterals s List.mem_cons_self, hrest hfields⟩
      | field index placeholder =>
          obtain ⟨hfield, hfields⟩ := List.forall_mem_cons.mp hfields
          exact ⟨hfield, hrest hfields⟩

end Segment

namespace Markup.Html

/-! ## The tags of a forest -/

/-- A tag of the output. -/
inductive Tag where
  /-- An opening tag with the values its attributes are shown with; `closes` says that a closing tag
  belongs to it. -/
  | opening (name : String) (attributes : List (String × String)) (closes : Bool)
  | closing (name : String)
  deriving Repr, DecidableEq

/-- A tag as it is written. -/
def Tag.text : Tag → String
  | .opening name attributes _ =>
    "<" ++ name ++ String.join (attributes.map fun a => " " ++ a.1 ++ "=\"" ++ a.2 ++ "\"") ++ ">"
  | .closing name => "</" ++ name ++ ">"

/-- What an attribute is shown with, inside an element whose tab-stops are counted from `base`: its
value, its name, or the tab-stop `hole`. -/
def shownValue (base hole : Nat) (a : Attribute) : List Segment :=
  if isHole a then [.field hole none]
  else
    match a.value with
    | some value => value.segments base
    | none => [.literal a.name]

/-- Attributes as they are shown, behind number `last`; a number is shown in 64 bits. -/
def shownAttributes (format : FieldFormat) (base last : Nat) :
    List Attribute → List (String × String)
  | [] => []
  | a :: rest =>
    (a.name, Segment.renderAll format (shownValue base (addWord last 1) a)) ::
      shownAttributes format base (if isHole a then last + 1 else last) rest

mutual

/-- The tags of a node behind number `last`. A group and an element without a name have no tags of
their own; the children of an element without a closing tag are not shown. -/
def tagsOfNode (format : FieldFormat) (last : Nat) : Node → List Tag
  | .group _ children => tagsOfLevel format last children
  | .element e _ children =>
    match e.shownName with
    | none => tagsOfLevel format (last + e.maxField) children
    | some name =>
      let closes := !(isVoid name || e.selfClosing)
      let attributes := shownAttributes format last (last + e.maxField) e.attributes
      let inside := last + e.maxField + e.attributes.countP isHole
      .opening name attributes closes ::
        if closes then tagsOfLevel format inside children ++ [.closing name] else []

def tagsOfLevel (format : FieldFormat) (last : Nat) : Forest → List Tag
  | [] => []
  | node :: rest =>
    tagsOfNode format last node ++ tagsOfLevel format (last + numbersOfNode node) rest

end

/-- The tags of a forest, in the order of the output. -/
def tags (format : FieldFormat) (forest : Forest) : List Tag := tagsOfLevel format 0 forest

/-- The names that are open behind some tags, the last one first. There are none if a closing tag
does not close the last name that is open. -/
def openNames (names : List String) : List Tag → Option (List String)
  | [] => some names
  | .opening name _ closes :: rest => openNames (if closes then name :: names else names) rest
  | .closing name :: rest => if names.head? = some name then openNames names.tail rest else none

mutual

theorem openNames_tagsOfNode (format : FieldFormat) (last : Nat) (names : List String)
    (rest : List Tag) :
    (node : Node) → openNames names (tagsOfNode format last node ++ rest) = openNames names rest
  | .group _ children => by
    rw [tagsOfNode]
    exact openNames_tagsOfLevel format last names rest children
  | .element e _ children => by
    cases hname : e.shownName with
    | none =>
        simp only [tagsOfNode, hname]
        exact openNames_tagsOfLevel format _ names rest children
    | some name =>
        simp only [tagsOfNode, hname, List.cons_append, openNames]
        split
        · rw [List.append_assoc, openNames_tagsOfLevel format _ _ _ children]
          simp [openNames]
        · rfl

/-- The tags of a level leave the names open that were open before. -/
theorem openNames_tagsOfLevel (format : FieldFormat) (last : Nat) (names : List String)
    (rest : List Tag) :
    (forest : Forest) → openNames names (tagsOfLevel format last forest ++ rest) =
      openNames names rest
  | [] => by rw [tagsOfLevel, List.nil_append]
  | node :: forest => by
    rw [tagsOfLevel, List.append_assoc, openNames_tagsOfNode format last names _ node]
    exact openNames_tagsOfLevel format _ names rest forest

end

/-- The tags of a forest are properly nested. -/
theorem openNames_tags (format : FieldFormat) (forest : Forest) :
    openNames [] (tags format forest) = some [] := by
  have := openNames_tagsOfLevel format 0 [] [] forest
  rwa [List.append_nil] at this

theorem writeAttribute_fst (base last : Nat) (a : Attribute) :
    (writeAttribute base (last % UInt64.size) a).1 =
      .literal (" " ++ a.name ++ "=\"") :: shownValue base (addWord last 1) a ++
        [.literal "\""] := by
  obtain ⟨name, value⟩ := a
  cases value with
  | none =>
      cases hboolean : isBooleanAttribute name <;>
        simp [writeAttribute, shownValue, isHole, hboolean, addWord_mod]
  | some value =>
      cases hblank : value.isBlank <;>
        simp [writeAttribute, shownValue, isHole, hblank, addWord_mod]

/-! ## Tags in a text -/

/-- The stretches of a text from each `<` to the next `>`, which they include. `piece` is what has
been read of a stretch that is not at its end yet. -/
def pieces (piece : Option (List Char)) : List Char → List (List Char)
  | [] => []
  | c :: s =>
    match piece with
    | none => if c = '<' then pieces (some ['<']) s else pieces none s
    | some read =>
      if c = '>' then (read ++ ['>']) :: pieces none s else pieces (some (read ++ [c])) s

theorem pieces_clear {s : List Char} (h : '<' ∉ s) (rest : List Char) :
    pieces none (s ++ rest) = pieces none rest := by
  induction s with
  | nil => rfl
  | cons c s ih =>
      rw [List.mem_cons, not_or] at h
      rw [List.cons_append, pieces]
      simp only [if_neg (Ne.symm h.1)]
      exact ih h.2

theorem pieces_inside {s : List Char} (h : '>' ∉ s) (read rest : List Char) :
    pieces (some read) (s ++ '>' :: rest) = (read ++ s ++ ['>']) :: pieces none rest := by
  induction s generalizing read with
  | nil => simp [pieces]
  | cons c s ih =>
      rw [List.mem_cons, not_or] at h
      rw [List.cons_append, pieces]
      simp only [if_neg (Ne.symm h.1)]
      rw [ih h.2]
      simp

/-- A tag is read whole. -/
theorem pieces_tag {s : List Char} (h : '>' ∉ s) (rest : List Char) :
    pieces none ('<' :: (s ++ '>' :: rest)) = ('<' :: (s ++ ['>'])) :: pieces none rest := by
  rw [pieces]
  simp only [if_true, pieces_inside h, List.cons_append, List.nil_append]

/-- The tags in a stretch of the output, whatever follows it. -/
def Tagged (format : FieldFormat) (segments : List Segment) (tags : List Tag) : Prop :=
  ∀ rest, pieces none ((Segment.renderAll format segments).toList ++ rest) =
    tags.map (·.text.toList) ++ pieces none rest

namespace Tagged

variable {format : FieldFormat} {first second : List Segment} {tags₁ tags₂ : List Tag}

theorem append (h₁ : Tagged format first tags₁) (h₂ : Tagged format second tags₂) :
    Tagged format (first ++ second) (tags₁ ++ tags₂) := by
  intro rest
  rw [Segment.renderAll_append, String.toList_append, List.append_assoc, h₁, h₂, List.map_append,
    List.append_assoc]

theorem of_clear (h : Clear (Segment.renderAll format first).toList) : Tagged format first [] :=
  fun rest => pieces_clear h.1 rest

theorem of_text {tag : Tag} {s : List Char} (hs : '>' ∉ s)
    (htag : tag.text.toList = '<' :: (s ++ ['>']))
    (h : (Segment.renderAll format first).toList = '<' :: (s ++ ['>'])) :
    Tagged format first [tag] := by
  intro rest
  rw [h, List.cons_append, List.append_assoc, List.cons_append, List.nil_append, pieces_tag hs,
    List.map_singleton, htag]
  rfl

end Tagged

/-! ## The tags of the writer -/

/-- An element whose names, values and texts have no angle brackets. -/
structure ClearElement (e : Element) : Prop where
  name : ∀ name ∈ e.shownName, Clear name.toList
  attributeNames : ∀ a ∈ e.attributes, Clear a.name.toList
  attributeValues : ∀ a ∈ e.attributes, ∀ v ∈ a.value, v.Clear
  text : ∀ v ∈ e.text, v.Clear

instance (e : Element) : Decidable (ClearElement e) :=
  decidable_of_iff (_ ∧ _ ∧ _ ∧ _)
    ⟨fun h => ⟨h.1, h.2.1, h.2.2.1, h.2.2.2⟩, fun h => ⟨h.1, h.2, h.3, h.4⟩⟩

mutual

def ClearNode : Node → Prop
  | .group _ children => ClearForest children
  | .element e _ children => ClearElement e ∧ ClearForest children

/-- A forest whose names, values and texts have no angle brackets. -/
def ClearForest : Forest → Prop
  | [] => True
  | node :: rest => ClearNode node ∧ ClearForest rest

end

mutual

instance decidableClearNode : DecidablePred ClearNode
  | .group _ children => decidableClearForest children
  | .element _ _ children => @instDecidableAnd _ _ _ (decidableClearForest children)

instance decidableClearForest : DecidablePred ClearForest
  | [] => isTrue trivial
  | node :: rest => @instDecidableAnd _ _ (decidableClearNode node) (decidableClearForest rest)

end

theorem clear_segments {format : FieldFormat} {v : Value} (hv : v.Clear) {base : Nat}
    (hfields : Segment.FieldsClear format (v.segments base)) :
    Clear (Segment.renderAll format (v.segments base)).toList := by
  refine Segment.clear_renderAll (fun s hs => ?_) hfields
  obtain ⟨token, hmem, htoken⟩ := List.mem_map.mp hs
  cases token with
  | text t =>
      cases htoken
      exact hv (.text s) hmem
  | field index placeholder => cases htoken
  | number n =>
      cases htoken
      exact n.clear_format .only

theorem clear_writeText {format : FieldFormat} {base : Nat} {e : Element} (he : ClearElement e)
    (hfields : Segment.FieldsClear format (writeText base e)) :
    Clear (Segment.renderAll format (writeText base e)).toList := by
  refine clear_segments ?_ hfields
  cases htext : e.text with
  | none => exact List.forall_mem_nil _
  | some v => exact he.text v htext

theorem renderAll_writeAttributes (format : FieldFormat) (base last : Nat) (as : List Attribute) :
    Segment.renderAll format (writeAttributes base (last % UInt64.size) as).1 =
      String.join ((shownAttributes format base last as).map
        fun a => " " ++ a.1 ++ "=\"" ++ a.2 ++ "\"") := by
  induction as generalizing last with
  | nil => rfl
  | cons a as ih =>
      simp only [writeAttributes, writeAttribute_fst, writeAttribute_snd, shownAttributes,
        Segment.renderAll_append, ih]
      simp [Segment.render, String.append_assoc]

theorem clear_shownValue {format : FieldFormat} {base hole : Nat} {a : Attribute}
    (hname : Clear a.name.toList) (hvalue : ∀ v ∈ a.value, v.Clear)
    (hfields : Segment.FieldsClear format (shownValue base hole a)) :
    Clear (Segment.renderAll format (shownValue base hole a)).toList := by
  revert hfields
  rw [shownValue]
  split
  · intro hfields
    simpa [Segment.FieldsClear, Segment.render] using hfields
  · split
    · next v hv => exact fun hfields => clear_segments (hvalue v hv) hfields
    · intro _
      simpa [Segment.render] using hname

theorem clear_writeAttribute {format : FieldFormat} {base last : Nat} {a : Attribute}
    (hname : Clear a.name.toList) (hvalue : ∀ v ∈ a.value, v.Clear)
    (hfields : Segment.FieldsClear format (writeAttribute base (last % UInt64.size) a).1) :
    Clear (Segment.renderAll format (writeAttribute base (last % UInt64.size) a).1).toList := by
  rw [writeAttribute_fst] at hfields ⊢
  have hshown : Clear (Segment.renderAll format (shownValue base (addWord last 1) a)).toList :=
    clear_shownValue hname hvalue (by simpa [Segment.FieldsClear] using hfields)
  have hsigns : Clear " ".toList ∧ Clear "=\"".toList ∧ Clear "\"".toList := by decide
  simp only [Segment.renderAll_append, Segment.renderAll_cons, Segment.renderAll_nil, Segment.render,
    String.toList_append, clear_append]
  exact ⟨⟨⟨⟨hsigns.1, hname⟩, hsigns.2.1⟩, hshown⟩, hsigns.2.2, clear_nil⟩

theorem clear_writeAttributes {format : FieldFormat} {base last : Nat} {as : List Attribute}
    (hnames : ∀ a ∈ as, Clear a.name.toList) (hvalues : ∀ a ∈ as, ∀ v ∈ a.value, v.Clear)
    (hfields : Segment.FieldsClear format (writeAttributes base (last % UInt64.size) as).1) :
    Clear (Segment.renderAll format (writeAttributes base (last % UInt64.size) as).1).toList := by
  induction as generalizing last with
  | nil => exact clear_nil
  | cons a as ih =>
      obtain ⟨hname, hnames⟩ := List.forall_mem_cons.mp hnames
      obtain ⟨hvalue, hvalues⟩ := List.forall_mem_cons.mp hvalues
      obtain ⟨hfirst, hrest⟩ := Segment.fieldsClear_append.mp hfields
      rw [writeAttribute_snd] at hrest
      rw [writeAttributes, Segment.renderAll_append, String.toList_append, clear_append,
        writeAttribute_snd]
      exact ⟨clear_writeAttribute hname hvalue hfirst, ih hnames hvalues hrest⟩

/-- An opening tag is one tag. -/
theorem tagged_writeOpening {format : FieldFormat} {base : Nat} {name : String} {e : Element}
    (hname : Clear name.toList) (he : ClearElement e) (closes : Bool)
    (hfields : Segment.FieldsClear format (writeOpening base name e).1) :
    Tagged format (writeOpening base name e).1
      [.opening name (shownAttributes format base (base + e.maxField) e.attributes) closes] := by
  have hattributes : Clear (Segment.renderAll format
      (writeAttributes base (addWord base e.maxField) e.attributes).1).toList := by
    refine clear_writeAttributes he.attributeNames he.attributeValues ?_
    simpa [writeOpening, Segment.FieldsClear, addWord] using hfields
  refine Tagged.of_text (s := name.toList ++ (Segment.renderAll format
    (writeAttributes base (addWord base e.maxField) e.attributes).1).toList)
    (clear_append.mpr ⟨hname, hattributes⟩).2 ?_ ?_
  · simp [Tag.text, addWord, renderAll_writeAttributes]
  · simp [writeOpening, Segment.render]

theorem tagged_writeClosing {format : FieldFormat} {name : String} (hname : Clear name.toList) :
    Tagged format (writeClosing name) [.closing name] := by
  have hslash : '>' ∉ '/' :: name.toList := by
    rw [List.mem_cons, not_or]
    exact ⟨by decide, hname.2⟩
  exact Tagged.of_text hslash (by simp [Tag.text]) (by simp [writeClosing, Segment.render])

section

variable {o : Options} (hnewline : Clear o.newline.toList) (hindent : Clear o.indent.toList)
include hnewline hindent

theorem clear_newline (level : Nat) : Clear ((newline o level).render o.field).toList := by
  have hlevel : ∀ n, Clear (String.join (List.replicate n o.indent)).toList := by
    intro n
    induction n with
    | zero => exact clear_nil
    | succ n ih =>
        rw [List.replicate_succ, String.join_cons, String.toList_append, clear_append]
        exact ⟨hindent, ih⟩
  rw [newline, Segment.render, String.toList_append, clear_append]
  exact ⟨hnewline, hlevel level⟩

theorem tagged_lineBreak (level : Nat) (broke : Bool) :
    Tagged o.field (if broke then [newline o level] else []) [] := by
  apply Tagged.of_clear
  cases broke with
  | false => exact clear_nil
  | true => simpa using clear_newline hnewline hindent level

theorem tagged_writeHole (name : String) (level inner index : Nat)
    (hfields : Segment.FieldsClear o.field (writeHole o name level inner index)) :
    Tagged o.field (writeHole o name level inner index) [] := by
  apply Tagged.of_clear
  rw [Segment.FieldsClear, calls_writeHole, List.forall_mem_singleton] at hfields
  have hinner := clear_newline hnewline hindent inner
  have houter := clear_newline hnewline hindent level
  rw [writeHole]
  split
  · simpa [clear_append, Segment.render] using ⟨hinner, hfields, houter⟩
  · simpa [Segment.render] using hfields

mutual

theorem tagged_writeNode (level : Nat) {pen : Pen} {n : Nat}
    (hpen : pen.lastField = n % UInt64.size) :
    (node : Node) → ClearNode node →
    Segment.FieldsClear o.field (writeNode o level pen node).segments →
    Tagged o.field (writeNode o level pen node).segments (tagsOfNode o.field n node)
  | .group _ children, hnode, hfields => by
    rw [ClearNode] at hnode
    rw [writeNode_group] at hfields ⊢
    rw [tagsOfNode]
    exact tagged_writeLevel level _ hpen children hnode hfields
  | .element e _ children, hnode, hfields => by
    rw [ClearNode] at hnode
    obtain ⟨he, hchildren⟩ := hnode
    cases hname : e.shownName with
    | none =>
        rw [writeNode_unnamed _ _ _ _ hname, Segment.fieldsClear_append] at hfields
        rw [writeNode_unnamed _ _ _ _ hname]
        simp only [tagsOfNode, hname]
        exact (Tagged.of_clear (clear_writeText he hfields.1)).append
          (tagged_writeLevel level _ (lastField_penAfterText hpen e) children hchildren hfields.2)
    | some name =>
        have hclear : Clear name.toList := he.name name hname
        have hinside := lastField_penInside hpen name e
        simp only [tagsOfNode, hname]
        cases hclosed : isVoid name || e.selfClosing with
        | true =>
            rw [writeNode_unclosed _ _ _ _ hname hclosed, hpen, writeOpening_mod] at hfields ⊢
            exact tagged_writeOpening hclear he false hfields
        | false =>
            cases children with
            | cons child children =>
                rw [writeNode_parent _ _ _ _ hname hclosed (List.cons_ne_nil _ _), hpen,
                  writeOpening_mod] at hfields ⊢
                simp only [Segment.fieldsClear_append] at hfields
                obtain ⟨⟨⟨⟨hopening, htext⟩, hinner⟩, -⟩, -⟩ := hfields
                have hlevel := tagged_writeLevel (innerLevel name level)
                  (breaks o (isSpread name) (child :: children)) hinside
                  (child :: children) hchildren hinner
                have hfront := (tagged_writeOpening hclear he true hopening).append
                  (Tagged.of_clear (clear_writeText he htext))
                have hbreak := tagged_lineBreak hnewline hindent level
                  (writeLevel o (innerLevel name level)
                    (breaks o (isSpread name) (child :: children)) (penInside pen name e)
                    (child :: children)).broke
                simpa using
                  ((hfront.append hlevel).append hbreak).append (tagged_writeClosing hclear)
            | nil =>
                cases htext : e.text with
                | some text =>
                    rw [writeNode_text _ _ _ _ hname hclosed (by rw [htext]; rfl), hpen,
                      writeOpening_mod] at hfields ⊢
                    simp only [Segment.fieldsClear_append] at hfields
                    obtain ⟨⟨hopening, hshown⟩, -⟩ := hfields
                    simpa [tagsOfLevel] using
                      ((tagged_writeOpening hclear he true hopening).append
                        (Tagged.of_clear (clear_writeText he hshown))).append
                        (tagged_writeClosing hclear)
                | none =>
                    rw [writeNode_empty _ _ _ _ hname hclosed htext, hpen,
                      writeOpening_mod] at hfields ⊢
                    simp only [Segment.fieldsClear_append] at hfields
                    obtain ⟨⟨hopening, hhole⟩, -⟩ := hfields
                    simpa [tagsOfLevel] using
                      ((tagged_writeOpening hclear he true hopening).append
                        (tagged_writeHole hnewline hindent _ _ _ _ hhole)).append
                        (tagged_writeClosing hclear)

/-- A level is written with its tags and no others. -/
theorem tagged_writeLevel (level : Nat) (onLines : Bool) {pen : Pen} {n : Nat}
    (hpen : pen.lastField = n % UInt64.size) :
    (forest : Forest) → ClearForest forest →
    Segment.FieldsClear o.field (writeLevel o level onLines pen forest).segments →
    Tagged o.field (writeLevel o level onLines pen forest).segments
      (tagsOfLevel o.field n forest)
  | [], _, _ => by
    rw [writeLevel, tagsOfLevel]
    exact Tagged.of_clear clear_nil
  | node :: rest, hforest, hfields => by
    rw [ClearForest] at hforest
    rw [writeLevel_cons] at hfields ⊢
    simp only [Segment.fieldsClear_append] at hfields
    obtain ⟨⟨-, hfirst⟩, hothers⟩ := hfields
    rw [tagsOfLevel]
    exact ((tagged_lineBreak hnewline hindent level _).append
      (tagged_writeNode level hpen node hforest.1 hfirst)).append
      (tagged_writeLevel level onLines (lastField_writeNode o level hpen node) rest hforest.2
        hothers)

end

end

/-- A forest whose output has no angle brackets but those of its tags: there are none in its names,
values and texts, in the layout, nor in what its tab-stops are shown with. -/
structure BracketFree (o : Options) (forest : Forest) : Prop where
  newline : Clear o.newline.toList
  indent : Clear o.indent.toList
  nodes : ClearForest forest
  fields : Segment.FieldsClear o.field (segments o forest)

/-- **The tags of the output are the tags of the forest.** What stands between angle brackets in the
output are the forest's tags, in order, whatever the layout; and they are properly nested. -/
theorem pieces_html (o : Options) (forest : Forest) (h : BracketFree o forest) :
    pieces none (html o forest).toList = (tags o.field forest).map (·.text.toList) ∧
      openNames [] (tags o.field forest) = some [] := by
  refine ⟨?_, openNames_tags o.field forest⟩
  have hpen : ({} : Pen).lastField = 0 % UInt64.size := rfl
  have htagged := tagged_writeLevel h.newline h.indent 0 (breaks o false forest) hpen forest h.nodes
    h.fields []
  rwa [List.append_nil, pieces, List.append_nil] at htagged

/-- A group, an element without closing tag whose text and child are not shown, a text with children,
and attributes with and without values. -/
def mixedForest : Forest :=
  [.group none
    [.element { name := some [.text "body"], attributes := [⟨"title", none⟩] } none
      [.element { name := some [.text "br"], text := some [.text "x"] } none
          [.element { name := some [.text "em"] } none []],
        .element { text := some [.text "y", .field 1 (some "z")] } none
          [.element
              { name := some [.text "p"],
                attributes := [⟨"id", some [.field 1 none, .text "a"]⟩, ⟨"checked", none⟩] }
              none [],
            .element { name := some [.text "div"], selfClosing := true } none []]]]]

theorem pieces_html_mixedForest :
    let o : Options := { field := FieldFormat.snippet }
    BracketFree o mixedForest ∧
      pieces none (html o mixedForest).toList =
        ["<body title=\"$\x7b1\x7d\">", "<br>", "<p id=\"$\x7b3\x7da\" checked=\"checked\">", "</p>",
          "<div>", "</body>"].map String.toList := by
  intro o
  have hfree : BracketFree o mixedForest :=
    ⟨by decide, by decide, by decide +kernel, by decide +kernel⟩
  refine ⟨hfree, (pieces_html o mixedForest hfree).1.trans ?_⟩
  decide +kernel

end Markup.Html

end Shorthand
