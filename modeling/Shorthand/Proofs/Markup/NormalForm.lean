import Shorthand.Expand
import Shorthand.Proofs.Value.Printing

/-!
# NormalForm — what is left when an abbreviation has been expanded

Snippets bring in groups and repeat counts, placeholder text takes names away, and any value may be
numbered. Whatever the forest that comes out of that, naming and unrolling leave nothing of it:
`parse_finished` says that the result is finished (`Forest.Finished`), and that naming or unrolling
it once more would change nothing.

Unrolling is followed by one invariant, `Unrolled.Sound`: what has been made is finished, it has been
counted, and the count is within the limit.
-/

namespace Shorthand

/-! ## Finished values -/

/-- A value with nothing left to number or to join: no numbering, and no two texts next to each
other. -/
def Value.Finished : Value → Prop
  | [] => True
  | t :: v =>
    (∀ n, t ≠ .number n) ∧ (t.isText = true → ∀ u ∈ v.head?, u.isText = false) ∧ Finished v

namespace Value

theorem Finished.consText (s : String) {v : Value} (h : v.Finished) : (v.consText s).Finished := by
  cases v with
  | nil => simp [Value.consText, Finished]
  | cons t v =>
      cases t with
      | text old => simpa [Value.consText, Finished, Token.isText] using h
      | field index placeholder => simpa [Value.consText, Finished, Token.isText] using h
      | number n => exact absurd rfl (h.1 n)

theorem finished_numbered (copy : Copy) (v : Value) : (v.numbered copy).Finished := by
  induction v with
  | nil => trivial
  | cons t v ih =>
      cases t with
      | text s => exact ih.consText s
      | number n => exact ih.consText (n.format copy)
      | field index placeholder => exact ⟨by simp, by simp [Token.isText], ih⟩

/-- A text in front of a value that does not start with one stays a token of its own. -/
theorem consText_of_head {s : String} {v : Value} (h : ∀ u ∈ v.head?, u.isText = false) :
    v.consText s = .text s :: v := by
  cases v with
  | nil => rfl
  | cons t v =>
      cases t with
      | text old => exact absurd (h (.text old) rfl) (by simp [Token.isText])
      | field index placeholder => rfl
      | number n => rfl

theorem numbered_of_finished (copy : Copy) {v : Value} (h : v.Finished) : v.numbered copy = v := by
  induction v with
  | nil => rfl
  | cons t v ih =>
      obtain ⟨hnumber, hnext, hrest⟩ := h
      cases t with
      | text s => rw [numbered, ih hrest, consText_of_head (hnext rfl)]
      | field index placeholder => rw [numbered, ih hrest]
      | number n => exact absurd rfl (hnumber n)

end Value

namespace Markup

/-! ## Finished forests -/

/-- An element that needs no name: it has one, or it is text alone. -/
def Element.Named (e : Element) : Prop := e.name.isSome = true ∨ e.isText = true

/-- An element with a name, unless it is text alone, and with finished values. -/
structure Element.Finished (e : Element) : Prop where
  named : e.Named
  name : ∀ v ∈ e.name, v.Finished
  attributes : ∀ a ∈ e.attributes, ∀ v ∈ a.value, v.Finished
  text : ∀ v ∈ e.text, v.Finished

mutual

/-- A finished node: an element, not repeated, with finished children. -/
def Node.Finished : Node → Prop
  | .element e times children => e.Finished ∧ times = none ∧ Forest.Finished children
  | .group _ _ => False

/-- A forest whose nodes are finished. -/
def Forest.Finished : Forest → Prop
  | [] => True
  | node :: rest => node.Finished ∧ Forest.Finished rest

end

theorem Node.Finished.times_eq {node : Node} (h : node.Finished) : node.times = none := by
  cases node with
  | element e times children =>
      rw [Node.Finished] at h
      exact h.2.1
  | group times children => simp only [Node.Finished] at h

mutual

/-- How many elements a node has, itself included. -/
def Node.elements : Node → Nat
  | .element _ _ children => Forest.elements children + 1
  | .group _ children => Forest.elements children

/-- How many elements a forest has. -/
def Forest.elements : Forest → Nat
  | [] => 0
  | node :: rest => node.elements + Forest.elements rest

end

theorem Forest.Finished.append {xs ys : Forest} (hxs : Forest.Finished xs)
    (hys : Forest.Finished ys) : Forest.Finished (xs ++ ys) := by
  induction xs with
  | nil => exact hys
  | cons node xs ih =>
      rw [Forest.Finished] at hxs
      rw [List.cons_append, Forest.Finished]
      exact ⟨hxs.1, ih hxs.2⟩

@[simp] theorem Forest.elements_append (xs ys : Forest) :
    Forest.elements (xs ++ ys) = Forest.elements xs + Forest.elements ys := by
  induction xs with
  | nil => simp [Forest.elements]
  | cons node xs ih => simp only [List.cons_append, Forest.elements, ih, Nat.add_assoc]

/-! ## Naming -/

mutual

/-- A node in which no element needs a name. -/
def Node.Named : Node → Prop
  | .element e _ children => e.Named ∧ Forest.Named children
  | .group _ children => Forest.Named children

/-- A forest in which no element needs a name. -/
def Forest.Named : Forest → Prop
  | [] => True
  | node :: rest => node.Named ∧ Forest.Named rest

end

theorem Element.named_nameImplicitly (parent : Option String) (e : Element) :
    (e.nameImplicitly parent).Named := by
  rw [Element.nameImplicitly]
  split
  · exact .inl rfl
  · next h =>
    rw [Element.Named]
    cases hname : e.name with
    | none => exact .inr (by simpa [hname] using h)
    | some name => exact .inl rfl

theorem Element.nameImplicitly_of_named (parent : Option String) {e : Element} (h : e.Named) :
    e.nameImplicitly parent = e := by
  rw [Element.nameImplicitly, if_neg]
  rcases h with h | h
  · rw [Option.isNone_eq_false_iff.mpr h]
    simp
  · simp [h]

mutual

theorem Node.named_nameImplicitly : ∀ (node : Node) (parent : Option String),
    (node.nameImplicitly parent).Named
  | .element e times children, parent => by
      simp only [Node.nameImplicitly, Node.Named]
      exact ⟨e.named_nameImplicitly parent, Forest.named_nameWithin children _⟩
  | .group times children, parent => by
      simp only [Node.nameImplicitly, Node.Named]
      exact Forest.named_nameWithin children parent

/-- Naming leaves no element that needs a name. -/
theorem Forest.named_nameWithin : ∀ (forest : Forest) (parent : Option String),
    Forest.Named (Forest.nameWithin parent forest)
  | [], _ => by simp only [Forest.nameWithin, Forest.Named]
  | node :: rest, parent => by
      simp only [Forest.nameWithin, Forest.Named]
      exact ⟨Node.named_nameImplicitly node parent, Forest.named_nameWithin rest parent⟩

end

mutual

theorem Node.nameImplicitly_of_finished : ∀ (node : Node) (parent : Option String),
    node.Finished → node.nameImplicitly parent = node
  | .element e times children, parent, h => by
      rw [Node.Finished] at h
      simp only [Node.nameImplicitly, Element.nameImplicitly_of_named parent h.1.named]
      rw [Forest.nameWithin_of_finished children _ h.2.2]

/-- A finished forest has its names. -/
theorem Forest.nameWithin_of_finished : ∀ (forest : Forest) (parent : Option String),
    Forest.Finished forest → Forest.nameWithin parent forest = forest
  | [], _, _ => by rw [Forest.nameWithin]
  | node :: rest, parent, h => by
      rw [Forest.Finished] at h
      rw [Forest.nameWithin, Node.nameImplicitly_of_finished node parent h.1,
        Forest.nameWithin_of_finished rest parent h.2]

end

/-! ## Unrolling -/

theorem Element.finished_numbered (copy : Copy) {e : Element} (h : e.Named) :
    (e.numbered copy).Finished := by
  have hmap : ∀ v : Option Value, ∀ w ∈ v.map (Value.numbered copy), w.Finished := by
    intro v w hw
    obtain ⟨u, _, rfl⟩ := Option.map_eq_some_iff.mp hw
    exact Value.finished_numbered copy u
  refine ⟨?_, hmap e.name, ?_, hmap e.text⟩
  · simpa [Element.Named, Element.numbered, Element.isText] using h
  · intro a ha
    obtain ⟨written, _, rfl⟩ := List.mem_map.mp ha
    exact hmap written.value

theorem Element.numbered_of_finished (copy : Copy) {e : Element} (h : e.Finished) :
    e.numbered copy = e := by
  have hmap : ∀ v : Option Value, (∀ w ∈ v, w.Finished) → v.map (Value.numbered copy) = v := by
    intro v hv
    cases v with
    | none => rfl
    | some w => rw [Option.map_some, Value.numbered_of_finished copy (hv w rfl)]
  have hattributes : e.attributes.map
      (fun a => { a with value := a.value.map (Value.numbered copy) }) = e.attributes := by
    refine (List.map_congr_left ?_).trans e.attributes.map_id
    intro a ha
    rw [hmap _ (h.attributes a ha), id]
  rw [Element.numbered, hmap _ h.name, hattributes, hmap _ h.text]

/-- The copies of a node, or the one that there is without a repeat count. -/
def Node.copies (limits : Limits) (copy : Copy) (made : Nat) (node : Node) :
    Except Error Unrolled :=
  match node.times with
  | some count => makeCopies count (fun copy made => node.unroll limits copy made) count made
  | none => node.unroll limits copy made

theorem Forest.unrollFrom_cons (limits : Limits) (copy : Copy) (made : Nat) (node : Node)
    (rest : Forest) :
    Forest.unrollFrom limits copy made (node :: rest) = (do
      let first ← node.copies limits copy made
      let others ← Forest.unrollFrom limits copy first.made rest
      return { nodes := first.nodes ++ others.nodes, made := others.made }) := by
  rw [Forest.unrollFrom, Node.copies]
  cases node.times <;> rfl

/-- What holds when unrolling has gone on from `made` elements: all that is there now is finished,
it has been counted, and there are not too many. -/
structure Unrolled.Sound (limits : Limits) (made : Nat) (u : Unrolled) : Prop where
  finished : Forest.Finished u.nodes
  counted : u.made = made + Forest.elements u.nodes
  fits : made ≤ limits.elements → u.made ≤ limits.elements

namespace Unrolled.Sound

variable {limits : Limits}

theorem nil (limits : Limits) (made : Nat) : Sound limits made { nodes := [], made } :=
  ⟨by simp only [Forest.Finished], by simp [Forest.elements], id⟩

theorem append {made : Nat} {first others : Unrolled} (hfirst : first.Sound limits made)
    (hothers : others.Sound limits first.made) :
    Sound limits made { nodes := first.nodes ++ others.nodes, made := others.made } where
  finished := hfirst.finished.append hothers.finished
  counted := by rw [hothers.counted, hfirst.counted, Forest.elements_append, Nat.add_assoc]
  fits := fun h => hothers.fits (hfirst.fits h)

/-- If each copy is sound, all of them are. -/
theorem makeCopies {count : Nat} {make : Copy → Nat → Except Error Unrolled}
    (hmake : ∀ copy made u, make copy made = .ok u → u.Sound limits made) (left : Nat) {made : Nat}
    {u : Unrolled} (h : Markup.makeCopies count make left made = .ok u) : u.Sound limits made := by
  induction left generalizing made u with
  | zero =>
      cases h
      exact nil limits made
  | succ left ih =>
      rw [Markup.makeCopies] at h
      obtain ⟨first, hfirst, h⟩ := bind_eq_ok.mp h
      obtain ⟨rest, hrest, h⟩ := bind_eq_ok.mp h
      cases h
      exact (hmake _ _ _ hfirst).append (ih hrest)

end Unrolled.Sound

mutual

theorem Node.sound_unroll {limits : Limits} : ∀ (node : Node) {copy : Copy} {made : Nat}
    {u : Unrolled}, node.Named → node.unroll limits copy made = .ok u → u.Sound limits made
  | .element e times children, copy, made, u, hnamed, h => by
      rw [Node.Named] at hnamed
      rw [Node.unroll] at h
      split at h
      · next hroom =>
        obtain ⟨inner, hinner, h⟩ := bind_eq_ok.mp h
        cases h
        -- the children are counted after the element itself
        have hsound := Forest.sound_unrollFrom children hnamed.2 hinner
        constructor
        · simp only [Forest.Finished, Node.Finished]
          exact ⟨⟨e.finished_numbered copy hnamed.1, trivial, hsound.finished⟩, trivial⟩
        · simp only [Forest.elements, Node.elements, hsound.counted]
          omega
        · intro _
          exact hsound.fits hroom
      · cases h
  | .group times children, copy, made, u, hnamed, h => by
      rw [Node.Named] at hnamed
      rw [Node.unroll] at h
      exact Forest.sound_unrollFrom children hnamed h

theorem Forest.sound_unrollFrom {limits : Limits} : ∀ (forest : Forest) {copy : Copy} {made : Nat}
    {u : Unrolled}, Forest.Named forest → Forest.unrollFrom limits copy made forest = .ok u →
    u.Sound limits made
  | [], copy, made, u, _, h => by
      rw [Forest.unrollFrom] at h
      cases h
      exact .nil limits made
  | node :: rest, copy, made, u, hnamed, h => by
      rw [Forest.Named] at hnamed
      rw [Forest.unrollFrom_cons] at h
      obtain ⟨first, hfirst, h⟩ := bind_eq_ok.mp h
      obtain ⟨others, hothers, h⟩ := bind_eq_ok.mp h
      cases h
      -- what comes first is sound as well, whether it is repeated or not
      refine Unrolled.Sound.append ?_ (Forest.sound_unrollFrom rest hnamed.2 hothers)
      rw [Node.copies] at hfirst
      split at hfirst
      · exact .makeCopies (fun _ _ _ => Node.sound_unroll node hnamed.1) _ hfirst
      · exact Node.sound_unroll node hnamed.1 hfirst

end

mutual

theorem Node.unroll_of_finished (limits : Limits) : ∀ (node : Node) (copy : Copy) (made : Nat),
    node.Finished → made + node.elements ≤ limits.elements →
    node.unroll limits copy made = .ok { nodes := [node], made := made + node.elements }
  | .element e times children, copy, made, h, hroom => by
      rw [Node.Finished] at h
      obtain ⟨he, rfl, hchildren⟩ := h
      rw [Node.elements] at hroom ⊢
      have hinner := Forest.unrollFrom_of_finished limits children copy (made + 1) hchildren
        (by omega)
      rw [Node.unroll, if_pos (by omega), e.numbered_of_finished copy he, hinner, Nat.add_assoc,
        Nat.add_comm 1]
      rfl

/-- A finished forest that is small enough has no repetition left to write out. -/
theorem Forest.unrollFrom_of_finished (limits : Limits) : ∀ (forest : Forest) (copy : Copy)
    (made : Nat), Forest.Finished forest → made + Forest.elements forest ≤ limits.elements →
    Forest.unrollFrom limits copy made forest =
      .ok { nodes := forest, made := made + Forest.elements forest }
  | [], _, _, _, _ => by rw [Forest.unrollFrom, Forest.elements, Nat.add_zero]
  | node :: rest, copy, made, h, hroom => by
      rw [Forest.Finished] at h
      rw [Forest.elements] at hroom ⊢
      have hfirst := Node.unroll_of_finished limits node copy made h.1 (by omega)
      have hothers := Forest.unrollFrom_of_finished limits rest copy (made + node.elements) h.2
        (by omega)
      rw [Forest.unrollFrom_cons, Node.copies, h.1.times_eq, hfirst, ← Nat.add_assoc]
      simp only [bind, Except.bind, hothers]
      rfl

end

/-! ## The result of parsing -/

/-- **Inversion of parsing**: what is parsed has been read, its snippets were expanded, and it was
named and unrolled. -/
theorem stages_of_parse {limits : Limits} {abbreviation : String} {forest : Forest}
    (h : parse limits abbreviation = .ok forest) :
    ∃ written expanded, read limits abbreviation = .ok written ∧
      expandSnippets limits written = .ok expanded ∧
      unroll limits (nameImplicitly expanded) = .ok forest := by
  rw [parse] at h
  obtain ⟨written, hwritten, h⟩ := bind_eq_ok.mp h
  obtain ⟨expanded, hexpanded, h⟩ := bind_eq_ok.mp h
  exact ⟨written, expanded, mapError_eq_ok.mp hwritten, hexpanded, mapError_eq_ok.mp h⟩

/-- Reading, expanding snippets and naming leave groups, repeat counts and numberings; after
unrolling there are none, and neither naming nor unrolling finds anything more to do. -/
theorem parse_finished {limits : Limits} {abbreviation : String} {forest : Forest}
    (h : parse limits abbreviation = .ok forest) :
    Forest.Finished forest ∧ nameImplicitly forest = forest ∧ unroll limits forest = .ok forest := by
  obtain ⟨_, expanded, _, _, h⟩ := stages_of_parse h
  rw [unroll] at h
  obtain ⟨u, hu, h⟩ := bind_eq_ok.mp h
  cases h
  have hsound : u.Sound limits 0 :=
    Forest.sound_unrollFrom _ (Forest.named_nameWithin expanded none) hu
  refine ⟨hsound.finished, Forest.nameWithin_of_finished _ _ hsound.finished, ?_⟩
  -- the same elements are counted again, and they have fitted before
  have hroom : 0 + Forest.elements u.nodes ≤ limits.elements :=
    hsound.counted ▸ hsound.fits (Nat.zero_le _)
  rw [unroll, Forest.unrollFrom_of_finished limits u.nodes .only 0 hsound.finished hroom]
  rfl

/-- An abbreviation with a snippet, placeholder text, a group, repetition and numberings. -/
theorem parse_finished_mixed :
    ∃ forest, parse {} "ul+>lorem3.x+(.item$*2>{a$@3})+{$}" = .ok forest ∧
      Forest.Finished forest ∧ nameImplicitly forest = forest ∧ unroll {} forest = .ok forest := by
  cases h : parse {} "ul+>lorem3.x+(.item$*2>{a$@3})+{$}" with
  | ok forest => exact ⟨forest, rfl, parse_finished h⟩
  | error e =>
      have hok : (parse {} "ul+>lorem3.x+(.item$*2>{a$@3})+{$}").toBool = true := by decide +kernel
      rw [h] at hok
      cases hok

end Markup

end Shorthand
