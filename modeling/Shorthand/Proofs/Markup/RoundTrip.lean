import Shorthand.Proofs.Markup.PrintedElement

/-!
# Reading undoes printing

A canonical forest is read back from its printout (`read_print_forest`).

The reader never goes back up by itself: when a node has been written, the reader is as deep as the
last descendant of the node. So the invariant `Reads` does not say where the reader is. It says what
comes of going on from there: finishing gives the same as finishing with the nodes in place, and
climbing the levels that are open gives the place with the nodes added. Each construct of the
language has one lemma that keeps `Reads`, and the tree is put together from them.
-/

namespace Shorthand.Markup

open Text

/-! ## Places -/

namespace Place

/-- The place with more nodes at the end of its level. -/
def extend (more : Forest) : Place → Place
  | .top nodes => .top (nodes ++ more)
  | .group outer opened nodes => .group outer opened (nodes ++ more)
  | .under outer parent nodes => .under outer parent (nodes ++ more)

theorem extend_singleton (place : Place) (node : Node) : place.extend [node] = place.push node := by
  cases place <;> rfl

theorem extend_push (place : Place) (node : Node) (more : Forest) :
    (place.push node).extend more = place.extend (node :: more) := by
  cases place <;> simp [push, extend]

theorem finish_push (place : Place) (node : Node) (more : Forest) :
    (place.push node).finish more = place.finish (node :: more) := by
  cases place <;> simp [push, finish]

@[simp] theorem depth_push (place : Place) (node : Node) :
    (place.push node).depth = place.depth := by
  cases place <;> rfl

@[simp] theorem climb_zero (place : Place) : place.climb 0 = place := by
  cases place <;> rfl

theorem climb_add (a b : Nat) (place : Place) : place.climb (a + b) = (place.climb a).climb b := by
  induction a generalizing place with
  | zero => rw [Nat.zero_add, climb_zero]
  | succ a ih =>
      rw [Nat.succ_add]
      cases place with
      | top nodes => cases b <;> rfl
      | group outer opened nodes => cases b <;> rfl
      | under outer parent nodes => exact ih _

end Place

/-! ## Where a printed level starts -/

/-- No range of letters has a blank in it. -/
theorem letterRanges_avoid_blanks :
    letterRanges.toList.all (fun r => 0xA0 < r.1 && (r.2 < 0x1680 || 0x1680 < r.1) &&
      (r.2 < 0x2000 || 0x200A < r.1) && (r.2 < 0x2028 || 0x2029 < r.1) &&
      (r.2 < 0x202F || 0x202F < r.1) && (r.2 < 0x205F || 0x205F < r.1) &&
      (r.2 < 0x3000 || 0x3000 < r.1)) = true := by
  decide +kernel

theorem isBlank_eq_false_of_mem_letterRanges {c : Char} {r : Nat × Nat}
    (hr : r ∈ letterRanges.toList) (hlow : r.1 ≤ c.toNat) (hhigh : c.toNat ≤ r.2) :
    isBlank c = false := by
  have hfree := List.all_eq_true.mp letterRanges_avoid_blanks r hr
  simp only [Bool.and_eq_true, Bool.or_eq_true, decide_eq_true_eq] at hfree
  simp only [isBlank, Bool.or_eq_false_iff, Bool.and_eq_false_iff, decide_eq_false_iff_not,
    beq_eq_false_iff_ne]
  omega

theorem isNameChar_not_blank {c : Char} (h : isNameChar c = true) : isBlank c = false := by
  by_cases hascii : c.toNat < 0x80
  · -- of the ASCII characters only six are blank
    refine Bool.eq_false_iff.mpr fun hblank => ?_
    have hcode : c.toNat = 9 ∨ c.toNat = 10 ∨ c.toNat = 11 ∨ c.toNat = 12 ∨ c.toNat = 13 ∨
        c.toNat = 32 := by
      simp only [isBlank, Bool.or_eq_true, Bool.and_eq_true, decide_eq_true_eq,
        beq_iff_eq] at hblank
      omega
    rw [← Char.ofNat_toNat c] at h
    rcases hcode with hc | hc | hc | hc | hc | hc <;> rw [hc] at h <;> exact absurd h (by decide)
  · have hletter : isLetterOrDigit c = true := by
      simp only [isNameChar, Bool.or_eq_true, beq_iff_eq] at h
      rcases h with (((h | rfl) | rfl) | rfl) | rfl
      · exact h
      all_goals exact absurd (by decide) hascii
    rw [isLetterOrDigit, if_neg hascii, ← Array.any_toList, List.any_eq_true] at hletter
    obtain ⟨r, hr, hin⟩ := hletter
    simp only [Bool.and_eq_true, decide_eq_true_eq] at hin
    exact isBlank_eq_false_of_mem_letterRanges hr hin.1 hin.2

/-- The characters a printed node can start with. -/
def startsNode (c : Char) : Bool := startsElement c || c == '('

theorem Node.Canonical.print_eq_cons {limits : Limits} {node : Node} (h : node.Canonical limits) :
    ∃ c s, node.print = c :: s ∧ startsNode c = true := by
  cases node with
  | element e times children =>
      simp only [Node.Canonical] at h
      obtain ⟨c, s, hc, hstart⟩ := h.1.print_eq_cons
      rw [Node.print, hc, List.cons_append]
      exact ⟨c, _, rfl, by simp [startsNode, hstart]⟩
  | group times children =>
      rw [Node.print]
      exact ⟨'(', _, rfl, by decide⟩

theorem Forest.Canonical.print_eq_cons {limits : Limits} {forest : Forest}
    (h : Forest.Canonical limits forest) (hne : forest ≠ []) :
    ∃ c s, Forest.print forest = c :: s ∧ startsNode c = true := by
  obtain ⟨node, rest, rfl⟩ := List.exists_cons_of_ne_nil hne
  rw [Forest.Canonical] at h
  obtain ⟨c, s, hc, hstart⟩ := h.1.print_eq_cons
  cases rest with
  | nil =>
      rw [Forest.print, hc]
      exact ⟨c, s, rfl, hstart⟩
  | cons next rest =>
      rw [Forest.print, hc, List.cons_append]
      exact ⟨c, _, rfl, hstart⟩

theorem endsLevel_of_startsNode {c : Char} (h : startsNode c = true) (s : List Char) :
    endsLevel (c :: s) = false := by
  have hne : c ≠ ')' ∧ c ≠ '^' ∧ c ≠ '>' := by
    refine ⟨?_, ?_, ?_⟩ <;> rintro rfl <;> exact absurd h (by decide)
  simp [endsLevel, hne]

theorem isBlank_of_startsNode {c : Char} (h : startsNode c = true) : isBlank c = false := by
  simp only [startsNode, startsElement, Bool.or_eq_true, beq_iff_eq] at h
  rcases h with (((h | rfl) | rfl) | rfl) | rfl
  · exact isNameChar_not_blank h
  · decide
  · decide
  · decide
  · decide

/-! ## Steps over a printout -/

namespace Reading

/-- A step that leads on is passed over. -/
theorem run_of_more {limits : Limits} {r next : Reading} (h : r.step limits = .ok (.more next)) :
    r.run limits = next.run limits := by
  rw [run]
  split
  · next hfault => rw [h] at hfault; cases hfault
  · next hdone => rw [h] at hdone; cases hdone
  · next hmore => rw [h] at hmore; cases hmore; rfl

theorem run_of_done {limits : Limits} {r : Reading} {forest : Forest}
    (h : r.step limits = .ok (.done forest)) : r.run limits = .ok forest := by
  rw [run]
  split
  · next hfault => rw [h] at hfault; cases hfault
  · next hdone => rw [h] at hdone; cases hdone; rfl
  · next hmore => rw [h] at hmore; cases hmore

theorem take_print {limits : Limits} {times : Option Nat} (ht : RepeatFits limits times)
    {rest : List Char} (hrest : FollowsNode rest) (place : Place) (node : Node) :
    take limits place node (printTimes times ++ rest) =
      .ok (.more ⟨place, some (node.withTimes times), rest⟩) := by
  rw [take, readTimes_print ht hrest]

theorem step_element {limits : Limits} {e : Element} (he : e.Canonical) {times : Option Nat}
    (ht : RepeatFits limits times) {rest : List Char} (hrest : FollowsNode rest) (place : Place) :
    step limits ⟨place, none, e.print ++ (printTimes times ++ rest)⟩ =
      .ok (.more ⟨place, some (.element e times []), rest⟩) := by
  have hread := readElement_print he (hrest.printTimes times)
  obtain ⟨c, s, hc, hstart⟩ := he.print_eq_cons
  have hgroup : c ≠ '(' := by
    rintro rfl
    exact absurd hstart (by decide)
  rw [hc, List.cons_append] at hread
  simp only [step, hc, List.cons_append]
  rw [stepNode, hread]
  · exact take_print ht hrest place _
  · intro tail heq
    exact hgroup (List.cons.inj heq).1

theorem step_open {limits : Limits} {place : Place} (hdepth : place.depth + 1 ≤ limits.depth)
    (s : List Char) :
    step limits ⟨place, none, '(' :: s⟩ = .ok (.more ⟨.group place ('(' :: s) [], none, s⟩) := by
  simp only [step, stepNode, enter, Place.depth]
  exact if_pos hdepth

theorem step_child {limits : Limits} {place : Place} (hdepth : place.depth + 1 ≤ limits.depth)
    (node : Node) (s : List Char) :
    step limits ⟨place, some node, '>' :: s⟩ = .ok (.more ⟨.under place node [], none, s⟩) := by
  simp only [step, stepOperator, enter, Place.depth]
  exact if_pos hdepth

theorem step_close {limits : Limits} {place outer : Place} {last : Node} {nodes : Forest}
    {opened : List Char} (hfinish : place.finish [last] = (nodes, some ⟨outer, opened⟩))
    {times : Option Nat} (ht : RepeatFits limits times) {rest : List Char}
    (hrest : FollowsNode rest) :
    step limits ⟨place, some last, ')' :: (printTimes times ++ rest)⟩ =
      .ok (.more ⟨outer, some (.group times nodes), rest⟩) := by
  simp only [step, stepOperator, hfinish]
  exact take_print ht hrest outer _

/-- The separator after a node leads back to the level of the node. -/
theorem step_separator {limits : Limits} {place : Place} {last node : Node} {c : Char}
    (hc : startsNode c = true) (s : List Char) :
    step limits ⟨place, some last, node.separator ++ c :: s⟩ =
      .ok (.more ⟨(place.push last).climb node.openLevels, none, c :: s⟩) := by
  rw [Node.separator]
  split
  · next hzero =>
    rw [hzero, Place.climb_zero]
    rfl
  · next hpos =>
    obtain ⟨k, hk⟩ := Nat.exists_eq_succ_of_ne_zero hpos
    have hcaret : c ≠ '^' := by
      rintro rfl
      exact absurd hc (by decide)
    have hcarets : Span.ofClass (· == '^') (List.replicate k '^' ++ c :: s) =
        ⟨List.replicate k '^', c :: s⟩ := Span.ofClass_append (by simp) (by simpa using hcaret)
    rw [hk, List.replicate_succ, List.cons_append]
    simp only [step, stepOperator, hcarets, List.length_replicate]

end Reading

/-! ## Reading a printed tree -/

/-- From `place` on, `text` is read as the nodes of `forest`, with `levels` levels left open below
the level of `place`. -/
def Reads (limits : Limits) (place : Place) (text : List Char) (forest : Forest) (levels : Nat) :
    Prop :=
  ∀ rest, FollowsNode rest → ∃ deep last,
    Reading.run limits ⟨place, none, text ++ rest⟩ = Reading.run limits ⟨deep, some last, rest⟩ ∧
    deep.finish [last] = place.finish forest ∧ (deep.push last).climb levels = place.extend forest

namespace Reads

/-- An element without children. -/
theorem leaf {limits : Limits} {e : Element} (he : e.Canonical) {times : Option Nat}
    (ht : RepeatFits limits times) (place : Place) :
    Reads limits place (e.print ++ printTimes times) [.element e times []] 0 := by
  intro rest hrest
  refine ⟨place, .element e times [], ?_, rfl, ?_⟩
  · rw [List.append_assoc]
    exact Reading.run_of_more (Reading.step_element he ht hrest place)
  · rw [Place.climb_zero, Place.extend_singleton]

/-- An element with children: reading them goes one level down and stays there. -/
theorem parent {limits : Limits} {e : Element} (he : e.Canonical) {times : Option Nat}
    (ht : RepeatFits limits times) {place : Place} (hdepth : place.depth + 1 ≤ limits.depth)
    {text : List Char} {children : Forest} {levels : Nat}
    (hchildren : Reads limits (.under place (.element e times []) []) text children levels) :
    Reads limits place (e.print ++ (printTimes times ++ '>' :: text)) [.element e times children]
      (levels + 1) := by
  intro rest hrest
  obtain ⟨deep, last, hrun, hfinish, hclimb⟩ := hchildren rest hrest
  refine ⟨deep, last, ?_, ?_, ?_⟩
  · rw [List.append_assoc, List.append_assoc, List.cons_append,
      Reading.run_of_more (Reading.step_element he ht (.child _) place),
      Reading.run_of_more (Reading.step_child hdepth _ _), hrun]
  · rw [hfinish]
    rfl
  · -- the last climb attaches the children, which are now complete
    rw [Place.climb_add, hclimb, Place.extend_singleton]
    rfl

/-- A group: its parenthesis finishes every level that is open in it. -/
theorem group {limits : Limits} {times : Option Nat} (ht : RepeatFits limits times) {place : Place}
    (hdepth : place.depth + 1 ≤ limits.depth) {text : List Char} {children : Forest} {levels : Nat}
    (hchildren : ∀ opened, Reads limits (.group place opened []) text children levels) :
    Reads limits place ('(' :: (text ++ ')' :: printTimes times)) [.group times children] 0 := by
  intro rest hrest
  -- the place remembers the input from the parenthesis on, which only an error would show
  let opened := '(' :: (text ++ ')' :: (printTimes times ++ rest))
  obtain ⟨deep, last, hrun, hfinish, _⟩ := hchildren opened (')' :: (printTimes times ++ rest))
    (.close _)
  refine ⟨place, .group times children, ?_, rfl, ?_⟩
  · rw [List.cons_append, List.append_assoc, List.cons_append,
      Reading.run_of_more (Reading.step_open hdepth _), hrun,
      Reading.run_of_more (Reading.step_close hfinish ht hrest)]
    rfl
  · rw [Place.climb_zero, Place.extend_singleton]

/-- A node and its siblings: the separator climbs back to the level of the node. -/
theorem cons {limits : Limits} {place : Place} {node : Node}
    (hnode : Reads limits place node.print [node] node.openLevels) {text : List Char} {c : Char}
    (hc : startsNode c = true) {more : Forest} {levels : Nat}
    (hmore : Reads limits (place.push node) (c :: text) more levels) :
    Reads limits place (node.print ++ (node.separator ++ c :: text)) (node :: more) levels := by
  intro rest hrest
  -- a `+` stays clear of the name before it, because another node follows
  have hfollows : FollowsNode (node.separator ++ c :: (text ++ rest)) := by
    rw [Node.separator]
    split
    · exact .sibling (endsLevel_of_startsNode hc _)
    · next hpos =>
      obtain ⟨k, hk⟩ := Nat.exists_eq_succ_of_ne_zero hpos
      rw [hk]
      exact .climb _
  obtain ⟨deep, last, hrun, _, hclimb⟩ := hnode _ hfollows
  rw [Place.extend_singleton] at hclimb
  obtain ⟨deeper, final, hrunMore, hfinish, hclimbMore⟩ := hmore rest hrest
  refine ⟨deeper, final, ?_, ?_, ?_⟩
  · rw [List.append_assoc, List.append_assoc, List.cons_append, hrun,
      Reading.run_of_more (Reading.step_separator hc _), hclimb, ← List.cons_append, hrunMore]
  · rw [hfinish, Place.finish_push]
  · rw [hclimbMore, Place.extend_push]

end Reads

theorem Forest.height_pos {forest : Forest} (h : forest ≠ []) : 0 < Forest.height forest := by
  obtain ⟨node, rest, rfl⟩ := List.exists_cons_of_ne_nil h
  rw [Forest.height]
  omega

mutual

/-- A node is read from its printout. -/
theorem reads_node {limits : Limits} : ∀ (node : Node) (place : Place), node.Canonical limits →
    place.depth + node.height ≤ limits.depth →
    Reads limits place node.print [node] node.openLevels
  | .element e times children, place, h, hdepth => by
      simp only [Node.Canonical] at h
      rw [Node.height] at hdepth
      by_cases hnil : children = []
      · simp only [Node.print, Node.openLevels, hnil, List.isEmpty_nil, if_true, List.append_nil]
        exact .leaf h.1 h.2.1 place
      · have hlevel := reads_forest children (.under place (.element e times []) []) hnil h.2.2
          (by rw [Place.depth]; omega)
        have hpos := Forest.height_pos hnil
        rw [Node.print, Node.openLevels, if_neg (by simpa using hnil), if_neg (by simpa using hnil)]
        exact .parent h.1 h.2.1 (by omega) hlevel
  | .group times children, place, h, hdepth => by
      simp only [Node.Canonical] at h
      rw [Node.height] at hdepth
      have hlevel := fun opened => reads_forest children (.group place opened []) h.1 h.2.2
        (by rw [Place.depth]; omega)
      have hpos := Forest.height_pos h.1
      rw [Node.print, Node.openLevels]
      exact .group h.2.1 (by omega) hlevel

/-- A level is read from its printout. -/
theorem reads_forest {limits : Limits} : ∀ (forest : Forest) (place : Place), forest ≠ [] →
    Forest.Canonical limits forest → place.depth + Forest.height forest ≤ limits.depth + 1 →
    Reads limits place (Forest.print forest) forest (Forest.openLevels forest)
  | [], _, hne, _, _ => absurd rfl hne
  | [node], place, _, h, hdepth => by
      rw [Forest.Canonical] at h
      rw [Forest.height] at hdepth
      rw [Forest.print, Forest.openLevels]
      exact reads_node node place h.1 (by omega)
  | node :: next :: rest, place, _, h, hdepth => by
      rw [Forest.Canonical] at h
      rw [Forest.height] at hdepth
      have hnode := reads_node node place h.1 (by omega)
      have hmore := reads_forest (next :: rest) (place.push node) (List.cons_ne_nil _ _) h.2
        (by rw [Place.depth_push]; omega)
      obtain ⟨c, s, hc, hstart⟩ := h.2.print_eq_cons (List.cons_ne_nil _ _)
      rw [Forest.print, Forest.openLevels]
      rw [hc] at hmore ⊢
      exact .cons hnode hstart hmore

end

/-- What reads as a forest from the top on is an abbreviation of the forest. -/
theorem readChars_of_reads {limits : Limits} {text : List Char} {forest : Forest} {levels : Nat}
    (hreads : Reads limits (.top []) text forest levels) (hdepth : 1 ≤ limits.depth)
    (hblank : text.all isBlank = false) (hlength : text.length ≤ limits.abbreviationLength) :
    readChars limits text = .ok forest := by
  obtain ⟨deep, last, hrun, hfinish, _⟩ := hreads [] .nil
  have hdone : Reading.step limits ⟨deep, some last, []⟩ = .ok (.done forest) := by
    simp only [Reading.step, Reading.stepOperator, hfinish, Place.finish, List.nil_append]
  rw [List.append_nil] at hrun
  have htop : (Place.top []).depth ≤ limits.depth := hdepth
  simp only [readChars, if_pos hlength, hblank, Bool.false_eq_true, if_false, Reading.enter,
    if_pos htop, hrun, Reading.run_of_done hdone]

/-- **Reading undoes printing**: a forest that can be written, and whose printout is within the
limits for length and depth, is read back from its printout. -/
theorem read_print_forest {limits : Limits} {forest : Forest} (hne : forest ≠ [])
    (hcanonical : Forest.Canonical limits forest) (hdepth : Forest.height forest ≤ limits.depth)
    (hlength : (Forest.print forest).length ≤ limits.abbreviationLength) :
    read limits (String.ofList (Forest.print forest)) = .ok forest := by
  have hpos := Forest.height_pos hne
  have hreads := reads_forest forest (.top []) hne hcanonical (by rw [Place.depth]; omega)
  have hblank : (Forest.print forest).all isBlank = false := by
    obtain ⟨c, s, hc, hstart⟩ := hcanonical.print_eq_cons hne
    rw [hc, List.all_cons, isBlank_of_startsNode hstart, Bool.false_and]
  rw [read, String.toList_ofList, readChars_of_reads hreads (by omega) hblank hlength]
  rfl

/-- A forest with something of everything: quotes, braces and blanks in values, a placeholder with
braces, a group, and a node after which two levels are open. -/
def nestedForest : Forest :=
  [.element
    { name := some [.text "ul"]
      attributes :=
        [⟨"class", some [.text "a \"b\"", .field 1 (some "x\x7by\x7d")]⟩, ⟨"hidden", none⟩] }
    (some 2)
    [.group none
      [.element { name := some [.text "li"], text := some [.number ⟨2, true, 3⟩, .text "\x7d \\"] }
        none [.element { name := some [.text "é"] } none []],
       .element { selfClosing := true } (some 7) []],
     .element { text := some [] } none [.element { name := some [.text "i"] } (some 1000) []]],
   .element { name := some [.text "p"] } none []]

theorem read_print_forest_nested :
    (nestedForest ≠ [] ∧ Forest.Canonical {} nestedForest ∧ Forest.height nestedForest ≤ 100 ∧
      (Forest.print nestedForest).length ≤ 4096) ∧
    read {} (String.ofList (Forest.print nestedForest)) = .ok nestedForest := by
  have hne : nestedForest ≠ [] := List.cons_ne_nil _ _
  have hcanonical : Forest.Canonical {} nestedForest := by decide +kernel
  have hdepth : Forest.height nestedForest ≤ 100 := by decide +kernel
  have hlength : (Forest.print nestedForest).length ≤ 4096 := by decide +kernel
  exact ⟨⟨hne, hcanonical, hdepth, hlength⟩, read_print_forest hne hcanonical hdepth hlength⟩

end Shorthand.Markup
