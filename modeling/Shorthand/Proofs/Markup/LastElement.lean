import Shorthand.Proofs.Markup.Below
import Shorthand.Proofs.Markup.Weight

/-!
# LastElement — which element takes the children of a group

What is written after `(…)>` goes to the last element that stands directly in the parentheses.
Groups are gone from the output, so where it has gone is said of the forest without them
(`Forest.flat`). Unrolling does nothing else to a group that is not repeated (`unroll_flat`).

The last element in the parentheses is the last one of the flattened forest only if no group follows
it (`addedToLast_attach_iff`). Else the children go to an element before the last one, or to none.
So parentheses inside of a group matter exactly if they are around its end.
-/

namespace Shorthand.Markup

/-! ## Forests without groups -/

mutual

/-- What stands in the place of a node if there are no groups, a repeated group counting once. -/
def Node.flat : Node → Forest
  | .element e times children => [.element e times (Forest.flat children)]
  | .group _ children => Forest.flat children

/-- The forest with the nodes of each group in place of the group. -/
def Forest.flat : Forest → Forest
  | [] => []
  | node :: rest => node.flat ++ Forest.flat rest

end

@[simp] theorem Forest.flat_nil : Forest.flat [] = [] := by rw [Forest.flat]

@[simp] theorem Forest.flat_append (xs ys : Forest) :
    Forest.flat (xs ++ ys) = Forest.flat xs ++ Forest.flat ys := by
  induction xs with
  | nil => simp
  | cons node xs ih => simp only [List.cons_append, Forest.flat, ih, List.append_assoc]

mutual

/-- No group of the node is repeated. -/
def Node.GroupsOnce : Node → Prop
  | .element _ _ children => Forest.GroupsOnce children
  | .group times children => times = none ∧ Forest.GroupsOnce children

/-- No group of the forest is repeated. -/
def Forest.GroupsOnce : Forest → Prop
  | [] => True
  | node :: rest => node.GroupsOnce ∧ Forest.GroupsOnce rest

end

mutual

theorem Node.weight_flat : ∀ node : Node, node.GroupsOnce →
    Forest.weight node.flat = node.weight
  | .element e times children, h => by
      rw [Node.GroupsOnce] at h
      rw [Node.flat, Forest.weight, Forest.weight, Node.weight, Node.weight,
        Forest.weight_flat children h, Nat.add_zero]
  | .group times children, h => by
      rw [Node.GroupsOnce] at h
      rw [Node.flat, Node.weight, Forest.weight_flat children h.2, h.1, Option.getD_none,
        Nat.one_mul]

theorem Forest.weight_flat : ∀ forest : Forest, Forest.GroupsOnce forest →
    Forest.weight (Forest.flat forest) = Forest.weight forest
  | [], _ => by rw [Forest.flat]
  | node :: rest, h => by
      rw [Forest.GroupsOnce] at h
      rw [Forest.flat, Forest.weight_append, Forest.weight, Node.weight_flat node h.1,
        Forest.weight_flat rest h.2]

end

mutual

theorem Node.written_flat : ∀ (node : Node) (copy : Copy), node.GroupsOnce →
    Forest.written copy node.flat = eachCopy node.times copy fun copy => node.written copy
  | .element e times children, copy, h => by
      rw [Node.GroupsOnce] at h
      rw [Node.flat, Forest.written, Forest.written, List.append_nil, Node.times, Node.times]
      congr
      funext copy
      rw [Node.written, Node.written, Forest.written_flat children copy h]
  | .group times children, copy, h => by
      rw [Node.GroupsOnce] at h
      rw [Node.flat, Node.times, h.1, eachCopy, Node.written, Forest.written_flat children copy h.2]

theorem Forest.written_flat : ∀ (forest : Forest) (copy : Copy), Forest.GroupsOnce forest →
    Forest.written copy (Forest.flat forest) = Forest.written copy forest
  | [], copy, _ => by rw [Forest.flat]
  | node :: rest, copy, h => by
      rw [Forest.GroupsOnce] at h
      rw [Forest.flat, Forest.written_append, Forest.written, Node.written_flat node copy h.1,
        Forest.written_flat rest copy h.2]

end

/-- Groups that are not repeated are gone after unrolling, and leave no other trace. -/
theorem unroll_flat (limits : Limits) {forest : Forest} (h : Forest.GroupsOnce forest) :
    unroll limits (Forest.flat forest) = unroll limits forest := by
  rw [unroll_eq, unroll_eq, Forest.weight_flat forest h, Forest.written_flat forest .only h]

/-! ## No group is empty -/

mutual

/-- Every group of the node has something in it. -/
def Node.Filled : Node → Prop
  | .element _ _ children => Forest.Filled children
  | .group _ children => children ≠ [] ∧ Forest.Filled children

/-- Every group of the forest has something in it. -/
def Forest.Filled : Forest → Prop
  | [] => True
  | node :: rest => node.Filled ∧ Forest.Filled rest

end

namespace Forest

@[simp] theorem filled_nil : Filled [] := by simp [Filled]

@[simp] theorem filled_cons {node : Node} {rest : Forest} :
    Filled (node :: rest) ↔ node.Filled ∧ Filled rest := by
  rw [Filled]

@[simp] theorem filled_append {xs ys : Forest} :
    Filled (xs ++ ys) ↔ Filled xs ∧ Filled ys := by
  induction xs with
  | nil => simp
  | cons node xs ih => simp [ih, and_assoc]

end Forest

mutual

theorem Node.flat_ne_nil : ∀ node : Node, node.Filled → node.flat ≠ []
  | .element e times children, _ => by simp [Node.flat]
  | .group times children, h => by
      rw [Node.Filled] at h
      rw [Node.flat]
      exact Forest.flat_ne_nil children h.2 h.1

/-- So something is left of every node if the groups are gone. -/
theorem Forest.flat_ne_nil : ∀ forest : Forest, Forest.Filled forest → forest ≠ [] →
    Forest.flat forest ≠ []
  | [], _, hne => absurd rfl hne
  | node :: rest, h, _ => by
      rw [Forest.filled_cons] at h
      rw [Forest.flat]
      exact List.append_ne_nil_of_left_ne_nil (Node.flat_ne_nil node h.1) _

end

/-! ## The last element of a level -/

/-- All nodes of a level are groups. -/
def Forest.OnlyGroups (forest : Forest) : Prop := ∀ node ∈ forest, node.element? = none

/-- The last node of a level is an element. -/
def Forest.endsInElement (forest : Forest) : Bool := forest.getLast?.any (·.element?.isSome)

namespace Forest

/-- A level has a last element, with groups after it, unless there are only groups. -/
theorem onlyGroups_or_eq_append (forest : Forest) :
    OnlyGroups forest ∨ ∃ before e times below groups,
      forest = before ++ .element e times below :: groups ∧ OnlyGroups groups := by
  induction forest with
  | nil => exact .inl (by simp [OnlyGroups])
  | cons node rest ih =>
      rcases ih with hrest | ⟨before, e, times, below, groups, rfl, hgroups⟩
      · cases node with
        | element e times below => exact .inr ⟨[], e, times, below, rest, rfl, hrest⟩
        | group times children =>
            exact .inl (List.forall_mem_cons.mpr ⟨rfl, hrest⟩)
      · exact .inr ⟨node :: before, e, times, below, groups, rfl, hgroups⟩

theorem addToLastElement?_of_onlyGroups {forest : Forest} (h : OnlyGroups forest) (more : Forest) :
    addToLastElement? more forest = none := by
  induction forest with
  | nil => rw [addToLastElement?]
  | cons node rest ih =>
      obtain ⟨hnode, hrest⟩ := List.forall_mem_cons.mp h
      cases node with
      | element e times children => cases hnode
      | group times children => rw [addToLastElement?, ih hrest]

theorem addToLastElement?_append {groups : Forest} (h : OnlyGroups groups) (more before : Forest)
    (e : Element) (times : Option Nat) (below : Forest) :
    addToLastElement? more (before ++ .element e times below :: groups) =
      some (before ++ .element e times (below ++ more) :: groups) := by
  induction before with
  | nil =>
      rw [List.nil_append, addToLastElement?, addToLastElement?_of_onlyGroups h more]
      rfl
  | cons node before ih => simp only [List.cons_append, addToLastElement?, ih]

theorem endsInElement_of_onlyGroups {forest : Forest} (h : OnlyGroups forest) :
    endsInElement forest = false := by
  rw [endsInElement]
  cases hlast : forest.getLast? with
  | none => rfl
  | some node => simp [h node (List.mem_of_getLast? hlast)]

theorem endsInElement_append {groups : Forest} (h : OnlyGroups groups) (before : Forest)
    (e : Element) (times : Option Nat) (below : Forest) :
    endsInElement (before ++ .element e times below :: groups) = true ↔ groups = [] := by
  constructor
  · intro hends
    cases groups with
    | nil => rfl
    | cons node groups =>
        have hlast : (before ++ .element e times below :: node :: groups).getLast? =
            (node :: groups).getLast? := by simp [List.getLast?_cons]
        rw [endsInElement, hlast, ← endsInElement, endsInElement_of_onlyGroups h] at hends
        cases hends
  · rintro rfl
    simp [endsInElement, Node.element?]

end Forest

/-! ## Children of a group -/

namespace Node

theorem flat_attach_of_onlyGroups {inner : Forest} (h : Forest.OnlyGroups inner)
    (times : Option Nat) (more : Forest) :
    ((Node.group times inner).attach more).flat = Forest.flat inner ++ Forest.flat more := by
  rw [attach, Forest.addToLastElement?_of_onlyGroups h, Option.getD_none, flat, Forest.flat_append]

theorem flat_attach_append {groups : Forest} (h : Forest.OnlyGroups groups) (times : Option Nat)
    (more before : Forest) (e : Element) (t : Option Nat) (below : Forest) :
    ((Node.group times (before ++ .element e t below :: groups)).attach more).flat =
      Forest.flat before ++
        .element e t (Forest.flat below ++ Forest.flat more) :: Forest.flat groups := by
  rw [attach, Forest.addToLastElement?_append h, Option.getD_some, flat, Forest.flat_append,
    Forest.flat, flat, Forest.flat_append, List.singleton_append]

end Node

/-- The one forest is the other with more children after those of its last node, an element. -/
def Forest.AddedToLast (forest more result : Forest) : Prop :=
  ∃ before e times children, forest = before ++ [.element e times children] ∧
    result = before ++ [.element e times (children ++ more)]

theorem Forest.AddedToLast.unique {forest more result other : Forest}
    (h : AddedToLast forest more result) (hother : AddedToLast forest more other) :
    result = other := by
  obtain ⟨before, e, times, children, rfl, rfl⟩ := h
  obtain ⟨before', e', times', children', hforest, rfl⟩ := hother
  obtain ⟨rfl, hlast⟩ := List.append_inj' hforest rfl
  cases hlast
  rfl

theorem Forest.AddedToLast.length_eq {forest more result : Forest}
    (h : AddedToLast forest more result) : result.length = forest.length := by
  obtain ⟨before, e, times, children, rfl, rfl⟩ := h
  simp

/-- Something that is added makes a difference to the last node. -/
theorem Forest.AddedToLast.last_ne {forest more result : Forest}
    (h : AddedToLast forest more result) (hmore : more ≠ []) :
    result.getLast? ≠ forest.getLast? := by
  obtain ⟨before, e, times, children, rfl, rfl⟩ := h
  simp [hmore]

/-- **The children of a group go to its last element** exactly if the group ends in it. -/
theorem addedToLast_attach_iff {inner more : Forest} (hinner : Forest.Filled inner)
    (hmore : Forest.Filled more) (hne : more ≠ []) (times : Option Nat) :
    Forest.AddedToLast (Forest.flat inner) (Forest.flat more)
        ((Node.group times inner).attach more).flat ↔
      Forest.endsInElement inner = true := by
  have hflat := Forest.flat_ne_nil more hmore hne
  rcases Forest.onlyGroups_or_eq_append inner with
    hgroups | ⟨before, e, t, below, groups, rfl, hgroups⟩
  · -- beside the groups, the forest gets longer
    rw [Node.flat_attach_of_onlyGroups hgroups, Forest.endsInElement_of_onlyGroups hgroups]
    constructor
    · intro hadded
      have hlength := hadded.length_eq
      rw [List.length_append] at hlength
      exact absurd (List.length_eq_zero_iff.mp (by omega)) hflat
    · intro hends
      cases hends
  · rw [Node.flat_attach_append hgroups, Forest.endsInElement_append hgroups, Forest.flat_append,
      Forest.flat, Node.flat, List.singleton_append]
    constructor
    · intro hadded
      cases groups with
      | nil => rfl
      | cons node groups =>
          -- the last node is in the groups, and the same before and after
          simp only [Forest.filled_append, Forest.filled_cons] at hinner
          have hrest := Forest.flat_ne_nil (node :: groups)
            (Forest.filled_cons.mpr hinner.2.2) (List.cons_ne_nil _ _)
          obtain ⟨first, others, hothers⟩ := List.exists_cons_of_ne_nil hrest
          refine absurd ?_ (hadded.last_ne hflat)
          rw [hothers]
          simp [List.getLast?_cons]
    · rintro rfl
      exact ⟨_, _, _, _, rfl, rfl⟩

/-! ## Reading -/

theorem Node.Filled.attach {node : Node} (h : node.Filled) {more : Forest}
    (hmore : Forest.Filled more) : (node.attach more).Filled := by
  cases node with
  | element e times children =>
      rw [Node.Filled] at h
      rw [Node.attach, Node.Filled]
      exact Forest.filled_append.mpr ⟨h, hmore⟩
  | group times children =>
      rw [Node.Filled] at h
      rw [Node.attach, Node.Filled]
      rcases Forest.onlyGroups_or_eq_append children with
        hgroups | ⟨before, e, t, below, groups, rfl, hgroups⟩
      · rw [Forest.addToLastElement?_of_onlyGroups hgroups, Option.getD_none]
        exact ⟨List.append_ne_nil_of_left_ne_nil h.1 _, Forest.filled_append.mpr ⟨h.2, hmore⟩⟩
      · rw [Forest.addToLastElement?_append hgroups, Option.getD_some]
        simp only [Forest.filled_append, Forest.filled_cons, Node.Filled] at h ⊢
        exact ⟨by simp, h.2.1, ⟨h.2.2.1, hmore⟩, h.2.2.2⟩

/-- No group in the levels of a place is empty, of those that are closed. -/
def Place.Filled : Place → Prop
  | .top nodes => Forest.Filled nodes
  | .group outer _ nodes => outer.Filled ∧ Forest.Filled nodes
  | .under outer parent nodes => outer.Filled ∧ parent.Filled ∧ Forest.Filled nodes

namespace Place

theorem Filled.push {place : Place} (h : place.Filled) {node : Node} (hnode : node.Filled) :
    (place.push node).Filled := by
  cases place <;> simp_all [Place.push, Filled]

theorem Filled.climb {place : Place} (h : place.Filled) (k : Nat) : (place.climb k).Filled := by
  fun_induction Place.climb k place with
  | case1 k outer parent nodes ih => exact ih (h.1.push (h.2.1.attach h.2.2))
  | case2 => exact h

theorem Filled.finish {place : Place} (h : place.Filled) {more nodes : Forest}
    (hmore : Forest.Filled more) (hne : more ≠ []) {around : Option Enclosing}
    (hfinish : place.finish more = (nodes, around)) :
    (nodes ≠ [] ∧ Forest.Filled nodes) ∧ ∀ a ∈ around, a.outer.Filled := by
  induction place generalizing more with
  | top own =>
      cases hfinish
      exact ⟨⟨List.append_ne_nil_of_right_ne_nil _ hne, Forest.filled_append.mpr ⟨h, hmore⟩⟩,
        by simp⟩
  | group outer opened own =>
      cases hfinish
      exact ⟨⟨List.append_ne_nil_of_right_ne_nil _ hne, Forest.filled_append.mpr ⟨h.2, hmore⟩⟩,
        by simpa using h.1⟩
  | under outer parent own ih =>
      have hparent := h.2.1.attach (Forest.filled_append.mpr ⟨h.2.2, hmore⟩)
      exact ih h.1 (by simpa using hparent) (List.cons_ne_nil _ _) hfinish

end Place

namespace Reading

/-- No group that has been read so far is empty. -/
def Filled (r : Reading) : Prop := r.place.Filled ∧ ∀ node ∈ r.pending, node.Filled

/-- A parenthesis closes only after a node. -/
theorem Step.filled {limits : Limits} {r next : Reading} (h : Step limits r next) (hr : r.Filled) :
    next.Filled := by
  obtain ⟨hplace, hpending⟩ := hr
  cases h with
  | opens => exact ⟨⟨hplace, Forest.filled_nil⟩, by simp⟩
  | element => exact ⟨hplace, by simp [Node.Filled]⟩
  | child => exact ⟨⟨hplace, hpending _ rfl, Forest.filled_nil⟩, by simp⟩
  | sibling => exact ⟨hplace.push (hpending _ rfl), by simp⟩
  | climb => exact ⟨(hplace.push (hpending _ rfl)).climb _, by simp⟩
  | closes hfinish =>
      have hnode : Forest.Filled [_] := Forest.filled_cons.mpr ⟨hpending _ rfl, Forest.filled_nil⟩
      obtain ⟨hnodes, houter⟩ := hplace.finish hnode (List.cons_ne_nil _ _) hfinish
      exact ⟨houter _ rfl, by simpa [Node.Filled] using hnodes⟩

theorem filled_of_steps {limits : Limits} {r last : Reading}
    (h : Relation.ReflTransGen (Step limits) r last) (hr : r.Filled) : last.Filled := by
  induction h with
  | refl => exact hr
  | tail _ hstep ih => exact hstep.filled ih

end Reading

/-- Something is read, and no group of it is empty. -/
theorem ne_nil_and_filled_of_read {limits : Limits} {abbreviation : String} {forest : Forest}
    (h : read limits abbreviation = .ok forest) : forest ≠ [] ∧ Forest.Filled forest := by
  obtain ⟨_, _, _, last, hsteps, place, node, rfl, hfinish⟩ := read_eq_ok_iff.mp h
  have hstart : Reading.Filled ⟨.top [], none, abbreviation.toList⟩ := ⟨Forest.filled_nil, by simp⟩
  obtain ⟨hplace, hpending⟩ := Reading.filled_of_steps hsteps hstart
  have hnode : Forest.Filled [node] := Forest.filled_cons.mpr ⟨hpending _ rfl, Forest.filled_nil⟩
  exact (hplace.finish hnode (List.cons_ne_nil _ _) hfinish).1

theorem filled_of_read {limits : Limits} {abbreviation : String} {forest : Forest}
    (h : read limits abbreviation = .ok forest) : Forest.Filled forest :=
  (ne_nil_and_filled_of_read h).2

/-- What follows a group and a `>`, in the forest without groups. -/
theorem flat_read_group {limits : Limits} {g c : String} {inner forest : Forest}
    (hg : read limits g = .ok inner) (h : read limits ("(" ++ g ++ ")>" ++ c) = .ok forest)
    {children beside : Forest}
    (hc : read limits ("p>" ++ c) =
      .ok (.element { name := some (.ofText "p") } none children :: beside)) :
    Forest.flat forest = ((Node.group none inner).attach children).flat ++ Forest.flat beside ∧
      (Forest.AddedToLast (Forest.flat inner) (Forest.flat children)
          ((Node.group none inner).attach children).flat ↔ Forest.endsInElement inner = true) := by
  obtain ⟨found, others, hne, rfl, hname, _⟩ := read_group_child hg h
  rw [hc] at hname
  cases hname
  have hfilled := filled_of_read hc
  rw [Forest.filled_cons, Node.Filled] at hfilled
  refine ⟨by rw [Forest.flat], ?_⟩
  exact addedToLast_attach_iff (filled_of_read hg) hfilled.1 hne none

/-- **Children of a group.** What is written after `(g)>` is what is written after `p>`: nodes
`children` that stay below, and after climbing nodes `beside`. In the forest without groups, the
children are added to the last element of `g` if and only if `g` does not end in a group. If it
does, they are added to the last element before the groups at the end, and if there is none they
come after all of `g`. So more parentheses in `g` make no difference if and only if they are not
around its end. -/
theorem groupChildren_addedToLast_iff {limits : Limits} {g c : String} {inner forest : Forest}
    (hg : read limits g = .ok inner) (h : read limits ("(" ++ g ++ ")>" ++ c) = .ok forest) :
    (Forest.GroupsOnce forest → unroll limits (Forest.flat forest) = unroll limits forest) ∧
    ∃ children beside filled, children ≠ [] ∧
      read limits ("p>" ++ c) =
        .ok (.element { name := some (.ofText "p") } none children :: beside) ∧
      (beside = [] → read limits c = .ok children) ∧
      Forest.flat forest = filled ++ Forest.flat beside ∧
      (Forest.AddedToLast (Forest.flat inner) (Forest.flat children) filled ↔
        Forest.endsInElement inner = true) ∧
      ((Forest.OnlyGroups inner ∧ filled = Forest.flat inner ++ Forest.flat children) ∨
        ∃ before e times below groups, inner = before ++ .element e times below :: groups ∧
          Forest.OnlyGroups groups ∧
          filled = Forest.flat before ++
            .element e times (Forest.flat below ++ Forest.flat children) :: Forest.flat groups) ∧
      (Forest.endsInElement inner = true → ∀ g' inner' forest', read limits g' = .ok inner' →
        Forest.flat inner' = Forest.flat inner →
        read limits ("(" ++ g' ++ ")>" ++ c) = .ok forest' →
        (Forest.flat forest' = Forest.flat forest ↔ Forest.endsInElement inner' = true)) := by
  obtain ⟨children, beside, hne, _, hc, halone⟩ := read_group_child hg h
  obtain ⟨hflat, hadded⟩ := flat_read_group hg h hc
  refine ⟨unroll_flat limits, children, beside, _, hne, hc, halone, hflat, hadded, ?_, ?_⟩
  · rcases Forest.onlyGroups_or_eq_append inner with
      hgroups | ⟨before, e, times, below, groups, rfl, hgroups⟩
    · exact .inl ⟨hgroups, Node.flat_attach_of_onlyGroups hgroups none children⟩
    · exact .inr ⟨before, e, times, below, groups, rfl, hgroups,
        Node.flat_attach_append hgroups none children before e times below⟩
  · intro hends g' inner' forest' hg' hsame h'
    obtain ⟨hflat', hadded'⟩ := flat_read_group hg' h' hc
    have hlast := hadded.mpr hends
    rw [hsame] at hadded'
    rw [hflat, hflat', List.append_left_inj]
    constructor
    · intro heq
      rw [← heq] at hlast
      exact hadded'.mp hlast
    · intro hends'
      exact (hadded'.mpr hends').unique hlast

/-- The names in a forest with their depths. -/
def Forest.names (forest : Forest) : List (Nat × String) :=
  (Forest.outline 0 forest).map fun entry =>
    (entry.1, (entry.2.element?.bind Element.shownName).getD "")

/-- What is found out about a result says also that there is one. -/
theorem exists_eq_ok {ε α β : Type} {x : Except ε α} {view : α → β} {b : β}
    (h : x.toOption.map view = some b) : ∃ a, x = .ok a ∧ view a = b := by
  cases x with
  | ok a => exact ⟨a, rfl, Option.some.inj h⟩
  | error e => cases h

theorem exists_read_eq_ok {limits : Limits} {abbreviation : String} {α : Type} {view : Forest → α}
    {a : α} (h : (read limits abbreviation).toOption.map view = some a) :
    ∃ forest, read limits abbreviation = .ok forest ∧ view forest = a :=
  exists_eq_ok h

/-- The group ends in an element with a child, and what follows it climbs at the end. -/
theorem groupChildren_addedToLast_iff_climbing :
    ∃ inner forest, read {} "(a)+b>d" = .ok inner ∧ read {} "((a)+b>d)>e+f^h" = .ok forest ∧
      Forest.names (Forest.flat forest) =
        [(0, "a"), (0, "b"), (1, "d"), (1, "e"), (1, "f"), (0, "h")] ∧
      ∃ children beside filled,
        read {} "p>e+f^h" =
          .ok (.element { name := some (.ofText "p") } none children :: beside) ∧
        Forest.flat forest = filled ++ Forest.flat beside ∧
        Forest.AddedToLast (Forest.flat inner) (Forest.flat children) filled := by
  obtain ⟨inner, hg, hends⟩ : ∃ inner, read {} "(a)+b>d" = .ok inner ∧ inner.endsInElement = true :=
    exists_read_eq_ok (by decide +kernel)
  obtain ⟨forest, h, hnames⟩ : ∃ forest, read {} "((a)+b>d)>e+f^h" = .ok forest ∧
      Forest.names (Forest.flat forest) =
        [(0, "a"), (0, "b"), (1, "d"), (1, "e"), (1, "f"), (0, "h")] :=
    exists_read_eq_ok (by decide +kernel)
  obtain ⟨_, children, beside, filled, _, hc, _, hflat, hadded, _⟩ :=
    @groupChildren_addedToLast_iff {} "(a)+b>d" "e+f^h" inner forest hg h
  exact ⟨inner, forest, hg, h, hnames, children, beside, filled, hc, hflat, hadded.mpr hends⟩

/-- With parentheses around the last element, the child goes to the one before it. -/
theorem child_passes_parenthesized_element :
    (∃ forest, read {} "(a+b)>c" = .ok forest ∧
      Forest.names (Forest.flat forest) = [(0, "a"), (0, "b"), (1, "c")]) ∧
    ∃ inner children forest, read {} "a+(b)" = .ok inner ∧ read {} "c" = .ok children ∧
      read {} "(a+(b))>c" = .ok forest ∧
      Forest.names (Forest.flat inner) = [(0, "a"), (0, "b")] ∧
      Forest.names (Forest.flat forest) = [(0, "a"), (1, "c"), (0, "b")] ∧
      ¬Forest.AddedToLast (Forest.flat inner) (Forest.flat children) (Forest.flat forest) := by
  refine ⟨exists_read_eq_ok (by decide +kernel), ?_⟩
  obtain ⟨inner, hg, hinner⟩ : ∃ inner, read {} "a+(b)" = .ok inner ∧
      (Forest.names (Forest.flat inner), inner.endsInElement) = ([(0, "a"), (0, "b")], false) :=
    exists_read_eq_ok (by decide +kernel)
  obtain ⟨forest, h, hforest⟩ : ∃ forest, read {} "(a+(b))>c" = .ok forest ∧
      (Forest.names (Forest.flat forest), forest.length) = ([(0, "a"), (1, "c"), (0, "b")], 1) :=
    exists_read_eq_ok (by decide +kernel)
  obtain ⟨hinnerNames, hends⟩ := Prod.mk.inj hinner
  obtain ⟨hnames, hlength⟩ := Prod.mk.inj hforest
  obtain ⟨children, beside, _, hforest, hc, halone⟩ := @read_group_child {} "a+(b)" "c" _ _ hg h
  obtain rfl : beside = [] := by
    rw [hforest, List.length_cons] at hlength
    exact List.length_eq_zero_iff.mp (by omega)
  obtain ⟨hflat, hadded⟩ := @flat_read_group {} "a+(b)" "c" _ _ hg h _ _ hc
  rw [Forest.flat_nil, List.append_nil] at hflat
  refine ⟨inner, children, forest, hg, halone rfl, h, hinnerNames, hnames, ?_⟩
  rw [hflat, hadded, hends]
  exact Bool.false_ne_true

end Shorthand.Markup
