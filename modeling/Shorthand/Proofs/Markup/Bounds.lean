import Shorthand.Proofs.Markup.LastElement

/-!
# Bounds — how large a tree the limits let through

The reader counts the levels that are open, and these are not the levels of the tree: what is
written after `(…)>` is read one level below the group, but goes under an element of the group,
which is two levels below it. So the tree can be about twice as high as the limit on the depth, but
no path of it has more elements than that.

`Keeps` is what a property has to be kept by to hold of every node that is read. It may depend on
how many levels are open where the node is: how far down a node reaches is bounded by the levels
that can still be opened there (`keeps_reach`).
-/

namespace Shorthand.Markup

/-! ## Properties of the nodes of a level -/

/-- A repeat count, if there is one, is at least one and within the limit. -/
def TimesWithin (limits : Limits) (times : Option Nat) : Prop :=
  ∀ count ∈ times, 1 ≤ count ∧ count ≤ limits.repeatCount

theorem timesWithin_of_readTimes {limits : Limits} {s rest : List Char} {times : Option Nat}
    (h : readTimes limits s = .ok (times, rest)) : TimesWithin limits times := by
  unfold readTimes at h
  split at h
  · split at h
    · cases h
    · cases h
    · next count hne _ =>
      split at h
      · next hfits =>
        cases h
        rintro _ ⟨rfl⟩
        exact ⟨Nat.one_le_iff_ne_zero.mpr hne, hfits⟩
      · cases h
  · cases h
    exact fun _ hcount => nomatch hcount

/-- A property of nodes that are read where so many levels are open. It holds of a single element,
of a group if it holds of what is in there, and it is kept if children are attached that have it. -/
structure Keeps (limits : Limits) (Q : Nat → Node → Prop) : Prop where
  element : ∀ {depth e times}, depth ≤ limits.depth → TimesWithin limits times →
    Q depth (.element e times [])
  group : ∀ {depth times nodes}, depth + 1 ≤ limits.depth → TimesWithin limits times →
    (∀ node ∈ nodes, Q (depth + 1) node) → Q depth (.group times nodes)
  attach : ∀ {depth node more}, depth + 1 ≤ limits.depth → Q depth node →
    (∀ child ∈ more, Q (depth + 1) child) → Q depth (node.attach more)

/-- The nodes in the levels of a place have the property, each on its own level. -/
def Place.Meets (Q : Nat → Node → Prop) : Place → Prop
  | .top nodes => ∀ node ∈ nodes, Q 1 node
  | .group outer _ nodes => outer.Meets Q ∧ ∀ node ∈ nodes, Q (outer.depth + 1) node
  | .under outer parent nodes =>
    outer.Meets Q ∧ Q outer.depth parent ∧ ∀ node ∈ nodes, Q (outer.depth + 1) node

/-- How many levels are open inside a group, or at the top. -/
def levelInside (around : Option Enclosing) : Nat := around.elim 1 (·.outer.depth + 1)

namespace Place

variable {limits : Limits} {Q : Nat → Node → Prop} {place : Place}

theorem Meets.push (h : place.Meets Q) {node : Node} (hnode : Q place.depth node) :
    (place.push node).Meets Q := by
  cases place with
  | top nodes => exact List.forall_mem_append.mpr ⟨h, List.forall_mem_singleton.mpr hnode⟩
  | group outer opened nodes =>
      exact ⟨h.1, List.forall_mem_append.mpr ⟨h.2, List.forall_mem_singleton.mpr hnode⟩⟩
  | under outer parent nodes =>
      exact ⟨h.1, h.2.1,
        List.forall_mem_append.mpr ⟨h.2.2, List.forall_mem_singleton.mpr hnode⟩⟩

theorem Meets.climb (hQ : Keeps limits Q) (h : place.Meets Q) (hdepth : place.depth ≤ limits.depth)
    (k : Nat) : (place.climb k).Meets Q := by
  fun_induction Place.climb k place with
  | case1 k outer parent nodes ih =>
      obtain ⟨houter, hparent, hnodes⟩ := h
      refine ih (houter.push (hQ.attach hdepth hparent hnodes)) ?_
      rw [depth_push]
      exact Nat.le_of_succ_le hdepth
  | case2 => exact h

/-- What is left when levels are finished has the property of the level that it is in. -/
theorem Meets.finish (hQ : Keeps limits Q) (h : place.Meets Q)
    (hdepth : place.depth ≤ limits.depth) {more nodes : Forest}
    (hmore : ∀ node ∈ more, Q place.depth node) {around : Option Enclosing}
    (hfinish : place.finish more = (nodes, around)) :
    (∀ node ∈ nodes, Q (levelInside around) node) ∧
      ∀ a ∈ around, a.outer.Meets Q ∧ a.outer.depth + 1 ≤ limits.depth := by
  induction place generalizing more with
  | top own =>
      cases hfinish
      exact ⟨List.forall_mem_append.mpr ⟨h, hmore⟩, by simp⟩
  | group outer opened own =>
      cases hfinish
      exact ⟨List.forall_mem_append.mpr ⟨h.2, hmore⟩, by simpa using ⟨h.1, hdepth⟩⟩
  | under outer parent own ih =>
      obtain ⟨houter, hparent, hown⟩ := h
      have hattached := hQ.attach hdepth hparent (List.forall_mem_append.mpr ⟨hown, hmore⟩)
      exact ih houter (Nat.le_of_succ_le hdepth) (List.forall_mem_singleton.mpr hattached) hfinish

end Place

namespace Reading

variable {limits : Limits} {Q : Nat → Node → Prop} {r next last : Reading}

/-- All nodes that have been read so far have the property, and no more levels are open than may
be. -/
structure Meets (limits : Limits) (Q : Nat → Node → Prop) (r : Reading) : Prop where
  depth : r.place.depth ≤ limits.depth
  place : r.place.Meets Q
  pending : ∀ node ∈ r.pending, Q r.place.depth node

theorem Step.meets (hQ : Keeps limits Q) (h : Step limits r next) (hr : r.Meets limits Q) :
    next.Meets limits Q := by
  obtain ⟨hdepth, hplace, hpending⟩ := hr
  cases h with
  | opens hopen => exact ⟨hopen, ⟨hplace, by simp⟩, by simp⟩
  | element _ htimes =>
      exact ⟨hdepth, hplace, by simpa using hQ.element hdepth (timesWithin_of_readTimes htimes)⟩
  | child hopen => exact ⟨hopen, ⟨hplace, hpending _ rfl, by simp⟩, by simp⟩
  | sibling => exact ⟨by rwa [Place.depth_push], hplace.push (hpending _ rfl), by simp⟩
  | @climb place node s carets hcarets =>
      have hpushed : (place.push node).depth ≤ limits.depth := by rwa [Place.depth_push]
      refine ⟨Nat.le_trans (Place.depth_climb_le _ _) hpushed, ?_, by simp⟩
      exact (hplace.push (hpending _ rfl)).climb hQ hpushed _
  | closes hfinish htimes =>
      have hnode := List.forall_mem_singleton.mpr (hpending _ rfl)
      obtain ⟨hnodes, haround⟩ := hplace.finish hQ hdepth hnode hfinish
      obtain ⟨houter, hroom⟩ := haround _ rfl
      refine ⟨Nat.le_of_succ_le hroom, houter, ?_⟩
      simpa using hQ.group hroom (timesWithin_of_readTimes htimes) hnodes

theorem meets_of_steps (hQ : Keeps limits Q) (h : Relation.ReflTransGen (Step limits) r last)
    (hr : r.Meets limits Q) : last.Meets limits Q := by
  induction h with
  | refl => exact hr
  | tail _ hstep ih => exact hstep.meets hQ ih

end Reading

/-- A property that is kept holds of the nodes at the top of what is read. -/
theorem Keeps.of_read {limits : Limits} {Q : Nat → Node → Prop} (hQ : Keeps limits Q)
    {abbreviation : String} {forest : Forest} (h : read limits abbreviation = .ok forest) :
    ∀ node ∈ forest, Q 1 node := by
  obtain ⟨_, _, hdepth, last, hsteps, place, node, rfl, hfinish⟩ := read_eq_ok_iff.mp h
  have hstart : Reading.Meets limits Q ⟨.top [], none, abbreviation.toList⟩ :=
    ⟨hdepth, by simp [Place.Meets], by simp⟩
  have hlast := Reading.meets_of_steps hQ hsteps hstart
  have hnode := List.forall_mem_singleton.mpr (hlast.pending _ rfl)
  exact (hlast.place.finish hQ hlast.depth hnode hfinish).1

/-! ## Repeat counts -/

mutual

/-- The repeat counts in a node. -/
def Node.counts : Node → List Nat
  | .element _ times children => times.toList ++ Forest.counts children
  | .group times children => times.toList ++ Forest.counts children

/-- The repeat counts in a forest. -/
def Forest.counts : Forest → List Nat
  | [] => []
  | node :: rest => node.counts ++ Forest.counts rest

end

theorem Forest.counts_append (xs ys : Forest) :
    Forest.counts (xs ++ ys) = Forest.counts xs ++ Forest.counts ys := by
  induction xs with
  | nil => rw [List.nil_append, Forest.counts, List.nil_append]
  | cons node xs ih =>
      rw [List.cons_append, Forest.counts, Forest.counts, ih, List.append_assoc]

theorem Forest.mem_counts {count : Nat} {forest : Forest} :
    count ∈ Forest.counts forest ↔ ∃ node ∈ forest, count ∈ node.counts := by
  induction forest with
  | nil => simp [Forest.counts]
  | cons node rest ih => simp [Forest.counts, ih]

/-- Attaching children brings in their counts and no others. -/
theorem Node.mem_counts_attach {more : Forest} {node : Node} {count : Nat} :
    count ∈ (node.attach more).counts ↔ count ∈ node.counts ∨ count ∈ Forest.counts more := by
  cases node with
  | element e times children =>
      simp only [Node.attach, Node.counts, Forest.counts_append, List.mem_append, or_assoc]
  | group times children =>
      rw [Node.attach]
      rcases Forest.onlyGroups_or_eq_append children with
        hgroups | ⟨before, e, t, below, groups, rfl, hgroups⟩
      · rw [Forest.addToLastElement?_of_onlyGroups hgroups, Option.getD_none]
        simp only [Node.counts, Forest.counts_append, List.mem_append, or_assoc]
      · rw [Forest.addToLastElement?_append hgroups, Option.getD_some]
        simp only [Node.counts, Forest.counts, Forest.counts_append, List.mem_append]
        grind

theorem keeps_counts (limits : Limits) :
    Keeps limits fun _ node => ∀ count ∈ node.counts, 1 ≤ count ∧ count ≤ limits.repeatCount where
  element := by
    intro depth e times _ htimes count hcount
    rw [Node.counts, Forest.counts, List.append_nil, Option.mem_toList] at hcount
    exact htimes count hcount
  group := by
    intro depth times nodes _ htimes hnodes count hcount
    rw [Node.counts, List.mem_append, Option.mem_toList, Forest.mem_counts] at hcount
    rcases hcount with hcount | ⟨node, hnode, hcount⟩
    · exact htimes count hcount
    · exact hnodes node hnode count hcount
  attach := by
    intro depth node more _ hnode hmore count hcount
    rw [Node.mem_counts_attach, Forest.mem_counts] at hcount
    rcases hcount with hcount | ⟨child, hchild, hcount⟩
    · exact hnode count hcount
    · exact hmore child hchild count hcount

theorem counts_of_read {limits : Limits} {abbreviation : String} {forest : Forest}
    (h : read limits abbreviation = .ok forest) :
    ∀ count ∈ Forest.counts forest, 1 ≤ count ∧ count ≤ limits.repeatCount := by
  intro count hcount
  obtain ⟨node, hnode, hcount⟩ := Forest.mem_counts.mp hcount
  exact (keeps_counts limits).of_read h node hnode count hcount

/-! ## How far down a node reaches -/

mutual

/-- How far down a node reaches, if an element counts one and a group counts `weight`. -/
def Node.reach (weight : Nat) : Node → Nat
  | .element _ _ children => 1 + Forest.reach weight children
  | .group _ children => weight + Forest.reach weight children

/-- How far down a forest reaches, if an element counts one and a group counts `weight`. -/
def Forest.reach (weight : Nat) : Forest → Nat
  | [] => 0
  | node :: rest => max (node.reach weight) (Forest.reach weight rest)

end

theorem Forest.reach_le_iff {weight n : Nat} {forest : Forest} :
    Forest.reach weight forest ≤ n ↔ ∀ node ∈ forest, node.reach weight ≤ n := by
  induction forest with
  | nil => simp [Forest.reach]
  | cons node rest ih => rw [Forest.reach, Nat.max_le, ih, List.forall_mem_cons]

theorem Forest.reach_append (weight : Nat) (xs ys : Forest) :
    Forest.reach weight (xs ++ ys) = max (Forest.reach weight xs) (Forest.reach weight ys) := by
  induction xs with
  | nil => rw [List.nil_append, Forest.reach, Nat.zero_max]
  | cons node xs ih =>
      rw [List.cons_append, Forest.reach, Forest.reach, ih, Nat.max_assoc]

/-- What is attached gets one level below an element, and two below a group that has one. -/
theorem Node.reach_attach_le (weight : Nat) (node : Node) (more : Forest) :
    (node.attach more).reach weight ≤
      max (node.reach weight) (weight + (1 + Forest.reach weight more)) := by
  cases node with
  | element e times children =>
      rw [Node.attach, Node.reach, Node.reach, Forest.reach_append]
      omega
  | group times children =>
      rw [Node.attach]
      rcases Forest.onlyGroups_or_eq_append children with
        hgroups | ⟨before, e, t, below, groups, rfl, hgroups⟩
      · rw [Forest.addToLastElement?_of_onlyGroups hgroups, Option.getD_none, Node.reach,
          Node.reach, Forest.reach_append]
        omega
      · rw [Forest.addToLastElement?_append hgroups, Option.getD_some]
        simp only [Node.reach, Forest.reach, Forest.reach_append]
        omega

/-- Every level that can still be opened lets a node reach down by one more element and one more
group. -/
theorem keeps_reach (limits : Limits) (weight : Nat) :
    Keeps limits fun depth node =>
      node.reach weight ≤ (weight + 1) * (limits.depth - depth) + 1 := by
  -- one level further up there is one more level to open
  have hlevel : ∀ {depth : Nat}, depth + 1 ≤ limits.depth →
      (weight + 1) * (limits.depth - depth) =
        (weight + 1) * (limits.depth - (depth + 1)) + (weight + 1) := by
    intro depth hdepth
    rw [← Nat.mul_succ]
    congr 1
    omega
  constructor
  · intro depth e times _ _
    rw [Node.reach, Forest.reach]
    exact Nat.le_add_left _ _
  · intro depth times nodes hdepth _ hnodes
    rw [← Forest.reach_le_iff] at hnodes
    rw [Node.reach, hlevel hdepth]
    omega
  · intro depth node more hdepth hnode hmore
    rw [← Forest.reach_le_iff] at hmore
    refine Nat.le_trans (node.reach_attach_le weight more) (Nat.max_le.mpr ⟨hnode, ?_⟩)
    rw [hlevel hdepth]
    omega

theorem reach_of_read {limits : Limits} {abbreviation : String} {forest : Forest}
    (h : read limits abbreviation = .ok forest) (weight : Nat) :
    Forest.reach weight forest ≤ (weight + 1) * (limits.depth - 1) + 1 :=
  Forest.reach_le_iff.mpr ((keeps_reach limits weight).of_read h)

/-! ## Paths -/

mutual

/-- The paths from a node down to a node without children. -/
def Node.paths : Node → List (List Node)
  | .element e times children =>
    (if children.isEmpty then [[]] else Forest.paths children).map (.element e times children :: ·)
  | .group times children =>
    (if children.isEmpty then [[]] else Forest.paths children).map (.group times children :: ·)

/-- The paths from the top of a forest down to a node without children. -/
def Forest.paths : Forest → List (List Node)
  | [] => []
  | node :: rest => node.paths ++ Forest.paths rest

end

/-- The length of a path, in which an element counts one and a group counts `weight`. -/
def pathLength (weight : Nat) (path : List Node) : Nat :=
  path.countP (·.element?.isSome) + weight * path.countP (·.element?.isNone)

theorem pathLength_zero (path : List Node) :
    pathLength 0 path = path.countP (·.element?.isSome) := by
  rw [pathLength, Nat.zero_mul, Nat.add_zero]

theorem pathLength_one (path : List Node) : pathLength 1 path = path.length := by
  rw [pathLength, Nat.one_mul, List.length_eq_countP_add_countP (·.element?.isSome)]
  simp only [Bool.not_eq_true, Option.isSome_eq_false_iff, Bool.decide_eq_true]

theorem pathLength_element (weight : Nat) (e : Element) (times : Option Nat) (children : Forest)
    (path : List Node) :
    pathLength weight (.element e times children :: path) = 1 + pathLength weight path := by
  rw [pathLength, pathLength, List.countP_cons_of_pos rfl,
    List.countP_cons_of_neg Bool.false_ne_true]
  omega

theorem pathLength_group (weight : Nat) (times : Option Nat) (children : Forest)
    (path : List Node) :
    pathLength weight (.group times children :: path) = weight + pathLength weight path := by
  rw [pathLength, pathLength, List.countP_cons_of_neg Bool.false_ne_true,
    List.countP_cons_of_pos rfl, Nat.mul_succ]
  omega

/-- A path goes on below a node, unless it ends there. -/
theorem pathLength_below_le {weight n : Nat} {children : Forest} {path : List Node}
    (h : ∀ path ∈ Forest.paths children, pathLength weight path ≤ n)
    (hpath : path ∈ if children.isEmpty then [[]] else Forest.paths children) :
    pathLength weight path ≤ n := by
  split at hpath
  · rw [List.mem_singleton.mp hpath]
    exact Nat.zero_le _
  · exact h path hpath

mutual

theorem Node.pathLength_le (weight : Nat) : ∀ node : Node,
    ∀ path ∈ node.paths, pathLength weight path ≤ node.reach weight
  | .element e times children, path, hpath => by
      rw [Node.paths] at hpath
      obtain ⟨below, hbelow, rfl⟩ := List.mem_map.mp hpath
      have hlength := pathLength_below_le (Forest.pathLength_le weight children) hbelow
      rw [pathLength_element, Node.reach]
      omega
  | .group times children, path, hpath => by
      rw [Node.paths] at hpath
      obtain ⟨below, hbelow, rfl⟩ := List.mem_map.mp hpath
      have hlength := pathLength_below_le (Forest.pathLength_le weight children) hbelow
      rw [pathLength_group, Node.reach]
      omega

/-- No path is longer than the forest reaches. -/
theorem Forest.pathLength_le (weight : Nat) : ∀ forest : Forest,
    ∀ path ∈ Forest.paths forest, pathLength weight path ≤ Forest.reach weight forest
  | [], path, hpath => by
      rw [Forest.paths] at hpath
      exact nomatch hpath
  | node :: rest, path, hpath => by
      rw [Forest.paths, List.mem_append] at hpath
      rw [Forest.reach]
      rcases hpath with hpath | hpath
      · exact Nat.le_trans (node.pathLength_le weight path hpath) (Nat.le_max_left _ _)
      · exact Nat.le_trans (Forest.pathLength_le weight rest path hpath) (Nat.le_max_right _ _)

end

/-- **The limits of the reader bound the tree.** Whatever is read has a node at the top, no empty
group, and no repeat count but from one up to the limit. No path from the top down has more elements
than levels may be open, or more than twice as many nodes. -/
theorem read_bounded {limits : Limits} {abbreviation : String} {forest : Forest}
    (h : read limits abbreviation = .ok forest) :
    forest ≠ [] ∧ Forest.Filled forest ∧
      (∀ count ∈ Forest.counts forest, 1 ≤ count ∧ count ≤ limits.repeatCount) ∧
      ∀ path ∈ Forest.paths forest,
        path.countP (·.element?.isSome) ≤ limits.depth ∧ path.length ≤ 2 * limits.depth := by
  obtain ⟨hne, hfilled⟩ := ne_nil_and_filled_of_read h
  have hdepth : 1 ≤ limits.depth := (read_eq_ok_iff.mp h).2.2.1
  refine ⟨hne, hfilled, counts_of_read h, fun path hpath => ?_⟩
  have hlength := fun weight =>
    Nat.le_trans (Forest.pathLength_le weight forest path hpath) (reach_of_read h weight)
  have helements := hlength 0
  have hnodes := hlength 1
  rw [pathLength_zero] at helements
  rw [pathLength_one] at hnodes
  omega

/-- Each group gets children, and both limits are reached: the depth by the elements of the only
path, which has two groups besides. -/
theorem read_bounded_nestedGroups :
    ∃ forest, read { depth := 3, repeatCount := 2 } "(a*2)>(b)>c*2" = .ok forest ∧
      Forest.counts forest = [2, 2] ∧
      (Forest.paths forest).map (fun path => (path.countP (·.element?.isSome), path.length)) =
        [(3, 5)] ∧
      forest ≠ [] ∧ Forest.Filled forest ∧ (∀ count ∈ Forest.counts forest, 1 ≤ count ∧ count ≤ 2) ∧
      ∀ path ∈ Forest.paths forest, path.countP (·.element?.isSome) ≤ 3 ∧ path.length ≤ 6 := by
  obtain ⟨forest, h, hview⟩ :
      ∃ forest, read { depth := 3, repeatCount := 2 } "(a*2)>(b)>c*2" = .ok forest ∧
        (Forest.counts forest, (Forest.paths forest).map fun path =>
          (path.countP (·.element?.isSome), path.length)) = ([2, 2], [(3, 5)]) :=
    exists_read_eq_ok (by decide +kernel)
  obtain ⟨hcounts, hpaths⟩ := Prod.mk.inj hview
  exact ⟨forest, h, hcounts, hpaths, read_bounded h⟩

end Shorthand.Markup
