import Shorthand.Proofs.Markup.Steps

/-!
# Operators — where elements go

`>`, `+` and `^` say how deep the next element is: one level below the one before it, on the same
level, or as many levels up as there are carets, but never above the top. An abbreviation of bare
names therefore denotes a list of names with depths (`placed`), and `read_chain` says that it is
read as the forest with that list in preorder, of which there is one.

The forest is built level by level while the reader goes down and up, so the argument follows what
has been read so far: `Place.outline` lists it with depths, no matter how many levels are open, and
each operator only adds the node before it to that list.
-/

namespace Shorthand.Markup

open Text

/-! ## Outlines -/

mutual

/-- The nodes of a node in preorder, each with its depth and without its children. -/
def Node.outline (depth : Nat) : Node → List (Nat × Node)
  | .element e times children =>
    (depth, .element e times []) :: Forest.outline (depth + 1) children
  | .group times children => (depth, .group times []) :: Forest.outline (depth + 1) children

/-- The nodes of a forest in preorder, each with its depth and without its children. -/
def Forest.outline (depth : Nat) : Forest → List (Nat × Node)
  | [] => []
  | node :: rest => node.outline depth ++ Forest.outline depth rest

end

namespace Forest

@[simp] theorem outline_nil (depth : Nat) : outline depth [] = [] := by rw [outline]

@[simp] theorem outline_append (depth : Nat) (xs ys : Forest) :
    outline depth (xs ++ ys) = outline depth xs ++ outline depth ys := by
  induction xs with
  | nil => simp
  | cons node xs ih => simp only [List.cons_append, outline, ih, List.append_assoc]

@[simp] theorem outline_singleton (depth : Nat) (node : Node) :
    outline depth [node] = node.outline depth := by
  simp [outline]

end Forest

/-- The outline of a node starts with the node itself, and goes on with its children. -/
theorem Node.outline_eq_cons (depth : Nat) (node : Node) :
    ∃ label, node.outline depth = (depth, label) :: Forest.outline (depth + 1) node.children := by
  cases node with
  | element e times children => exact ⟨_, by rw [Node.outline, Node.children]⟩
  | group times children => exact ⟨_, by rw [Node.outline, Node.children]⟩

mutual

theorem Node.depth_le_of_mem_outline : ∀ (node : Node) (depth : Nat),
    ∀ entry ∈ node.outline depth, depth ≤ entry.1
  | .element e times children, depth, entry, h => by
      rw [Node.outline, List.mem_cons] at h
      rcases h with rfl | h
      · exact Nat.le_refl _
      · exact Nat.le_of_succ_le (Forest.depth_le_of_mem_outline children (depth + 1) entry h)
  | .group times children, depth, entry, h => by
      rw [Node.outline, List.mem_cons] at h
      rcases h with rfl | h
      · exact Nat.le_refl _
      · exact Nat.le_of_succ_le (Forest.depth_le_of_mem_outline children (depth + 1) entry h)

/-- Nothing in an outline is above the depth that it starts at. -/
theorem Forest.depth_le_of_mem_outline : ∀ (forest : Forest) (depth : Nat),
    ∀ entry ∈ Forest.outline depth forest, depth ≤ entry.1
  | [], depth, entry, h => by
      rw [Forest.outline] at h
      cases h
  | node :: rest, depth, entry, h => by
      rw [Forest.outline, List.mem_append] at h
      rcases h with h | h
      · exact Node.depth_le_of_mem_outline node depth entry h
      · exact Forest.depth_le_of_mem_outline rest depth entry h

end

/-- In the outline of a node with its siblings, the children are what is deeper than the node. -/
theorem Forest.takeWhile_outline (depth : Nat) (children rest : Forest) :
    (outline (depth + 1) children ++ outline depth rest).takeWhile (depth < ·.1) =
        outline (depth + 1) children ∧
      (outline (depth + 1) children ++ outline depth rest).dropWhile (depth < ·.1) =
        outline depth rest := by
  have hdeeper : ∀ entry ∈ outline (depth + 1) children, decide (depth < entry.1) = true :=
    fun entry h => decide_eq_true (depth_le_of_mem_outline children (depth + 1) entry h)
  rw [List.takeWhile_append_of_pos hdeeper, List.dropWhile_append_of_pos hdeeper]
  cases rest with
  | nil => simp
  | cons node rest =>
      obtain ⟨label, hlabel⟩ := node.outline_eq_cons depth
      simp [outline, hlabel]

mutual

theorem Node.eq_of_outline_eq {depth : Nat} : ∀ {a b : Node},
    a.outline depth = b.outline depth → a = b
  | .element e times children, b, h => by
      cases b with
      | element e' times' children' =>
          simp only [Node.outline, List.cons.injEq, Prod.mk.injEq, Node.element.injEq, true_and,
            and_true] at h
          rw [h.1.1, h.1.2, Forest.eq_of_outline_eq h.2]
      | group times' children' => simp [Node.outline] at h
  | .group times children, b, h => by
      cases b with
      | element e' times' children' => simp [Node.outline] at h
      | group times' children' =>
          simp only [Node.outline, List.cons.injEq, Prod.mk.injEq, Node.group.injEq, true_and,
            and_true] at h
          rw [h.1, Forest.eq_of_outline_eq h.2]

/-- **A forest is known by its outline.** -/
theorem Forest.eq_of_outline_eq {depth : Nat} : ∀ {a b : Forest},
    Forest.outline depth a = Forest.outline depth b → a = b
  | [], [], _ => rfl
  | [], node :: rest, h => by
      obtain ⟨label, hlabel⟩ := node.outline_eq_cons depth
      simp [Forest.outline, hlabel] at h
  | node :: rest, [], h => by
      obtain ⟨label, hlabel⟩ := node.outline_eq_cons depth
      simp [Forest.outline, hlabel] at h
  | node :: rest, node' :: rest', h => by
      obtain ⟨label, hlabel⟩ := node.outline_eq_cons depth
      obtain ⟨label', hlabel'⟩ := node'.outline_eq_cons depth
      rw [Forest.outline, Forest.outline, hlabel, hlabel', List.cons_append, List.cons_append,
        List.cons.injEq] at h
      obtain ⟨hhead, htail⟩ := h
      -- both lists go on with what is deeper, up to the first sibling
      have hchildren := congrArg (List.takeWhile (depth < ·.1)) htail
      have hrest := congrArg (List.dropWhile (depth < ·.1)) htail
      rw [(Forest.takeWhile_outline ..).1, (Forest.takeWhile_outline ..).1] at hchildren
      rw [(Forest.takeWhile_outline ..).2, (Forest.takeWhile_outline ..).2] at hrest
      rw [Node.eq_of_outline_eq (hlabel.trans (hhead ▸ hchildren ▸ hlabel'.symm)),
        Forest.eq_of_outline_eq hrest]

end

/-! ## What has been read so far -/

namespace Place

/-- How deep a node in the level of the place is. -/
def level : Place → Nat
  | .top _ => 0
  | .group outer _ _ => outer.level + 1
  | .under outer _ _ => outer.level + 1

theorem depth_eq_level_add_one (place : Place) : place.depth = place.level + 1 := by
  induction place with
  | top nodes => rfl
  | group outer opened nodes ih => rw [depth, level, ih]
  | under outer parent nodes ih => rw [depth, level, ih]

/-- The outline of all levels of a place. -/
def outline : Place → List (Nat × Node)
  | .top nodes => Forest.outline 0 nodes
  | .group outer _ nodes =>
    outer.outline ++ (outer.level, .group none []) :: Forest.outline (outer.level + 1) nodes
  | .under outer parent nodes =>
    outer.outline ++ (parent.outline outer.level ++ Forest.outline (outer.level + 1) nodes)

/-- No group is open, and the children that are being read are those of elements. -/
def Plain : Place → Prop
  | .top _ => True
  | .group _ _ _ => False
  | .under outer parent _ => outer.Plain ∧ parent.element?.isSome = true

@[simp] theorem level_push (place : Place) (node : Node) :
    (place.push node).level = place.level := by
  cases place <;> rfl

theorem Plain.push {place : Place} (h : place.Plain) (node : Node) : (place.push node).Plain := by
  cases place with
  | top nodes => trivial
  | group outer opened nodes => exact h.elim
  | under outer parent nodes => exact h

@[simp] theorem outline_push (place : Place) (node : Node) :
    (place.push node).outline = place.outline ++ node.outline place.level := by
  cases place <;> simp [push, outline, level]

end Place

/-- What is put below an element follows it in the outline. -/
theorem Node.outline_attach {node : Node} (h : node.element?.isSome = true) (depth : Nat)
    (more : Forest) :
    (node.attach more).outline depth = node.outline depth ++ Forest.outline (depth + 1) more := by
  cases node with
  | element e times children => simp [Node.attach, Node.outline]
  | group times children => cases h

namespace Place

/-- Climbing changes nothing but the level. -/
theorem Plain.climb {place : Place} (h : place.Plain) (k : Nat) :
    (place.climb k).Plain ∧ (place.climb k).level = place.level - k ∧
      (place.climb k).outline = place.outline := by
  fun_induction Place.climb k place with
  | case1 k outer parent nodes ih =>
      obtain ⟨hplain, hlevel, houtline⟩ := ih (h.1.push _)
      refine ⟨hplain, ?_, ?_⟩
      · rw [hlevel, level_push, level]
        omega
      · rw [houtline, outline_push, Node.outline_attach h.2, outline]
  | case2 k place hstay =>
      refine ⟨h, ?_, rfl⟩
      cases place with
      | top nodes => exact (Nat.zero_sub k).symm
      | group outer opened nodes => exact h.elim
      | under outer parent nodes =>
          cases k with
          | zero => rfl
          | succ k => exact absurd rfl (hstay k outer parent nodes rfl)

/-- Finishing a place without groups gives all that has been read. -/
theorem Plain.finish {place : Place} (h : place.Plain) (more : Forest) :
    ∃ forest, place.finish more = (forest, none) ∧
      Forest.outline 0 forest = place.outline ++ Forest.outline place.level more := by
  induction place generalizing more with
  | top nodes => exact ⟨nodes ++ more, rfl, Forest.outline_append 0 nodes more⟩
  | group outer opened nodes => exact h.elim
  | under outer parent nodes ih =>
      obtain ⟨forest, hfinish, houtline⟩ := ih h.1 [parent.attach (nodes ++ more)]
      refine ⟨forest, hfinish, ?_⟩
      rw [houtline, Forest.outline_singleton, Node.outline_attach h.2, Forest.outline_append,
        outline, level]
      simp only [List.append_assoc]

end Place

/-! ## Operators -/

/-- What can stand between two elements. -/
inductive Operator where
  | child
  | sibling
  /-- One caret and `more` others. -/
  | climb (more : Nat)
  deriving Repr, DecidableEq

namespace Operator

def print : Operator → List Char
  | .child => ['>']
  | .sibling => ['+']
  | .climb more => '^' :: List.replicate more '^'

/-- How deep the element after the operator is, if the one before it is at `depth`. -/
def depthAfter (depth : Nat) : Operator → Nat
  | .child => depth + 1
  | .sibling => depth
  | .climb more => depth - (more + 1)

/-- The place that the operator leads to after `node`. -/
def next (place : Place) (node : Node) : Operator → Place
  | .child => .under place node []
  | .sibling => place.push node
  | .climb more => (place.push node).climb (more + 1)

/-- An operator adds the node before it to what has been read, and goes to the level it denotes. -/
theorem next_plain {place : Place} (h : place.Plain) {node : Node}
    (hnode : node.element?.isSome = true) (o : Operator) :
    (o.next place node).Plain ∧ (o.next place node).level = o.depthAfter place.level ∧
      (o.next place node).outline = place.outline ++ node.outline place.level := by
  cases o with
  | child => exact ⟨⟨h, hnode⟩, rfl, by simp [next, Place.outline]⟩
  | sibling => exact ⟨h.push node, place.level_push node, place.outline_push node⟩
  | climb more =>
      obtain ⟨hplain, hlevel, houtline⟩ := (h.push node).climb (more + 1)
      exact ⟨hplain, by rw [next, hlevel, Place.level_push, depthAfter],
        by rw [next, houtline, Place.outline_push]⟩

end Operator

/-! ## Chains of names -/

/-- Names with operators between them. -/
def printChain (first : String) : List (Operator × String) → List Char
  | [] => first.toList
  | (o, name) :: rest => first.toList ++ (o.print ++ printChain name rest)

/-- The names of a chain with the depths that the operators give them, the first at `depth`. -/
def placed (depth : Nat) (first : String) : List (Operator × String) → List (Nat × String)
  | [] => [(depth, first)]
  | (o, name) :: rest => (depth, first) :: placed (o.depthAfter depth) name rest

theorem mem_placed_first (depth : Nat) (first : String) (rest : List (Operator × String)) :
    (depth, first) ∈ placed depth first rest := by
  cases rest <;> exact List.mem_cons_self

/-- Each operator goes down one level at most. -/
theorem placed_le {depth : Nat} {first : String} {rest : List (Operator × String)} :
    ∀ entry ∈ placed depth first rest, entry.1 ≤ depth + rest.length := by
  induction rest generalizing depth first with
  | nil => simp [placed]
  | cons next rest ih =>
      obtain ⟨o, name⟩ := next
      have hafter : o.depthAfter depth ≤ depth + 1 := by
        cases o <;> simp only [Operator.depthAfter] <;> omega
      intro entry hentry
      rw [List.length_cons]
      rcases List.mem_cons.mp hentry with rfl | hentry
      · exact Nat.le_add_right _ _
      · have := ih entry hentry
        omega

/-- An element with nothing but a name. -/
def bareElement (name : String) : Node := .element { name := some (.ofText name) } none []

@[simp] theorem outline_bareElement (depth : Nat) (name : String) :
    (bareElement name).outline depth = [(depth, bareElement name)] := by
  simp [bareElement, Node.outline]

/-- What the outline of a chain is. -/
def chainOutline (depth : Nat) (first : String) (rest : List (Operator × String)) :
    List (Nat × Node) :=
  (placed depth first rest).map fun entry => (entry.1, bareElement entry.2)

theorem IsPlainName.exists_cons {name : String} (h : IsPlainName (.ofText name)) :
    ∃ c s, name.toList = c :: s ∧ isNameChar c = true := by
  obtain ⟨hne, hchars⟩ := h
  obtain ⟨c, s, hc⟩ := List.exists_cons_of_ne_nil
    (fun hnil => hne (String.toList_eq_nil_iff.mp hnil))
  exact ⟨c, s, hc, List.all_eq_true.mp hchars c (hc ▸ List.mem_cons_self)⟩

theorem printChain_eq_cons {first : String} (h : IsPlainName (.ofText first))
    (rest : List (Operator × String)) :
    ∃ c s, printChain first rest = c :: s ∧ isNameChar c = true := by
  obtain ⟨c, s, hc, hname⟩ := h.exists_cons
  cases rest with
  | nil => exact ⟨c, s, hc, hname⟩
  | cons entry rest => exact ⟨c, _, by rw [printChain, hc, List.cons_append], hname⟩

theorem Operator.followsNode (o : Operator) {c : Char} (hc : isNameChar c = true) (s : List Char) :
    FollowsNode (o.print ++ c :: s) := by
  cases o with
  | child => exact .child _
  | sibling => exact .sibling (endsLevel_of_startsNode (by simp [startsNode, startsElement, hc]) s)
  | climb more => exact .climb _

namespace Reading

/-- A bare name is read as an element of that name. -/
theorem step_name (limits : Limits) {name : String} (h : IsPlainName (.ofText name))
    {rest : List Char} (hrest : FollowsNode rest) (place : Place) :
    step limits ⟨place, none, name.toList ++ rest⟩ =
      .ok (.more ⟨place, some (bareElement name), rest⟩) := by
  have hcanonical : Element.Canonical { name := some (.ofText name) } := by
    refine ⟨?_, by simp, by simp, by simp, by simp⟩
    intro v hv
    cases hv
    exact h
  have hprint : Element.print { name := some (.ofText name) } = name.toList := by
    rw [Element.print_named rfl]
    simp [Element.printModifiers, printText]
  have hfits : RepeatFits limits none := by simp [RepeatFits]
  have hstep := step_element hcanonical hfits hrest place
  rwa [hprint] at hstep

/-- An operator before a name leads where it says, if the limits admit that depth. -/
theorem step_operator {limits : Limits} {place : Place} (o : Operator)
    (hdepth : o.depthAfter place.level < limits.depth) (node : Node) {c : Char}
    (hc : isNameChar c = true) (s : List Char) :
    step limits ⟨place, some node, o.print ++ c :: s⟩ =
      .ok (.more ⟨o.next place node, none, c :: s⟩) := by
  cases o with
  | child => exact step_child (by rw [Place.depth_eq_level_add_one]; exact hdepth) node (c :: s)
  | sibling => rfl
  | climb more =>
      have hcaret : c ≠ '^' := by
        rintro rfl
        exact absurd hc (by decide)
      have hcarets : Span.ofClass (· == '^') (List.replicate more '^' ++ c :: s) =
          ⟨List.replicate more '^', c :: s⟩ := Span.ofClass_append (by simp) (by simpa using hcaret)
      simp only [Operator.print, List.cons_append, step, stepOperator, hcarets,
        List.length_replicate, Operator.next]

/-- Only going down can fail, at the depth limit. -/
theorem step_operator_rejected {limits : Limits} {place : Place}
    (hlevel : place.level < limits.depth) {o : Operator}
    (hdepth : ¬o.depthAfter place.level < limits.depth) (node : Node) (s : List Char) :
    ∃ f, step limits ⟨place, some node, o.print ++ s⟩ = .error f := by
  cases o with
  | child =>
      refine ⟨⟨.nestingTooDeep limits.depth, s⟩, if_neg ?_⟩
      rw [Place.depth, Place.depth_eq_level_add_one]
      exact hdepth
  | sibling => exact absurd hlevel hdepth
  | climb more => exact absurd (Nat.lt_of_le_of_lt (Nat.sub_le _ _) hlevel) hdepth

end Reading

/-- What comes of reading a chain behind what has been read before: all of it with the chain in the
places that the operators denote, if the limits admit every depth, and else a fault. -/
def ChainRead (limits : Limits) (before : List (Nat × Node)) (depth : Nat) (first : String)
    (rest : List (Operator × String)) : Except Fault Forest → Prop
  | .ok forest =>
    Forest.outline 0 forest = before ++ chainOutline depth first rest ∧
      ∀ entry ∈ placed depth first rest, entry.1 < limits.depth
  | .error _ => ∃ entry ∈ placed depth first rest, limits.depth ≤ entry.1

theorem ChainRead.cons {limits : Limits} {before : List (Nat × Node)} {depth : Nat}
    (hdepth : depth < limits.depth) {first name : String} {o : Operator}
    {rest : List (Operator × String)} {result : Except Fault Forest}
    (h : ChainRead limits (before ++ [(depth, bareElement first)]) (o.depthAfter depth) name rest
      result) :
    ChainRead limits before depth first ((o, name) :: rest) result := by
  cases result with
  | ok forest =>
      refine ⟨?_, List.forall_mem_cons.mpr ⟨hdepth, h.2⟩⟩
      rw [h.1, List.append_assoc, List.singleton_append]
      rfl
  | error f =>
      obtain ⟨entry, hentry, hdeep⟩ := h
      exact ⟨entry, List.mem_cons_of_mem _ hentry, hdeep⟩

/-- Reading a chain goes from name to name, by induction on the operators. -/
theorem chainRead_run {limits : Limits} (rest : List (Operator × String)) (first : String)
    (place : Place) (hplain : place.Plain) (hlevel : place.level < limits.depth)
    (hfirst : IsPlainName (.ofText first)) (hrest : ∀ entry ∈ rest, IsPlainName (.ofText entry.2)) :
    ChainRead limits place.outline place.level first rest
      (Reading.run limits ⟨place, none, printChain first rest⟩) := by
  induction rest generalizing first place with
  | nil =>
      obtain ⟨forest, hfinish, houtline⟩ := hplain.finish [bareElement first]
      have hstep := Reading.step_name limits hfirst .nil place
      rw [List.append_nil] at hstep
      have hdone : Reading.step limits ⟨place, some (bareElement first), []⟩ = .ok (.done forest) :=
        Reading.step_eq_done_iff.mpr ⟨place, _, rfl, hfinish⟩
      rw [printChain, Reading.run_of_more hstep, Reading.run_of_done hdone]
      refine ⟨?_, by simpa [placed] using hlevel⟩
      rw [houtline, Forest.outline_singleton, outline_bareElement]
      rfl
  | cons entry rest ih =>
      obtain ⟨o, name⟩ := entry
      obtain ⟨hname, hrest⟩ := List.forall_mem_cons.mp hrest
      obtain ⟨c, s, hc, hchar⟩ := printChain_eq_cons hname rest
      have helement : (bareElement first).element?.isSome = true := rfl
      obtain ⟨hnext, hnextLevel, houtline⟩ := o.next_plain hplain helement
      have hstep := Reading.step_name limits hfirst (o.followsNode hchar s) place
      rw [printChain, hc, Reading.run_of_more hstep]
      by_cases hdepth : o.depthAfter place.level < limits.depth
      · rw [Reading.run_of_more (Reading.step_operator o hdepth _ hchar s), ← hc]
        have hread := ih name _ hnext (hnextLevel ▸ hdepth) hname hrest
        rw [hnextLevel, houtline, outline_bareElement] at hread
        exact hread.cons hlevel
      · obtain ⟨f, hfault⟩ :=
          Reading.step_operator_rejected hlevel hdepth (bareElement first) (c :: s)
        rw [Reading.run_of_error hfault]
        exact ⟨_, List.mem_cons_of_mem _ (mem_placed_first _ name rest), Nat.le_of_not_lt hdepth⟩

/-- A chain is read exactly if its length and every depth in it are within the limits, and then as
the forest it denotes. -/
theorem read_printChain {limits : Limits} {first : String} {rest : List (Operator × String)}
    (hnames : ∀ name ∈ first :: rest.map Prod.snd, IsPlainName (.ofText name)) {forest : Forest} :
    read limits (String.ofList (printChain first rest)) = .ok forest ↔
      Forest.outline 0 forest = chainOutline 0 first rest ∧
        (printChain first rest).length ≤ limits.abbreviationLength ∧
        ∀ entry ∈ placed 0 first rest, entry.1 < limits.depth := by
  obtain ⟨hfirst, hrest⟩ := List.forall_mem_cons.mp hnames
  have hread (hdepth : 0 < limits.depth) : ChainRead limits [] 0 first rest
      (Reading.run limits ⟨.top [], none, printChain first rest⟩) :=
    chainRead_run rest first (.top []) trivial hdepth hfirst
      (fun entry h => hrest _ (List.mem_map_of_mem h))
  have hblank : (printChain first rest).all isBlank = false := by
    obtain ⟨c, s, hc, hchar⟩ := printChain_eq_cons hfirst rest
    rw [hc, List.all_cons, isNameChar_not_blank hchar, Bool.false_and]
  rw [read_eq_ok_iff, ← Reading.run_eq_ok_iff, String.toList_ofList]
  constructor
  · rintro ⟨hlength, _, hdepth, hrun⟩
    have hchain := hread hdepth
    rw [hrun] at hchain
    exact ⟨hchain.1, hlength, hchain.2⟩
  · rintro ⟨houtline, hlength, hdepths⟩
    have hdepth : 0 < limits.depth := hdepths _ (mem_placed_first 0 first rest)
    have hchain := hread hdepth
    refine ⟨hlength, hblank, hdepth, ?_⟩
    cases hrun : Reading.run limits ⟨.top [], none, printChain first rest⟩ with
    | ok found =>
        rw [hrun] at hchain
        rw [Forest.eq_of_outline_eq (hchain.1.trans houtline.symm)]
    | error f =>
        rw [hrun] at hchain
        obtain ⟨entry, hentry, hdeep⟩ := hchain
        exact absurd (hdepths entry hentry) (Nat.not_lt.mpr hdeep)

/-- Whatever operators stand between names, some forest has them where they denote. -/
theorem exists_outline_eq_chainOutline {first : String} {rest : List (Operator × String)}
    (hnames : ∀ name ∈ first :: rest.map Prod.snd, IsPlainName (.ofText name)) :
    ∃ forest, Forest.outline 0 forest = chainOutline 0 first rest := by
  obtain ⟨hfirst, hrest⟩ := List.forall_mem_cons.mp hnames
  -- it is what is read under limits that no chain of this many operators can meet
  let roomy : Limits := { depth := rest.length + 1 }
  have hchain : ChainRead roomy [] 0 first rest
      (Reading.run roomy ⟨.top [], none, printChain first rest⟩) :=
    chainRead_run rest first (.top []) trivial (Nat.succ_pos _) hfirst
      (fun entry h => hrest _ (List.mem_map_of_mem h))
  cases hrun : Reading.run roomy ⟨.top [], none, printChain first rest⟩ with
  | ok forest =>
      rw [hrun] at hchain
      exact ⟨forest, hchain.1⟩
  | error f =>
      rw [hrun] at hchain
      obtain ⟨entry, hentry, hdeep⟩ := hchain
      have := placed_le entry hentry
      exact absurd (Nat.zero_add rest.length ▸ this) (Nat.not_le.mpr hdeep)

/-- **Operators place elements at the depth they denote**: for names with operators between them
there is exactly one forest that has the names in order at the depths that the operators give them,
and the abbreviation is read as that forest under all limits that admit its length and its
depths. -/
theorem read_chain (first : String) (rest : List (Operator × String))
    (hnames : ∀ name ∈ first :: rest.map Prod.snd, IsPlainName (.ofText name)) :
    ∃ forest, (∀ other, Forest.outline 0 other = chainOutline 0 first rest ↔ other = forest) ∧
      ∀ limits, read limits (String.ofList (printChain first rest)) = .ok forest ↔
        (printChain first rest).length ≤ limits.abbreviationLength ∧
          ∀ entry ∈ placed 0 first rest, entry.1 < limits.depth := by
  obtain ⟨forest, hforest⟩ := exists_outline_eq_chainOutline hnames
  refine ⟨forest, fun other => ⟨?_, ?_⟩, fun limits => ?_⟩
  · intro hother
    exact Forest.eq_of_outline_eq (hother.trans hforest.symm)
  · rintro rfl
    exact hforest
  · rw [read_printChain hnames]
    exact and_iff_right hforest

/-- Down three levels, up more levels than there are, and up one. -/
theorem read_chain_surplus :
    (∀ name ∈ ["ul", "li", "b", "p", "em", "i", "hr"], IsPlainName (.ofText name)) ∧
    printChain "ul" [(.child, "li"), (.child, "b"), (.climb 4, "p"), (.child, "em"), (.child, "i"),
      (.climb 0, "hr")] = "ul>li>b^^^^^p>em>i^hr".toList ∧
    placed 0 "ul" [(.child, "li"), (.child, "b"), (.climb 4, "p"), (.child, "em"), (.child, "i"),
      (.climb 0, "hr")] =
        [(0, "ul"), (1, "li"), (2, "b"), (0, "p"), (1, "em"), (2, "i"), (1, "hr")] ∧
    ∃ forest, read {} "ul>li>b^^^^^p>em>i^hr" = .ok forest ∧
      Forest.outline 0 forest =
        [(0, bareElement "ul"), (1, bareElement "li"), (2, bareElement "b"), (0, bareElement "p"),
          (1, bareElement "em"), (2, bareElement "i"), (1, bareElement "hr")] := by
  have hnames : ∀ name ∈ ["ul", "li", "b", "p", "em", "i", "hr"], IsPlainName (.ofText name) := by
    decide +kernel
  refine ⟨hnames, by decide +kernel, by decide +kernel, ?_⟩
  obtain ⟨forest, hunique, hread⟩ := read_chain "ul" [(.child, "li"), (.child, "b"),
    (.climb 4, "p"), (.child, "em"), (.child, "i"), (.climb 0, "hr")] hnames
  refine ⟨forest, ?_, (hunique forest).mpr rfl⟩
  exact (hread {}).mpr (by decide +kernel)

end Shorthand.Markup
