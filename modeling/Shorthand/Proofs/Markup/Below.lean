import Shorthand.Proofs.Markup.Operators
import Shorthand.Proofs.Markup.Parentheses

/-!
# Below — what is read after `>`

The nodes that follow a `>` are collected and put below the node before it only when the level is
left. So what they are does not depend on that node: two readings that differ in it go the same
steps (`Place.Swapped`), and end with the same nodes put below the one and below the other
(`run_swapped`). If the level is not left before the end, they are the nodes that are read without
anything before them (`run_beneath`).

A group is read to its end before the `>`, and only the depth limit can stop the reader in it. Where
the whole is accepted it does not (`Step.of_run`), so no limit has to be asked for.
-/

namespace Shorthand.Markup

open Text

namespace Reading

variable {limits : Limits} {forest : Forest}

theorem Step.run_eq {r next : Reading} (h : Step limits r next) :
    r.run limits = next.run limits :=
  run_of_more (step_eq_more_iff.mpr h)

/-- Where a reading is accepted, no level is too deep for it. -/
theorem depth_le_of_enter {r : Reading} {place : Place} {rest : List Char}
    (hstep : r.step limits = enter limits place rest) (hrun : r.run limits = .ok forest) :
    place.depth ≤ limits.depth := by
  by_cases hdepth : place.depth ≤ limits.depth
  · exact hdepth
  · rw [enter, if_neg hdepth] at hstep
    rw [run_of_error hstep] at hrun
    cases hrun

/-- A step that some depth limit admits is taken in every reading that is accepted. -/
theorem Step.of_run {depth : Nat} {r next : Reading} (h : Step { limits with depth } r next)
    (hrun : r.run limits = .ok forest) : Step limits r next := by
  cases h with
  | @opens place s =>
      have hstep : step limits ⟨place, none, '(' :: s⟩ =
          enter limits (.group place ('(' :: s) []) s := rfl
      exact .opens (depth_le_of_enter hstep hrun)
  | element helement htimes => exact .element helement htimes
  | @child place node s =>
      have hstep : step limits ⟨place, some node, '>' :: s⟩ =
          enter limits (.under place node []) s := rfl
      exact .child (depth_le_of_enter hstep hrun)
  | sibling => exact .sibling
  | climb hcarets => exact .climb hcarets
  | closes hfinish htimes => exact .closes hfinish htimes

/-- The steps of a reading are taken inside a group as well, if all is accepted. -/
theorem run_inside {r last : Reading} (h : Relation.ReflTransGen (Step limits) r last)
    {around : Enclosing} {tail : List Char}
    (hrun : (r.inside around (')' :: tail)).run limits = .ok forest) :
    (last.inside around (')' :: tail)).run limits = .ok forest := by
  induction h using Relation.ReflTransGen.head_induction_on with
  | refl => exact hrun
  | head hstep _ ih =>
      have hinside := @Step.inside limits
        { limits with depth := limits.depth + around.outer.depth } _ _ hstep around (Nat.le_refl _)
        rfl tail
      rw [(hinside.of_run hrun).run_eq] at hrun
      exact ih hrun

/-- A group is read as the group of what is in it, if all is accepted. -/
theorem run_group {g : String} {inner : Forest} (hg : read limits g = .ok inner) {outer : Place}
    {tail rest : List Char} {times : Option Nat}
    (htimes : readTimes limits tail = .ok (times, rest))
    (hrun : run limits ⟨outer, none, '(' :: (g.toList ++ ')' :: tail)⟩ = .ok forest) :
    run limits ⟨outer, some (.group times inner), rest⟩ = .ok forest := by
  obtain ⟨_, _, _, last, hsteps, place, node, rfl, hfinish⟩ := read_eq_ok_iff.mp hg
  let around : Enclosing := ⟨outer, '(' :: (g.toList ++ ')' :: tail)⟩
  have hopens : Step { limits with depth := outer.depth + 1 }
      ⟨outer, none, '(' :: (g.toList ++ ')' :: tail)⟩
      (Reading.inside around (')' :: tail) ⟨.top [], none, g.toList⟩) := .opens (Nat.le_refl _)
  rw [(hopens.of_run hrun).run_eq] at hrun
  have hcloses : Step limits (Reading.inside around (')' :: tail) ⟨place, some node, []⟩)
      ⟨outer, some (.group times inner), rest⟩ :=
    .closes (Place.finish_inside_top hfinish) htimes
  rw [← hcloses.run_eq]
  exact run_inside hsteps hrun

end Reading

/-! ## Another node before it -/

/-- Two places that differ only in the first node of all: `a` in the one and `b` in the other. What
follows it is being put below it, or has been, and other nodes beside it. -/
inductive Place.Swapped (a b : Node) : Place → Place → Prop
  | first (nodes : Forest) : Swapped a b (.under (.top []) a nodes) (.under (.top []) b nodes)
  | beside {children : Forest} (hne : children ≠ []) (nodes : Forest) :
      Swapped a b (.top (a.attach children :: nodes)) (.top (b.attach children :: nodes))
  | group {x y : Place} (h : Swapped a b x y) (opened : List Char) (nodes : Forest) :
      Swapped a b (.group x opened nodes) (.group y opened nodes)
  | under {x y : Place} (h : Swapped a b x y) (parent : Node) (nodes : Forest) :
      Swapped a b (.under x parent nodes) (.under y parent nodes)

namespace Place.Swapped

variable {a b : Node} {x y : Place}

theorem depth_eq (h : Swapped a b x y) : x.depth = y.depth := by
  induction h with
  | first => rfl
  | beside => rfl
  | group _ _ _ ih => rw [depth, depth, ih]
  | under _ _ _ ih => rw [depth, depth, ih]

theorem push (h : Swapped a b x y) (node : Node) : Swapped a b (x.push node) (y.push node) := by
  cases h with
  | first nodes => exact .first _
  | beside hne nodes => exact .beside hne _
  | group h opened nodes => exact .group h opened _
  | under h parent nodes => exact .under h parent _

theorem climb (h : Swapped a b x y) (node : Node) (k : Nat) :
    Swapped a b ((x.push node).climb k) ((y.push node).climb k) := by
  induction h generalizing node k with
  | first nodes =>
      cases k with
      | zero => exact .first _
      | succ k =>
          have hne : nodes ++ [node] ≠ [] := by simp
          cases k <;> exact .beside hne []
  | beside hne nodes => cases k <;> exact .beside hne _
  | group h opened nodes => cases k <;> exact .group h opened _
  | under h parent nodes ih =>
      cases k with
      | zero => exact .under h parent _
      | succ k => exact ih (parent.attach (nodes ++ [node])) k

theorem finish_group (h : Swapped a b x y) {more nodes : Forest} {around : Enclosing}
    (hfinish : x.finish more = (nodes, some around)) :
    ∃ outer, Swapped a b around.outer outer ∧
      y.finish more = (nodes, some ⟨outer, around.opened⟩) := by
  induction h generalizing more with
  | first => cases hfinish
  | beside => cases hfinish
  | group h opened own =>
      cases hfinish
      exact ⟨_, h, rfl⟩
  | under h parent own ih => exact ih hfinish

theorem finish_top (h : Swapped a b x y) {more result : Forest} (hmore : more ≠ [])
    (hfinish : x.finish more = (result, none)) :
    ∃ children nodes, children ≠ [] ∧ result = a.attach children :: nodes ∧
      y.finish more = (b.attach children :: nodes, none) := by
  induction h generalizing more with
  | first nodes =>
      cases hfinish
      exact ⟨nodes ++ more, [], by simp [hmore], rfl, rfl⟩
  | beside hne nodes =>
      cases hfinish
      exact ⟨_, nodes ++ more, hne, rfl, rfl⟩
  | group => cases hfinish
  | under h parent nodes ih => exact ih (by simp) hfinish

end Place.Swapped

namespace Reading

variable {limits : Limits} {a b : Node}

/-- The two readings go the same steps. -/
theorem step_swapped {x y : Place} (h : Place.Swapped a b x y) {pending : Option Node}
    {s : List Char} {next : Reading} (hstep : Step limits ⟨x, pending, s⟩ next) :
    ∃ z, Place.Swapped a b next.place z ∧
      Step limits ⟨y, pending, s⟩ ⟨z, next.pending, next.rest⟩ := by
  cases hstep with
  | opens hdepth => exact ⟨_, h.group _ _, .opens (h.depth_eq ▸ hdepth)⟩
  | element helement htimes => exact ⟨_, h, .element helement htimes⟩
  | child hdepth => exact ⟨_, h.under _ _, .child (h.depth_eq ▸ hdepth)⟩
  | sibling => exact ⟨_, h.push _, .sibling⟩
  | climb hcarets => exact ⟨_, h.climb _ _, .climb hcarets⟩
  | closes hfinish htimes =>
      obtain ⟨outer, houter, hfinish⟩ := h.finish_group hfinish
      exact ⟨outer, houter, .closes hfinish htimes⟩

theorem steps_swapped {r last : Reading} (hsteps : Relation.ReflTransGen (Step limits) r last)
    {y : Place} (h : Place.Swapped a b r.place y) :
    ∃ z, Place.Swapped a b last.place z ∧
      Relation.ReflTransGen (Step limits) ⟨y, r.pending, r.rest⟩ ⟨z, last.pending, last.rest⟩ := by
  induction hsteps with
  | refl => exact ⟨y, h, .refl⟩
  | tail _ hstep ih =>
      obtain ⟨z, hz, hsteps⟩ := ih
      obtain ⟨w, hw, hstep⟩ := step_swapped hz hstep
      exact ⟨w, hw, hsteps.tail hstep⟩

/-- What is read after `>` is put below whatever stands before it. -/
theorem run_swapped {c : List Char} {forest : Forest}
    (hrun : run limits ⟨.under (.top []) a [], none, c⟩ = .ok forest) (b : Node) :
    ∃ children nodes, children ≠ [] ∧ forest = a.attach children :: nodes ∧
      run limits ⟨.under (.top []) b [], none, c⟩ = .ok (b.attach children :: nodes) := by
  obtain ⟨last, hsteps, place, node, rfl, hfinish⟩ := run_eq_ok_iff.mp hrun
  obtain ⟨z, hz, hsteps⟩ := steps_swapped hsteps (Place.Swapped.first (b := b) [])
  obtain ⟨children, nodes, hne, hforest, hfinish⟩ := hz.finish_top (by simp) hfinish
  exact ⟨children, nodes, hne, hforest, run_eq_ok_iff.mpr ⟨_, hsteps, z, node, rfl, hfinish⟩⟩

end Reading

/-! ## Nothing before it -/

namespace Place

/-- The place with its top level below a node. -/
def beneath (parent : Node) : Place → Place
  | .top nodes => .under (.top []) parent nodes
  | .group outer opened nodes => .group (outer.beneath parent) opened nodes
  | .under outer above nodes => .under (outer.beneath parent) above nodes

/-- The nodes that the top level has so far. -/
def ground : Place → Forest
  | .top nodes => nodes
  | .group outer _ _ => outer.ground
  | .under outer _ _ => outer.ground

variable {parent : Node}

theorem depth_beneath (place : Place) : (place.beneath parent).depth = place.depth + 1 := by
  induction place with
  | top nodes => rfl
  | group outer opened nodes ih => rw [beneath, depth, depth, ih]
  | under outer above nodes ih => rw [beneath, depth, depth, ih]

theorem beneath_push (place : Place) (node : Node) :
    (place.push node).beneath parent = (place.beneath parent).push node := by
  cases place <;> rfl

theorem ground_push {place : Place} (h : place.ground ≠ []) (node : Node) :
    (place.push node).ground ≠ [] := by
  cases place with
  | top nodes => simp [push, ground]
  | group outer opened nodes => exact h
  | under outer above nodes => exact h

theorem ground_climb {place : Place} (h : place.ground ≠ []) (k : Nat) :
    (place.climb k).ground ≠ [] := by
  fun_induction climb k place with
  | case1 k outer above nodes ih =>
      have houter : outer.ground ≠ [] := h
      exact ih (ground_push houter _)
  | case2 => exact h

variable (parent) in
/-- Climbing leads to the same place, or out of the level that is below the node. -/
theorem beneath_climb (k : Nat) (place : Place) :
    (place.beneath parent).climb k = (place.climb k).beneath parent ∨
      ((place.beneath parent).climb k).ground ≠ [] := by
  fun_induction climb k place with
  | case1 k outer above nodes ih =>
      rw [beneath_push] at ih
      exact ih
  | case2 k place hstay =>
      cases place with
      | top nodes =>
          cases k with
          | zero => exact .inl rfl
          | succ k => exact .inr (ground_climb (by simp [push, ground]) k)
      | group outer opened nodes => cases k <;> exact .inl rfl
      | under outer above nodes =>
          cases k with
          | zero => exact .inl rfl
          | succ k => exact absurd rfl (hstay k outer above nodes rfl)

theorem ground_of_finish {place : Place} {more nodes : Forest} {around : Enclosing}
    (h : place.finish more = (nodes, some around)) : around.outer.ground = place.ground := by
  induction place generalizing more with
  | top own => cases h
  | group outer opened own =>
      cases h
      rfl
  | under outer above own ih => exact ih h

/-- With something on the ground already, there is more than one node in the end. -/
theorem two_le_length_of_finish {place : Place} {more nodes : Forest} (hground : place.ground ≠ [])
    (hmore : more ≠ []) (h : place.finish more = (nodes, none)) : 2 ≤ nodes.length := by
  induction place generalizing more with
  | top own =>
      cases h
      have hown := List.length_pos_iff.mpr hground
      have hlast := List.length_pos_iff.mpr hmore
      rw [ground] at hown
      rw [List.length_append]
      omega
  | group outer opened own => cases h
  | under outer above own ih => exact ih hground (by simp) h

theorem finish_beneath_group {place : Place} {more nodes : Forest} {around : Enclosing}
    (h : (place.beneath parent).finish more = (nodes, some around)) :
    ∃ outer : Place, around.outer = outer.beneath parent ∧
      place.finish more = (nodes, some ⟨outer, around.opened⟩) := by
  induction place generalizing more with
  | top own => cases h
  | group outer opened own =>
      cases h
      exact ⟨outer, rfl, rfl⟩
  | under outer above own ih => exact ih h

theorem finish_beneath_top {place : Place} {more nodes : Forest}
    (h : (place.beneath parent).finish more = (nodes, none)) :
    ∃ children, place.finish more = (children, none) ∧ nodes = [parent.attach children] := by
  induction place generalizing more with
  | top own =>
      cases h
      exact ⟨own ++ more, rfl, rfl⟩
  | group outer opened own => cases h
  | under outer above own ih => exact ih h

end Place

namespace Reading

variable {limits : Limits} {parent : Node}

theorem Step.ground {r next : Reading} (h : Step limits r next) (hground : r.place.ground ≠ []) :
    next.place.ground ≠ [] := by
  cases h with
  | opens => exact hground
  | element => exact hground
  | child => exact hground
  | sibling => exact Place.ground_push hground _
  | climb => exact Place.ground_climb (Place.ground_push hground _) _
  | closes hfinish =>
      have houter := Place.ground_of_finish hfinish
      exact houter ▸ hground

/-- Below a node the reader goes the steps that it goes without it, as long as it stays below. -/
theorem step_beneath {place : Place} {pending : Option Node} {s : List Char} {next : Reading}
    (h : Step limits ⟨place.beneath parent, pending, s⟩ next) :
    (∃ z : Place, next.place = z.beneath parent ∧
      Step limits ⟨place, pending, s⟩ ⟨z, next.pending, next.rest⟩) ∨ next.place.ground ≠ [] := by
  have hroom (hdepth : (place.beneath parent).depth + 1 ≤ limits.depth) :
      place.depth + 1 ≤ limits.depth := by
    rw [Place.depth_beneath] at hdepth
    omega
  cases h with
  | opens hdepth => exact .inl ⟨.group place _ [], rfl, .opens (hroom hdepth)⟩
  | element helement htimes => exact .inl ⟨place, rfl, .element helement htimes⟩
  | child hdepth => exact .inl ⟨.under place _ [], rfl, .child (hroom hdepth)⟩
  | @sibling _ node => exact .inl ⟨place.push node, (place.beneath_push node).symm, .sibling⟩
  | @climb _ node s carets hcarets =>
      have hclimb := Place.beneath_climb parent (carets.read.length + 1) (place.push node)
      rw [Place.beneath_push] at hclimb
      exact hclimb.imp (fun hplace => ⟨_, hplace, .climb hcarets⟩) id
  | closes hfinish htimes =>
      obtain ⟨outer, houter, hfinish⟩ := Place.finish_beneath_group hfinish
      exact .inl ⟨outer, houter, .closes hfinish htimes⟩

theorem steps_beneath {c : List Char} {last : Reading}
    (h : Relation.ReflTransGen (Step limits) ⟨.under (.top []) parent [], none, c⟩ last) :
    (∃ z : Place, last.place = z.beneath parent ∧ Relation.ReflTransGen (Step limits)
      ⟨.top [], none, c⟩ ⟨z, last.pending, last.rest⟩) ∨ last.place.ground ≠ [] := by
  induction h with
  | refl => exact .inl ⟨.top [], rfl, .refl⟩
  | @tail r next _ hstep ih =>
      obtain ⟨place, pending, s⟩ := r
      rcases ih with ⟨z, rfl, hsteps⟩ | hground
      · exact (step_beneath hstep).imp (fun ⟨w, hw, hstep⟩ => ⟨w, hw, hsteps.tail hstep⟩) id
      · exact .inr (hstep.ground hground)

/-- If nothing is beside the node in the end, what is below it is what is read without it. -/
theorem run_beneath {c : List Char} {first : Node}
    (hrun : run limits ⟨.under (.top []) parent [], none, c⟩ = .ok [first]) :
    ∃ children, first = parent.attach children ∧
      run limits ⟨.top [], none, c⟩ = .ok children := by
  obtain ⟨last, hsteps, place, node, rfl, hfinish⟩ := run_eq_ok_iff.mp hrun
  rcases steps_beneath hsteps with ⟨z, hz, hsteps⟩ | hground
  · obtain rfl : place = z.beneath parent := hz
    obtain ⟨children, hinner, hfirst⟩ := Place.finish_beneath_top hfinish
    cases hfirst
    exact ⟨children, rfl, run_eq_ok_iff.mpr ⟨_, hsteps, z, node, rfl, hinner⟩⟩
  · have hlength := Place.two_le_length_of_finish hground (by simp) hfinish
    rw [List.length_singleton] at hlength
    omega

end Reading

/-! ## Whole abbreviations -/

theorem readElement_blank_ne_ok {s : List Char} (h : s.all isBlank = true)
    (found : Element × List Char) : readElement s ≠ .ok found := by
  have hstart : EndsName s ∧ ∀ e, readModifiers e s = .ok (e, s) := by
    cases s with
    | nil =>
        constructor
        · intro afterChar
          rw [scanName]
        · intro e
          rw [readModifiers] <;> simp
    | cons c s =>
        rw [List.all_cons, Bool.and_eq_true] at h
        have hother : ∀ d, isBlank d = false → c ≠ d := by
          rintro d hd rfl
          rw [h.1] at hd
          cases hd
        have hname : isNameChar c = false :=
          Bool.eq_false_iff.mpr fun hc => hother c (isNameChar_not_blank hc) rfl
        constructor
        · exact endsName_cons hname (hother '$' (by decide))
            fun hc => absurd hc (hother '+' (by decide))
        · intro e
          have hid := hother '#' (by decide)
          have hclass := hother '.' (by decide)
          have hset := hother '[' (by decide)
          have htext := hother '{' (by decide)
          have hslash := hother '/' (by decide)
          rw [readModifiers] <;> simp [hid, hclass, hset, htext, hslash]
  simp only [readElement, hstart.1 false, hstart.2, Nat.lt_irrefl, if_false]
  cases s <;> simp

/-- A reading that is accepted has something to read. -/
theorem Reading.not_blank_of_run {limits : Limits} {place : Place} {s : List Char} {forest : Forest}
    (hrun : run limits ⟨place, none, s⟩ = .ok forest) : s.all isBlank = false := by
  refine Bool.eq_false_iff.mpr fun hblank => ?_
  obtain ⟨last, hsteps, above, node, rfl, _⟩ := run_eq_ok_iff.mp hrun
  rcases Relation.ReflTransGen.cases_head hsteps with heq | ⟨next, hstep, _⟩
  · cases heq
  · cases hstep with
    | opens => simp [show isBlank '(' = false by decide] at hblank
    | element helement => exact readElement_blank_ne_ok hblank _ helement

theorem read_eq_ok_iff_run {limits : Limits} {abbreviation : String} {forest : Forest} :
    read limits abbreviation = .ok forest ↔
      abbreviation.length ≤ limits.abbreviationLength ∧ 1 ≤ limits.depth ∧
        Reading.run limits ⟨.top [], none, abbreviation.toList⟩ = .ok forest := by
  rw [read_eq_ok_iff, ← Reading.run_eq_ok_iff, String.length_toList]
  constructor
  · rintro ⟨hlength, _, hdepth, hrun⟩
    exact ⟨hlength, hdepth, hrun⟩
  · rintro ⟨hlength, hdepth, hrun⟩
    exact ⟨hlength, Reading.not_blank_of_run hrun, hdepth, hrun⟩

/-- After a group and `>` the reader is below the group, with nothing there yet. -/
theorem Reading.run_of_read_group {limits : Limits} {g c : String} {inner forest : Forest}
    (hg : read limits g = .ok inner) (h : read limits ("(" ++ g ++ ")>" ++ c) = .ok forest) :
    2 ≤ limits.depth ∧
      run limits ⟨.under (.top []) (.group none inner) [], none, c.toList⟩ = .ok forest := by
  obtain ⟨_, _, hrun⟩ := read_eq_ok_iff_run.mp h
  have htext : ("(" ++ g ++ ")>" ++ c).toList = '(' :: (g.toList ++ ')' :: '>' :: c.toList) := by
    simp
  have htimes : readTimes limits ('>' :: c.toList) = .ok (none, '>' :: c.toList) := rfl
  rw [htext] at hrun
  have hafter := run_group hg htimes hrun
  have hstep : step limits ⟨.top [], some (.group none inner), '>' :: c.toList⟩ =
      enter limits (.under (.top []) (.group none inner) []) c.toList := rfl
  have hdepth := depth_le_of_enter hstep hafter
  have hchild : Step limits ⟨.top [], some (.group none inner), '>' :: c.toList⟩ _ := .child hdepth
  rw [hchild.run_eq] at hafter
  exact ⟨hdepth, hafter⟩

/-- **What follows a group** and a `>` is put below the group as it is put below a name. Unless it
climbs out of there, it is what it is read as by itself. -/
theorem read_group_child {limits : Limits} {g c : String} {inner forest : Forest}
    (hg : read limits g = .ok inner) (h : read limits ("(" ++ g ++ ")>" ++ c) = .ok forest) :
    ∃ children beside, children ≠ [] ∧
      forest = (Node.group none inner).attach children :: beside ∧
      read limits ("p>" ++ c) =
        .ok (.element { name := some (.ofText "p") } none children :: beside) ∧
      (beside = [] → read limits c = .ok children) := by
  obtain ⟨hlength, _, _⟩ := read_eq_ok_iff_run.mp h
  obtain ⟨hdepth, hrun⟩ := Reading.run_of_read_group hg h
  obtain ⟨children, beside, hne, hforest, hname⟩ := Reading.run_swapped hrun (bareElement "p")
  have hroom : 2 + c.length ≤ limits.abbreviationLength := by
    have hparens : "(".length = 1 ∧ ")>".length = 2 := ⟨rfl, rfl⟩
    rw [String.length_append, String.length_append, String.length_append] at hlength
    omega
  refine ⟨children, beside, hne, hforest, read_eq_ok_iff_run.mpr ⟨?_, by omega, ?_⟩, ?_⟩
  · rw [String.length_append]
    exact hroom
  · have hstep := Reading.step_name limits (show IsPlainName (.ofText "p") by decide)
      (.child c.toList) (.top [])
    have hchild : Reading.Step limits ⟨.top [], some (bareElement "p"), '>' :: c.toList⟩ _ :=
      .child hdepth
    have htext : ("p>" ++ c).toList = "p".toList ++ '>' :: c.toList := by simp
    rw [htext, Reading.run_of_more hstep, hchild.run_eq]
    exact hname
  · rintro rfl
    obtain ⟨alone, hattach, halone⟩ := Reading.run_beneath hname
    obtain rfl : children = alone := by
      simpa only [bareElement, Node.attach, List.nil_append, Node.element.injEq, true_and] using
        hattach
    exact read_eq_ok_iff_run.mpr ⟨by omega, by omega, halone⟩

end Shorthand.Markup
