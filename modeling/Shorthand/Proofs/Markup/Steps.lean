import Mathlib.Logic.Relation
import Shorthand.Proofs.Markup.EnclosedElement
import Shorthand.Proofs.Markup.RoundTrip

/-!
# Steps — what one step of the reader can do

The reader has six kinds of step: into a group, over an element, the three operators, and out of a
group. `Step` lists them with what each of them needs, `step_eq_more_iff` says that these are all,
and `read_eq_ok_iff` that a forest is read exactly if steps lead from the start of the abbreviation
to its end. What holds of everything that is read is shown by going through the six kinds of step.

Every level that is opened takes a character, so the levels open and the characters left are never
more than at the start (`Step.depth_add_length_le`).
-/

namespace Shorthand.Markup

open Text

namespace Reading

/-- One step of the reader from a state to the next. -/
inductive Step (limits : Limits) : Reading → Reading → Prop
  | opens {place : Place} {s : List Char} (hdepth : place.depth + 1 ≤ limits.depth) :
      Step limits ⟨place, none, '(' :: s⟩ ⟨.group place ('(' :: s) [], none, s⟩
  | element {place : Place} {s tail rest : List Char} {e : Element} {times : Option Nat}
      (helement : readElement s = .ok (e, tail))
      (htimes : readTimes limits tail = .ok (times, rest)) :
      Step limits ⟨place, none, s⟩ ⟨place, some (.element e times []), rest⟩
  | child {place : Place} {node : Node} {s : List Char} (hdepth : place.depth + 1 ≤ limits.depth) :
      Step limits ⟨place, some node, '>' :: s⟩ ⟨.under place node [], none, s⟩
  | sibling {place : Place} {node : Node} {s : List Char} :
      Step limits ⟨place, some node, '+' :: s⟩ ⟨place.push node, none, s⟩
  | climb {place : Place} {node : Node} {s : List Char} {carets : Span}
      (hcarets : Span.ofClass (· == '^') s = carets) :
      Step limits ⟨place, some node, '^' :: s⟩
        ⟨(place.push node).climb (carets.read.length + 1), none, carets.rest⟩
  | closes {place outer : Place} {node : Node} {nodes : Forest} {opened s rest : List Char}
      {times : Option Nat} (hfinish : place.finish [node] = (nodes, some ⟨outer, opened⟩))
      (htimes : readTimes limits s = .ok (times, rest)) :
      Step limits ⟨place, some node, ')' :: s⟩ ⟨outer, some (.group times nodes), rest⟩

theorem enter_eq_more_iff {limits : Limits} {place : Place} {rest : List Char} {next : Reading} :
    enter limits place rest = .ok (.more next) ↔
      place.depth ≤ limits.depth ∧ next = ⟨place, none, rest⟩ := by
  rw [enter]
  split
  · next hdepth => simp [hdepth, eq_comm]
  · next hdepth => simp [hdepth]

theorem take_eq_more_iff {limits : Limits} {place : Place} {node : Node} {s : List Char}
    {next : Reading} :
    take limits place node s = .ok (.more next) ↔
      ∃ times rest, readTimes limits s = .ok (times, rest) ∧
        next = ⟨place, some (node.withTimes times), rest⟩ := by
  rw [take]
  cases readTimes limits s with
  | error f => simp
  | ok found =>
      obtain ⟨times, rest⟩ := found
      constructor
      · intro h
        cases h
        exact ⟨times, rest, rfl, rfl⟩
      · rintro ⟨_, _, h, rfl⟩
        cases h
        rfl

/-- These are all steps. -/
theorem step_eq_more_iff {limits : Limits} {r next : Reading} :
    r.step limits = .ok (.more next) ↔ Step limits r next := by
  constructor
  · intro h
    obtain ⟨place, pending, s⟩ := r
    cases pending with
    | none =>
        simp only [step] at h
        unfold stepNode at h
        split at h
        · obtain ⟨hdepth, rfl⟩ := enter_eq_more_iff.mp h
          exact .opens hdepth
        · split at h
          · cases h
          · next helement =>
            obtain ⟨times, rest, htimes, rfl⟩ := take_eq_more_iff.mp h
            exact .element helement htimes
    | some node =>
        simp only [step] at h
        unfold stepOperator at h
        split at h
        · obtain ⟨hdepth, rfl⟩ := enter_eq_more_iff.mp h
          exact .child hdepth
        · cases h
          exact .sibling
        · cases h
          exact .climb rfl
        · split at h
          · next hfinish =>
            obtain ⟨times, rest, htimes, rfl⟩ := take_eq_more_iff.mp h
            exact .closes hfinish htimes
          · cases h
        · cases h
        · split at h <;> cases h
  · intro h
    cases h with
    | opens hdepth => exact step_open hdepth _
    | @element place s tail rest e times helement htimes =>
        simp only [step]
        unfold stepNode
        split
        · exact absurd helement (readElement_paren_ne_ok _ _)
        · rw [helement]
          exact take_eq_more_iff.mpr ⟨times, rest, htimes, rfl⟩
    | child hdepth => exact step_child hdepth _ _
    | sibling => rfl
    | climb hcarets =>
        cases hcarets
        rfl
    | closes hfinish htimes =>
        simp only [step, stepOperator, hfinish]
        exact take_eq_more_iff.mpr ⟨_, _, htimes, rfl⟩

theorem run_of_error {limits : Limits} {r : Reading} {f : Fault} (h : r.step limits = .error f) :
    r.run limits = .error f := by
  rw [run]
  split
  · next hfault => rw [h] at hfault; cases hfault; rfl
  · next hdone => rw [h] at hdone; cases hdone
  · next hmore => rw [h] at hmore; cases hmore

/-- The reader has come to the end of its input, and what it has read is `forest`. -/
def Ends (r : Reading) (forest : Forest) : Prop :=
  ∃ place node, r = ⟨place, some node, []⟩ ∧ place.finish [node] = (forest, none)

theorem step_eq_done_iff {limits : Limits} {r : Reading} {forest : Forest} :
    r.step limits = .ok (.done forest) ↔ r.Ends forest := by
  constructor
  · intro h
    obtain ⟨place, pending, s⟩ := r
    cases pending with
    | none =>
        simp only [step] at h
        unfold stepNode enter take at h
        split at h
        · split at h <;> cases h
        · split at h
          · cases h
          · split at h <;> cases h
    | some node =>
        simp only [step] at h
        unfold stepOperator enter take at h
        split at h
        · split at h <;> cases h
        · cases h
        · cases h
        · split at h
          · split at h <;> cases h
          · cases h
        · cases h
        · split at h
          · cases h
          · next hfinish =>
            cases h
            exact ⟨place, node, rfl, hfinish⟩
  · rintro ⟨place, node, rfl, hfinish⟩
    simp only [step, stepOperator, hfinish]

/-- A forest is read exactly if steps lead to the end of the input. -/
theorem run_eq_ok_iff {limits : Limits} {r : Reading} {forest : Forest} :
    r.run limits = .ok forest ↔
      ∃ last, Relation.ReflTransGen (Step limits) r last ∧ last.Ends forest := by
  constructor
  · intro h
    fun_induction run limits r with
    | case1 => cases h
    | case2 r found hstep =>
        cases h
        exact ⟨r, .refl, step_eq_done_iff.mp hstep⟩
    | case3 r next hstep ih =>
        obtain ⟨last, hsteps, hends⟩ := ih h
        exact ⟨last, hsteps.head (step_eq_more_iff.mp hstep), hends⟩
  · rintro ⟨last, hsteps, hends⟩
    induction hsteps using Relation.ReflTransGen.head_induction_on with
    | refl => exact run_of_done (step_eq_done_iff.mpr hends)
    | head hstep _ ih => rw [run_of_more (step_eq_more_iff.mpr hstep), ih]

end Reading

/-- An abbreviation is read exactly if it is not too long, not blank, and steps of the reader lead
from its start to its end. -/
theorem read_eq_ok_iff {limits : Limits} {abbreviation : String} {forest : Forest} :
    read limits abbreviation = .ok forest ↔
      abbreviation.toList.length ≤ limits.abbreviationLength ∧
      abbreviation.toList.all isBlank = false ∧ 1 ≤ limits.depth ∧
      ∃ last,
        Relation.ReflTransGen (Reading.Step limits) ⟨.top [], none, abbreviation.toList⟩ last ∧
        last.Ends forest := by
  have hok : ∀ x : Except Fault Forest,
      x.mapError (Fault.toError abbreviation.toList) = .ok forest ↔ x = .ok forest := by
    intro x
    cases x with
    | error f => constructor <;> (intro h; cases h)
    | ok found => constructor <;> (intro h; cases h; rfl)
  rw [read, hok, readChars, ← Reading.run_eq_ok_iff, Reading.enter]
  by_cases hlength : abbreviation.toList.length ≤ limits.abbreviationLength
  · by_cases hblank : abbreviation.toList.all isBlank = true
    · rw [if_pos hlength, if_pos hblank]
      simp [hblank]
    · rw [if_pos hlength, if_neg hblank]
      by_cases hdepth : (Place.top []).depth ≤ limits.depth
      · have hdepth' : 1 ≤ limits.depth := hdepth
        rw [if_pos hdepth]
        simp [hlength, hblank, hdepth']
      · have hdepth' : ¬1 ≤ limits.depth := hdepth
        rw [if_neg hdepth]
        simp [hdepth']
  · rw [if_neg hlength]
    simp [hlength]

/-! ## How deep the reader can go -/

namespace Place

theorem depth_climb_le (k : Nat) (place : Place) : (place.climb k).depth ≤ place.depth := by
  fun_induction climb k place with
  | case1 k outer parent nodes ih =>
      rw [depth_push] at ih
      exact Nat.le_succ_of_le ih
  | case2 => exact Nat.le_refl _

theorem depth_outer_lt_of_finish {place : Place} {more nodes : Forest} {around : Enclosing}
    (h : place.finish more = (nodes, some around)) : around.outer.depth < place.depth := by
  induction place generalizing more with
  | top own => cases h
  | group outer opened own ih =>
      cases h
      exact Nat.lt_succ_self _
  | under outer parent own ih => exact Nat.lt_succ_of_lt (ih h)

end Place

namespace Reading

/-- A level that is opened takes a character. -/
theorem Step.depth_add_length_le {limits : Limits} {r next : Reading} (h : Step limits r next) :
    next.place.depth + next.rest.length ≤ r.place.depth + r.rest.length := by
  cases h with
  | opens => simp only [Place.depth, List.length_cons]; omega
  | element helement htimes =>
      have hread := length_readElement_lt helement
      have hrest := length_readTimes_le htimes
      exact Nat.add_le_add_left (Nat.le_trans hrest (Nat.le_of_lt hread)) _
  | child => simp only [Place.depth, List.length_cons]; omega
  | sibling => simp only [Place.depth_push, List.length_cons]; omega
  | @climb place node s carets hcarets =>
      have hclimb := Place.depth_climb_le (carets.read.length + 1) (place.push node)
      have hlength := Span.length_rest_ofClass_le (· == '^') s
      rw [hcarets] at hlength
      rw [Place.depth_push] at hclimb
      simp only [List.length_cons]
      omega
  | closes hfinish htimes =>
      have houter := Place.depth_outer_lt_of_finish hfinish
      have hrest := length_readTimes_le htimes
      simp only [List.length_cons] at houter ⊢
      omega

/-- So no step needs more depth than there are levels open and characters left. -/
theorem Step.with_depth {limits : Limits} {r next : Reading} (h : Step limits r next) {depth : Nat}
    (hdepth : r.place.depth + r.rest.length ≤ depth) : Step { limits with depth } r next := by
  cases h with
  | @opens place s =>
      simp only [List.length_cons] at hdepth
      exact .opens (by show place.depth + 1 ≤ depth; omega)
  | element helement htimes => exact .element helement htimes
  | @child place node s =>
      simp only [List.length_cons] at hdepth
      exact .child (by show place.depth + 1 ≤ depth; omega)
  | sibling => exact .sibling
  | climb hcarets => exact .climb hcarets
  | closes hfinish htimes => exact .closes hfinish htimes

end Reading

end Shorthand.Markup
