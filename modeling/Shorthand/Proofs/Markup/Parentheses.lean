import Shorthand.Expand
import Shorthand.Proofs.Markup.NormalForm
import Shorthand.Proofs.Markup.Steps

/-!
# Parentheses — a group of everything is everything

An abbreviation in parentheses is read like the abbreviation alone, with a group where the top was:
each step of the one reading is a step of the other (`Step.inside`), since a closing parenthesis
ends elements, counts and levels as the end of the input does. At the parenthesis, what the one
reading is finished with is what the group of the other has in it.

The passes look through a group that is not repeated, so nothing of it is left in the result
(`expand_parenthesized`).
-/

namespace Shorthand.Markup

open Text

/-! ## Places inside a group -/

namespace Place

/-- The place with the group `around` for its top, and with `tail` behind all that is left to
read. -/
def inside (around : Enclosing) (tail : List Char) : Place → Place
  | .top nodes => .group around.outer around.opened nodes
  | .group outer opened nodes => .group (outer.inside around tail) (opened ++ tail) nodes
  | .under outer parent nodes => .under (outer.inside around tail) parent nodes

variable {around : Enclosing} {tail : List Char}

theorem depth_inside (place : Place) :
    (place.inside around tail).depth = place.depth + around.outer.depth := by
  induction place with
  | top nodes => rw [inside, depth, depth, Nat.add_comm]
  | group outer opened nodes ih => rw [inside, depth, depth, ih, Nat.add_right_comm]
  | under outer parent nodes ih => rw [inside, depth, depth, ih, Nat.add_right_comm]

theorem inside_push (place : Place) (node : Node) :
    (place.push node).inside around tail = (place.inside around tail).push node := by
  cases place <;> rfl

/-- The group is as far up as the top was. -/
theorem inside_climb (k : Nat) (place : Place) :
    (place.climb k).inside around tail = (place.inside around tail).climb k := by
  fun_induction climb k place with
  | case1 k outer parent nodes ih => rw [ih, inside_push, inside, climb]
  | case2 k place hstay =>
      cases place with
      | top nodes => cases k <;> rfl
      | group outer opened nodes => cases k <;> rfl
      | under outer parent nodes =>
          cases k with
          | zero => rfl
          | succ k => exact absurd rfl (hstay k outer parent nodes rfl)

theorem finish_inside_group {place : Place} {more nodes : Forest} {inner : Enclosing}
    (h : place.finish more = (nodes, some inner)) :
    (place.inside around tail).finish more =
      (nodes, some ⟨inner.outer.inside around tail, inner.opened ++ tail⟩) := by
  induction place generalizing more with
  | top own => cases h
  | group outer opened own ih =>
      cases h
      rfl
  | under outer parent own ih => exact ih h

/-- What the top is finished with is what the group has in it. -/
theorem finish_inside_top {place : Place} {more nodes : Forest}
    (h : place.finish more = (nodes, none)) :
    (place.inside around tail).finish more = (nodes, some around) := by
  induction place generalizing more with
  | top own =>
      cases h
      rfl
  | group outer opened own ih => cases h
  | under outer parent own ih => exact ih h

end Place

/-! ## Steps inside a group -/

namespace Reading

/-- The state of the reader inside the group `around`, where `tail` follows. -/
def inside (around : Enclosing) (tail : List Char) (r : Reading) : Reading :=
  ⟨r.place.inside around tail, r.pending, r.rest ++ tail⟩

/-- Each step of the reader is a step inside a group, under limits that admit the depth of the group
as well. -/
theorem Step.inside {limits deeper : Limits} {r next : Reading} (h : Step limits r next)
    {around : Enclosing} (hdepth : limits.depth + around.outer.depth ≤ deeper.depth)
    (hcount : deeper.repeatCount = limits.repeatCount) (tail : List Char) :
    Step deeper (r.inside around (')' :: tail)) (next.inside around (')' :: tail)) := by
  have htimes : ∀ s, readTimes deeper s = readTimes limits s := by
    intro s
    simp only [readTimes, hcount]
  have hroom : ∀ place : Place, place.depth + 1 ≤ limits.depth →
      (place.inside around (')' :: tail)).depth + 1 ≤ deeper.depth := by
    intro place hplace
    rw [Place.depth_inside]
    omega
  cases h with
  | opens hopen => exact .opens (hroom _ hopen)
  | element helement hread =>
      have hclose := (htimes _).trans (readTimes_close hread tail)
      exact .element (readElement_close helement tail) hclose
  | child hopen => exact .child (hroom _ hopen)
  | sibling =>
      simp only [Reading.inside, Place.inside_push]
      exact .sibling
  | @climb place node s carets hcarets =>
      have hsame : Span.ofClass (· == '^') (s ++ ')' :: tail) =
          ⟨carets.read, carets.rest ++ ')' :: tail⟩ := by
        rw [Span.ofClass_append_tail (by simp), hcarets]
      simp only [Reading.inside, Place.inside_climb, Place.inside_push]
      exact .climb hsame
  | closes hfinish hread =>
      exact .closes (Place.finish_inside_group hfinish)
        ((htimes _).trans (readTimes_close hread tail))

/-- All steps of a reading are steps inside a group, if there is depth enough for the characters
left. -/
theorem steps_inside {limits : Limits} {r last : Reading}
    (h : Relation.ReflTransGen (Step limits) r last) {around : Enclosing}
    (hdepth : r.place.depth + r.rest.length + around.outer.depth ≤ limits.depth)
    (tail : List Char) :
    Relation.ReflTransGen (Step limits) (r.inside around (')' :: tail))
      (last.inside around (')' :: tail)) := by
  induction h using Relation.ReflTransGen.head_induction_on with
  | refl => exact .refl
  | @head r next hstep _ ih =>
      have hnext := hstep.depth_add_length_le
      exact (ih (by omega)).head ((hstep.with_depth (Nat.le_refl _)).inside hdepth rfl tail)

end Reading

/-! ## Reading a group -/

/-- What is read as a forest is read as a group of that forest between parentheses. -/
theorem steps_parenthesized {limits : Limits} {a : String} {forest : Forest}
    (h : read limits a = .ok forest) {outer : Place}
    (hdepth : a.length + 1 + outer.depth ≤ limits.depth) {tail rest : List Char}
    {times : Option Nat} (htimes : readTimes limits tail = .ok (times, rest)) :
    Relation.ReflTransGen (Reading.Step limits) ⟨outer, none, '(' :: (a.toList ++ ')' :: tail)⟩
      ⟨outer, some (.group times forest), rest⟩ := by
  obtain ⟨_, _, _, last, hsteps, place, node, rfl, hfinish⟩ := read_eq_ok_iff.mp h
  let around : Enclosing := ⟨outer, '(' :: (a.toList ++ ')' :: tail)⟩
  have hopens : Reading.Step limits ⟨outer, none, '(' :: (a.toList ++ ')' :: tail)⟩
      (Reading.inside around (')' :: tail) ⟨.top [], none, a.toList⟩) := .opens (by omega)
  have hroom : (Place.top []).depth + a.toList.length + around.outer.depth ≤ limits.depth := by
    rw [String.length_toList]
    simp only [Place.depth, around]
    omega
  have hcloses : Reading.Step limits (Reading.inside around (')' :: tail) ⟨place, some node, []⟩)
      ⟨outer, some (.group times forest), rest⟩ :=
    .closes (Place.finish_inside_top hfinish) htimes
  exact ((Reading.steps_inside hsteps hroom tail).tail hcloses).head hopens

theorem read_parenthesized {limits : Limits} {a : String} {forest : Forest}
    (h : read limits a = .ok forest) (hlength : a.length + 2 ≤ limits.abbreviationLength)
    (hdepth : a.length + 2 ≤ limits.depth) :
    read limits ("(" ++ a ++ ")") = .ok [.group none forest] := by
  have htext : ("(" ++ a ++ ")").toList = '(' :: (a.toList ++ [')']) := by simp
  have hfits : ('(' :: (a.toList ++ [')'])).length ≤ limits.abbreviationLength := by
    rw [List.length_cons, List.length_append, String.length_toList]
    exact hlength
  have hblank : ('(' :: (a.toList ++ [')'])).all isBlank = false := by
    rw [List.all_cons]
    rfl
  have htimes : readTimes limits [] = .ok (none, []) := rfl
  have houter : a.length + 1 + (Place.top []).depth ≤ limits.depth := hdepth
  rw [read_eq_ok_iff, htext]
  exact ⟨hfits, hblank, by omega, _, steps_parenthesized h houter htimes, _, _, rfl, rfl⟩

/-! ## Looking through a group -/

theorem replaceElements_group (f : Element → Option Nat → Forest → Except Failure Node)
    (times : Option Nat) (forest : Forest) :
    Forest.replaceElements f [.group times forest] =
      (do let replaced ← Forest.replaceElements f forest; return [.group times replaced]) := by
  rw [Forest.replaceElements, Node.replaceElements, Forest.replaceElements]
  cases Forest.replaceElements f forest <;> rfl

theorem expandSnippets_group (limits : Limits) (times : Option Nat) (forest : Forest) :
    expandSnippets limits [.group times forest] =
      (do let expanded ← expandSnippets limits forest; return [.group times expanded]) := by
  unfold expandSnippets Snippet.resolve
  exact replaceElements_group _ times forest

theorem unrollFrom_group (limits : Limits) (copy : Copy) (made : Nat) (forest : Forest) :
    Forest.unrollFrom limits copy made [.group none forest] =
      Forest.unrollFrom limits copy made forest := by
  rw [Forest.unrollFrom_cons, Node.copies, Node.times, Node.unroll]
  simp only [Forest.unrollFrom]
  cases Forest.unrollFrom limits copy made forest with
  | error => rfl
  | ok unrolled => exact congrArg Except.ok (by rw [List.append_nil])

theorem parse_of_group {limits : Limits} {a grouped : String} {forest : Forest}
    (h : read limits a = .ok forest) (hgrouped : read limits grouped = .ok [.group none forest]) :
    parse limits grouped = parse limits a := by
  simp only [parse, h, hgrouped]
  show (expandSnippets limits [.group none forest] >>= _) = (expandSnippets limits forest >>= _)
  rw [expandSnippets_group]
  cases expandSnippets limits forest with
  | error => rfl
  | ok expanded =>
      have hunroll : unroll limits [.group none (nameImplicitly expanded)] =
          unroll limits (nameImplicitly expanded) := by
        rw [unroll, unrollFrom_group, unroll]
      exact congrArg (Except.mapError Failure.rejected) hunroll

/-- **Parentheses around a whole abbreviation change nothing**: what is read as a forest is read in
parentheses as the group of that forest, and expands to the same text or the same error. The limits
have to admit an abbreviation of that length, and as many levels. -/
theorem expand_parenthesized {o : Options} {a : String} {forest : Forest}
    (h : read o.limits a = .ok forest) (hlength : a.length + 2 ≤ o.limits.abbreviationLength)
    (hdepth : a.length + 2 ≤ o.limits.depth) :
    read o.limits ("(" ++ a ++ ")") = .ok [.group none forest] ∧
      Shorthand.expand .markup o ("(" ++ a ++ ")") = Shorthand.expand .markup o a := by
  have hgroup := read_parenthesized h hlength hdepth
  refine ⟨hgroup, ?_⟩
  show expand o ("(" ++ a ++ ")") = expand o a
  rw [expand, expand, parse_of_group h hgroup]

/-- The parenthesis follows a snippet name that ends in `+`, which it leaves to the name as the end
of the input does. -/
theorem expand_parenthesized_marker :
    ∃ forest, read .unlimited "p>(h$)*2^dl+" = .ok forest ∧
      read .unlimited "(p>(h$)*2^dl+)" = .ok [.group none forest] ∧
      (Shorthand.expand .markup { limits := .unlimited } "(p>(h$)*2^dl+)").toOption =
        some "<p>\n\t<h1></h1>\n\t<h2></h2>\n</p>\n<dl>\n\t<dt></dt>\n\t<dd></dd>\n</dl>" := by
  have htext : (Shorthand.expand .markup { limits := .unlimited } "p>(h$)*2^dl+").toOption =
      some "<p>\n\t<h1></h1>\n\t<h2></h2>\n</p>\n<dl>\n\t<dt></dt>\n\t<dd></dd>\n</dl>" := by
    decide +kernel
  cases hread : read .unlimited "p>(h$)*2^dl+" with
  | ok forest =>
      obtain ⟨hgroup, hsame⟩ := expand_parenthesized (o := { limits := .unlimited }) hread
        (by decide +kernel) (by decide +kernel)
      exact ⟨forest, rfl, hgroup, (congrArg Except.toOption hsame).trans htext⟩
  | error e =>
      have hok : (read .unlimited "p>(h$)*2^dl+").toBool = true := by decide +kernel
      rw [hread] at hok
      cases hok

end Shorthand.Markup
