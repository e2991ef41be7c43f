import Shorthand.Markup.ElementReader
import Shorthand.Markup.Place

/-!
# Reading a markup abbreviation

The reader goes through the abbreviation once, from left to right. Its state is a `Reading`: the
place in the tree, the node just read if an operator is due, and the rest of the input. Each `step`
reads one element, one opening parenthesis or one operator, so each step shortens the input
(`Reading.length_step_lt`) and the reading ends.

The operators between nodes are `>` (what follows are children), `+` (siblings) and a run of `^`
(siblings that many levels up).
-/

namespace Shorthand.Markup

open Text

/-- The state of a reader. -/
structure Reading where
  place : Place
  /-- The node just read, when an operator is due; none when a node is due. -/
  pending : Option Node
  rest : List Char
  deriving Repr

/-- What a step leads to: another state, or the finished forest. -/
inductive Progress where
  | more (next : Reading)
  | done (forest : Forest)
  deriving Repr

namespace Reading

/-- Opens a level, unless too many are open already. -/
def enter (limits : Limits) (place : Place) (rest : List Char) : Except Fault Progress :=
  if place.depth ≤ limits.depth then .ok (.more { place, pending := none, rest })
  else .error ⟨.nestingTooDeep limits.depth, rest⟩

/-- Takes a node that was just read, after giving it the repeat count that follows it. -/
def take (limits : Limits) (place : Place) (node : Node) (rest : List Char) :
    Except Fault Progress :=
  match readTimes limits rest with
  | .error f => .error f
  | .ok (times, rest) => .ok (.more { place, pending := some (node.withTimes times), rest })

/-- A step where a node is due: an open parenthesis starts a group, anything else is an element. -/
def stepNode (limits : Limits) (place : Place) : List Char → Except Fault Progress
  | '(' :: s => enter limits (.group place ('(' :: s) []) s
  | s =>
    match readElement s with
    | .error f => .error f
    | .ok (e, rest) => take limits place (.element e none []) rest

/-- A step where an operator is due after `node`. -/
def stepOperator (limits : Limits) (place : Place) (node : Node) :
    List Char → Except Fault Progress
  | '>' :: s => enter limits (.under place node []) s
  | '+' :: s => .ok (.more { place := place.push node, pending := none, rest := s })
  | '^' :: s =>
    let carets := Span.ofClass (· == '^') s
    .ok (.more
      { place := (place.push node).climb (carets.read.length + 1)
        pending := none
        rest := carets.rest })
  | ')' :: s =>
    match place.finish [node] with
    | (nodes, some around) => take limits around.outer (.group none nodes) s
    | (_, none) => .error ⟨.unexpectedChar ')', ')' :: s⟩
  | c :: s => .error ⟨.unexpectedChar c, c :: s⟩
  | [] =>
    match place.finish [node] with
    | (_, some around) => .error ⟨.unclosedGroup, around.opened⟩
    | (nodes, none) => .ok (.done nodes)

/-- One step of the reader. -/
def step (limits : Limits) (r : Reading) : Except Fault Progress :=
  match r.pending with
  | none => stepNode limits r.place r.rest
  | some node => stepOperator limits r.place node r.rest

theorem rest_of_enter {limits : Limits} {place : Place} {rest : List Char} {next : Reading}
    (h : enter limits place rest = .ok (.more next)) : next.rest = rest := by
  unfold enter at h
  split at h
  · cases h
    rfl
  · cases h

theorem length_take_le {limits : Limits} {place : Place} {node : Node} {rest : List Char}
    {next : Reading} (h : take limits place node rest = .ok (.more next)) :
    next.rest.length ≤ rest.length := by
  unfold take at h
  split at h
  · cases h
  · next htimes =>
    cases h
    exact length_readTimes_le htimes

theorem length_stepNode_lt {limits : Limits} {place : Place} {s : List Char} {next : Reading}
    (h : stepNode limits place s = .ok (.more next)) : next.rest.length < s.length := by
  unfold stepNode at h
  split at h
  · rw [rest_of_enter h]
    exact Nat.lt_succ_self _
  · split at h
    · cases h
    · next helement => exact Nat.lt_of_le_of_lt (length_take_le h) (length_readElement_lt helement)

theorem length_stepOperator_lt {limits : Limits} {place : Place} {node : Node} {s : List Char}
    {next : Reading} (h : stepOperator limits place node s = .ok (.more next)) :
    next.rest.length < s.length := by
  unfold stepOperator at h
  split at h
  · rw [rest_of_enter h]
    exact Nat.lt_succ_self _
  · cases h
    exact Nat.lt_succ_self _
  · cases h
    exact Nat.lt_succ_of_le (Span.length_rest_ofClass_le _ _)
  · split at h
    · exact Nat.lt_succ_of_le (length_take_le h)
    · cases h
  · cases h
  · split at h <;> cases h

/-- Each step shortens the input. -/
theorem length_step_lt {limits : Limits} {r next : Reading}
    (h : r.step limits = .ok (.more next)) : next.rest.length < r.rest.length := by
  unfold step at h
  split at h
  · exact length_stepNode_lt h
  · exact length_stepOperator_lt h

/-- Reads on to the end of the input. -/
def run (limits : Limits) (r : Reading) : Except Fault Forest :=
  match _step : r.step limits with
  | .error f => .error f
  | .ok (.done forest) => .ok forest
  | .ok (.more next) => run limits next
termination_by r.rest.length
decreasing_by exact length_step_lt _step

end Reading

/-- Reads the characters of an abbreviation into a forest. -/
def readChars (limits : Limits) (s : List Char) : Except Fault Forest :=
  if s.length ≤ limits.abbreviationLength then
    if s.all isBlank then .error ⟨.emptyAbbreviation, s⟩
    else
      match Reading.enter limits (.top []) s with
      | .error f => .error f
      | .ok (.done forest) => .ok forest
      | .ok (.more start) => start.run limits
  else .error ⟨.abbreviationTooLong s.length limits.abbreviationLength, s⟩

/-- Reads an abbreviation into a forest. -/
def read (limits : Limits) (abbreviation : String) : Except Error Forest :=
  (readChars limits abbreviation.toList).mapError (Fault.toError abbreviation.toList)

end Shorthand.Markup
