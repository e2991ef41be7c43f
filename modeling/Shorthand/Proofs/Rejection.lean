import Shorthand.Expand
import Shorthand.Proofs.Markup.NormalForm

/-!
# Rejection — bounds reject, and do nothing else

An abbreviation is expanded once under some bounds and once under larger ones. Every bound is
consulted by a check that goes on below it and fails above it (`Agrees.check`), so the two expansions
go the same way until the smaller bounds reject (`Agrees`). That relation is kept by everything an
expansion is put together from: computations in a row (`Agrees.bind`), the steps of the reader,
snippets inside snippets, and the copies of a repeated node. `expand_of_limits_le` is what it comes
to: unless a bound rejects an abbreviation, larger bounds make no difference.
-/

namespace Shorthand

/-! ## Larger bounds -/

/-- Each bound of `a` is at most the one of `b`. -/
structure Limits.Le (a b : Limits) : Prop where
  abbreviationLength : a.abbreviationLength ≤ b.abbreviationLength
  repeatCount : a.repeatCount ≤ b.repeatCount
  elements : a.elements ≤ b.elements
  depth : a.depth ≤ b.depth
  snippetDepth : a.snippetDepth ≤ b.snippetDepth

instance : LE Limits := ⟨Limits.Le⟩

/-- Whether it is a bound that has rejected an abbreviation, or the abbreviation of a snippet in
it. -/
def Cause.ofBound : Cause → Bool
  | .abbreviationTooLong .. | .nestingTooDeep _ | .repeatTooLarge .. | .tooManyElements _
  | .snippetTooDeep .. => true
  | .invalidSnippet _ cause => cause.ofBound
  | _ => false

/-- A bound that is exceeded is a limit error or a snippet error. -/
theorem Cause.kind_of_ofBound {cause : Cause} (h : cause.ofBound = true) :
    cause.kind = .limit ∨ cause.kind = .snippet := by
  cases cause <;> simp_all [Cause.ofBound, Cause.kind]

def Fault.ofBound (f : Fault) : Bool := f.cause.ofBound

def Error.ofBound (e : Error) : Bool := e.cause.ofBound

/-- Whether an expansion has failed because of a bound. -/
def Failure.ofBound : Failure → Bool
  | .rejected e => e.ofBound
  | .brokeDown _ => false

/-- What comes of something under smaller and under larger bounds: the same, unless the smaller
bounds reject it. -/
def Agrees {ε α : Type} (ofBound : ε → Bool) (small large : Except ε α) : Prop :=
  small = large ∨ ∃ e, small = .error e ∧ ofBound e = true

namespace Agrees

variable {ε δ α β : Type} {ofBound : ε → Bool}

theorem refl (x : Except ε α) : Agrees ofBound x x := .inl rfl

theorem rejected (e : ε) (h : ofBound e = true) (large : Except ε α) :
    Agrees ofBound (.error e) large := .inr ⟨e, rfl, h⟩

/-- What is not rejected by a bound under smaller bounds is the same under larger ones. -/
theorem eq {small large : Except ε α} (h : Agrees ofBound small large)
    (hsmall : ∀ e, small = .error e → ofBound e = false) : small = large := by
  rcases h with h | ⟨e, he, hbound⟩
  · exact h
  · simp [hsmall e he] at hbound

/-- The one way a bound is used: what is within the smaller bound is within the larger. -/
theorem check {p q : Prop} [Decidable p] [Decidable q] (hpq : p → q) {small large : Except ε α}
    {e : ε} (e' : ε) (he : ofBound e = true) (h : Agrees ofBound small large) :
    Agrees ofBound (if p then small else .error e) (if q then large else .error e') := by
  by_cases hp : p
  · rw [if_pos hp, if_pos (hpq hp)]
    exact h
  · rw [if_neg hp]
    exact rejected e he _

/-- Computations in a row agree if each agrees, where the first gives a result. -/
theorem bind {x y : Except ε α} {f g : α → Except ε β} (h : Agrees ofBound x y)
    (hnext : ∀ a, x = .ok a → Agrees ofBound (f a) (g a)) :
    Agrees ofBound (x >>= f) (y >>= g) := by
  rcases h with rfl | ⟨e, rfl, he⟩
  · cases x with
    | error e => exact refl _
    | ok a => exact hnext a rfl
  · exact rejected e he _

/-- To say an error in other words keeps what is of a bound and what is not. -/
theorem mapError {ofBound' : δ → Bool} {f : ε → δ} {small large : Except ε α}
    (h : Agrees ofBound small large) (hf : ∀ e, ofBound' (f e) = ofBound e) :
    Agrees ofBound' (small.mapError f) (large.mapError f) := by
  rcases h with rfl | ⟨e, rfl, he⟩
  · exact refl _
  · exact rejected (f e) ((hf e).trans he) _

theorem toError {small large : Except Fault α} (h : Agrees Fault.ofBound small large)
    (input : List Char) :
    Agrees Error.ofBound (small.mapError (Fault.toError input))
      (large.mapError (Fault.toError input)) := by
  refine h.mapError ?_
  exact fun f => rfl

theorem toFailure {small large : Except Error α} (h : Agrees Error.ofBound small large) :
    Agrees Failure.ofBound (small.mapError .rejected) (large.mapError .rejected) := by
  refine h.mapError ?_
  exact fun e => rfl

end Agrees

namespace Markup

variable {limits larger : Limits}

/-! ## Reading -/

theorem agrees_readTimes (hle : limits ≤ larger) (s : List Char) :
    Agrees Fault.ofBound (readTimes limits s) (readTimes larger s) := by
  unfold readTimes
  split
  · split
    · exact .refl _
    · exact .refl _
    · next count _ _ =>
      exact .check (fun hcount => Nat.le_trans hcount hle.repeatCount) _ rfl (.refl _)
  · exact .refl _

namespace Reading

theorem agrees_enter (hle : limits ≤ larger) (place : Place) (rest : List Char) :
    Agrees Fault.ofBound (enter limits place rest) (enter larger place rest) :=
  .check (fun hdepth => Nat.le_trans hdepth hle.depth) _ rfl (.refl _)

theorem agrees_take (hle : limits ≤ larger) (place : Place) (node : Node) (rest : List Char) :
    Agrees Fault.ofBound (take limits place node rest) (take larger place node rest) := by
  rcases agrees_readTimes hle rest with h | ⟨f, h, hf⟩
  · rw [take, take, h]
    exact .refl _
  · rw [take, h]
    exact .rejected f hf _

theorem agrees_stepNode (hle : limits ≤ larger) (place : Place) (s : List Char) :
    Agrees Fault.ofBound (stepNode limits place s) (stepNode larger place s) := by
  unfold stepNode
  split
  · exact agrees_enter hle _ _
  · split
    · exact .refl _
    · exact agrees_take hle _ _ _

theorem agrees_stepOperator (hle : limits ≤ larger) (place : Place) (node : Node)
    (s : List Char) :
    Agrees Fault.ofBound (stepOperator limits place node s) (stepOperator larger place node s) := by
  unfold stepOperator
  split
  · exact agrees_enter hle _ _
  · exact .refl _
  · exact .refl _
  · split
    · exact agrees_take hle _ _ _
    · exact .refl _
  · exact .refl _
  · exact .refl _

/-- One step of the reader. -/
theorem agrees_step (hle : limits ≤ larger) (r : Reading) :
    Agrees Fault.ofBound (r.step limits) (r.step larger) := by
  unfold step
  split
  · exact agrees_stepNode hle _ _
  · exact agrees_stepOperator hle _ _ _

theorem run_eq_bind (limits : Limits) (r : Reading) :
    r.run limits = (r.step limits >>= fun
      | .done forest => .ok forest
      | .more next => next.run limits) := by
  rw [run]
  split
  · next h => rw [h]; rfl
  · next h => rw [h]; rfl
  · next h => rw [h]; rfl

/-- All steps of the reader, by induction on what is left to read. -/
theorem agrees_run (hle : limits ≤ larger) (r : Reading) :
    Agrees Fault.ofBound (r.run limits) (r.run larger) := by
  rw [run_eq_bind, run_eq_bind]
  refine (agrees_step hle r).bind fun progress hstep => ?_
  cases progress with
  | done forest => exact .refl _
  | more next => exact agrees_run hle next
termination_by r.rest.length
decreasing_by exact length_step_lt hstep

end Reading

theorem agrees_readChars (hle : limits ≤ larger) (s : List Char) :
    Agrees Fault.ofBound (readChars limits s) (readChars larger s) := by
  refine .check (fun hlength => Nat.le_trans hlength hle.abbreviationLength) _ rfl ?_
  split
  · exact .refl _
  · rcases Reading.agrees_enter hle (.top []) s with h | ⟨f, h, hf⟩
    · rw [h]
      split
      · exact .refl _
      · exact .refl _
      · exact Reading.agrees_run hle _
    · rw [h]
      exact .rejected f hf _

theorem agrees_read (hle : limits ≤ larger) (abbreviation : String) :
    Agrees Error.ofBound (read limits abbreviation) (read larger abbreviation) :=
  (agrees_readChars hle _).toError _

/-! ## Snippets -/

mutual

theorem Node.agrees_replaceElements {f g : Element → Option Nat → Forest → Except Failure Node}
    (h : ∀ e times children, Agrees Failure.ofBound (f e times children) (g e times children)) :
    ∀ node : Node, Agrees Failure.ofBound (node.replaceElements f) (node.replaceElements g)
  | .element e times children => by
      rw [Node.replaceElements, Node.replaceElements]
      exact (Forest.agrees_replaceElements h children).bind fun _ _ => h _ _ _
  | .group times children => by
      rw [Node.replaceElements, Node.replaceElements]
      exact (Forest.agrees_replaceElements h children).bind fun _ _ => .refl _

theorem Forest.agrees_replaceElements {f g : Element → Option Nat → Forest → Except Failure Node}
    (h : ∀ e times children, Agrees Failure.ofBound (f e times children) (g e times children)) :
    ∀ forest : Forest,
      Agrees Failure.ofBound (Forest.replaceElements f forest) (Forest.replaceElements g forest)
  | [] => by
      rw [Forest.replaceElements, Forest.replaceElements]
      exact .refl _
  | node :: rest => by
      rw [Forest.replaceElements, Forest.replaceElements]
      refine (Node.agrees_replaceElements h node).bind fun _ _ => ?_
      exact (Forest.agrees_replaceElements h rest).bind fun _ _ => .refl _

end

/-- Snippets inside snippets, by induction on how many may nest under the smaller bounds. -/
theorem Snippet.agrees_resolve (hle : limits ≤ larger) {budget more : Nat} (hbudget : budget ≤ more)
    (visited : List String) (forest : Forest) :
    Agrees Failure.ofBound (resolve limits budget visited forest)
      (resolve larger more visited forest) := by
  rw [resolve, resolve]
  refine Forest.agrees_replaceElements (fun e times children => ?_) forest
  split
  · exact .refl _
  · next name _ =>
    split
    · exact .refl _
    · split
      · exact .refl _
      · split
        · exact .refl _
        · next source _ =>
          -- only here, where a snippet is to be expanded, do the bounds matter
          match budget, more, hbudget with
          | 0, _, _ => exact .rejected _ rfl _
          | budget + 1, more + 1, hbudget =>
              rcases agrees_read hle (withVariables source) with h | ⟨invalid, h, hinvalid⟩
              · simp only [h]
                split
                · exact .refl _
                · exact (agrees_resolve hle (Nat.le_of_succ_le_succ hbudget) _ _).bind
                    fun _ _ => .refl _
              · simp only [h]
                exact .rejected (Failure.rejected { cause := .invalidSnippet name invalid.cause })
                  hinvalid _
termination_by budget

/-! ## Repetition -/

theorem agrees_makeCopies {count : Nat} {make make' : Copy → Nat → Except Error Unrolled}
    (h : ∀ copy made, Agrees Error.ofBound (make copy made) (make' copy made)) (left made : Nat) :
    Agrees Error.ofBound (makeCopies count make left made) (makeCopies count make' left made) := by
  induction left generalizing made with
  | zero => exact .refl _
  | succ left ih =>
      rw [makeCopies, makeCopies]
      exact (h _ _).bind fun first _ => (ih first.made).bind fun _ _ => .refl _

mutual

theorem Node.agrees_unroll (hle : limits ≤ larger) : ∀ (node : Node) (copy : Copy) (made : Nat),
    Agrees Error.ofBound (node.unroll limits copy made) (node.unroll larger copy made)
  | .element e times children, copy, made => by
      rw [Node.unroll, Node.unroll]
      refine .check (fun hmade => Nat.lt_of_lt_of_le hmade hle.elements) _ rfl ?_
      exact (Forest.agrees_unrollFrom hle children copy _).bind fun _ _ => .refl _
  | .group times children, copy, made => by
      rw [Node.unroll, Node.unroll]
      exact Forest.agrees_unrollFrom hle children copy made

theorem Forest.agrees_unrollFrom (hle : limits ≤ larger) : ∀ (forest : Forest) (copy : Copy)
    (made : Nat),
    Agrees Error.ofBound (Forest.unrollFrom limits copy made forest)
      (Forest.unrollFrom larger copy made forest)
  | [], copy, made => by
      rw [Forest.unrollFrom, Forest.unrollFrom]
      exact .refl _
  | node :: rest, copy, made => by
      have hnode : Agrees Error.ofBound (node.copies limits copy made)
          (node.copies larger copy made) := by
        rw [Node.copies, Node.copies]
        split
        · exact agrees_makeCopies (Node.agrees_unroll hle node) _ _
        · exact Node.agrees_unroll hle node copy made
      rw [Forest.unrollFrom_cons, Forest.unrollFrom_cons]
      refine hnode.bind fun first _ => ?_
      exact (Forest.agrees_unrollFrom hle rest copy first.made).bind fun _ _ => .refl _

end

/-! ## Expanding -/

theorem agrees_parse (hle : limits ≤ larger) (abbreviation : String) :
    Agrees Failure.ofBound (parse limits abbreviation) (parse larger abbreviation) := by
  have hunroll : ∀ forest, Agrees Error.ofBound (unroll limits forest) (unroll larger forest) :=
    fun forest => (Forest.agrees_unrollFrom hle forest .only 0).bind fun _ _ => .refl _
  rw [parse, parse]
  refine (agrees_read hle abbreviation).toFailure.bind fun written _ => ?_
  refine (Snippet.agrees_resolve hle hle.snippetDepth [] written).bind fun expanded _ => ?_
  exact (hunroll _).toFailure

namespace Html

variable (o : Options)

mutual

theorem writeNode_limits : ∀ (node : Node) (level : Nat) (pen : Pen),
    writeNode { o with limits := larger } level pen node = writeNode o level pen node
  | .group times children, level, pen => by
      simp only [writeNode, writeLevel_limits children]
      rfl
  | .element e times children, level, pen => by
      simp only [writeNode, writeLevel_limits children]
      rfl

/-- The bounds have no part in the layout. -/
theorem writeLevel_limits : ∀ (forest : Forest) (level : Nat) (onLines : Bool) (pen : Pen),
    writeLevel { o with limits := larger } level onLines pen forest =
      writeLevel o level onLines pen forest
  | [], level, onLines, pen => by rw [writeLevel, writeLevel]
  | node :: rest, level, onLines, pen => by
      simp only [writeLevel, writeNode_limits node, writeLevel_limits rest]
      rfl

end

end Html

theorem html_limits (larger : Limits) (o : Options) (forest : Forest) :
    html { o with limits := larger } forest = html o forest := by
  rw [html, html, Html.segments, Html.segments, Html.writeLevel_limits]
  rfl

theorem agrees_expand {o : Options} (hle : o.limits ≤ larger) (abbreviation : String) :
    Agrees Failure.ofBound (expand o abbreviation)
      (expand { o with limits := larger } abbreviation) := by
  refine (agrees_parse hle abbreviation).bind fun forest _ => ?_
  rw [html_limits larger o]
  exact .refl _

end Markup

namespace Stylesheet

variable {limits larger : Limits}

theorem agrees_parse (hle : limits ≤ larger) (abbreviation : String) :
    Agrees Error.ofBound (parse limits abbreviation) (parse larger abbreviation) := by
  have hread : Agrees Fault.ofBound (readChars limits abbreviation.toList)
      (readChars larger abbreviation.toList) :=
    .check (fun hlength => Nat.le_trans hlength hle.abbreviationLength) _ rfl (.refl _)
  exact (hread.toError _).bind fun _ _ => .refl _

namespace Css

variable (o : Options)

theorem writeProperties_limits (properties : List Property) (stops : Stops) :
    writeProperties { o with limits := larger } stops properties =
      writeProperties o stops properties := by
  induction properties generalizing stops with
  | nil => rfl
  | cons p rest ih =>
      cases rest with
      | nil => rfl
      | cons next rest =>
          have hcons : ∀ o : Options, writeProperties o stops (p :: next :: rest) =
              let first := writeProperty o stops p
              let others := writeProperties o first.2 (next :: rest)
              (first.1 ++ .literal o.newline :: others.1, others.2) := fun _ => rfl
          simp only [hcons, ih]
          rfl

end Css

theorem css_limits (larger : Limits) (o : Options) (properties : List Property) :
    css { o with limits := larger } properties = css o properties := by
  rw [css, css, Css.segments, Css.segments, Css.writeProperties_limits]

theorem agrees_expand {o : Options} (hle : o.limits ≤ larger) (abbreviation : String) :
    Agrees Error.ofBound (expand o abbreviation)
      (expand { o with limits := larger } abbreviation) := by
  refine (agrees_parse hle abbreviation).bind fun properties _ => ?_
  rw [css_limits larger o]
  exact .refl _

end Stylesheet

theorem agrees_expand (grammar : Grammar) {o : Options} {larger : Limits} (hle : o.limits ≤ larger)
    (abbreviation : String) :
    Agrees Failure.ofBound (expand grammar o abbreviation)
      (expand grammar { o with limits := larger } abbreviation) := by
  cases grammar with
  | markup => exact Markup.agrees_expand hle abbreviation
  | stylesheet => exact (Stylesheet.agrees_expand hle abbreviation).toFailure

/-- **Bounds only reject.** If an abbreviation is expanded under some bounds, or rejected because it
is malformed or unfinished, then the same comes of it under larger bounds: the same text, or the same
error at the same place. So it is if the expansion breaks down. -/
theorem expand_of_limits_le (grammar : Grammar) (o : Options) (larger : Limits)
    (abbreviation : String) (hle : o.limits ≤ larger)
    (hsettled : ∀ e, expand grammar o abbreviation = .error (.rejected e) →
      e.kind = .malformed ∨ e.kind = .unfinished) :
    expand grammar { o with limits := larger } abbreviation = expand grammar o abbreviation := by
  refine ((agrees_expand grammar hle abbreviation).eq fun failure h => ?_).symm
  cases failure with
  | brokeDown message => rfl
  | rejected e =>
    have hkind : e.cause.kind = .malformed ∨ e.cause.kind = .unfinished := hsettled e h
    refine Bool.eq_false_iff.mpr fun hbound => ?_
    rcases Cause.kind_of_ofBound hbound with hlimit | hsnippet
    · simp [hlimit] at hkind
    · simp [hsnippet] at hkind

/-- Bounds that `div>a*2` and the snippet in it keep, and that leave no room for any more. -/
def snug : Limits :=
  { abbreviationLength := 7, repeatCount := 2, elements := 3, depth := 2, snippetDepth := 1 }

theorem expand_of_limits_le_snug :
    snug ≤ {} ∧
    (expand .markup { limits := snug } "div>a*2").toOption =
      some "<div><a href=\"\"></a><a href=\"\"></a></div>" ∧
    expand .markup {} "div>a*2" = expand .markup { limits := snug } "div>a*2" := by
  have hle : snug ≤ {} := by constructor <;> decide
  have htext : (expand .markup { limits := snug } "div>a*2").toOption =
      some "<div><a href=\"\"></a><a href=\"\"></a></div>" := by decide +kernel
  refine ⟨hle, htext, expand_of_limits_le .markup { limits := snug } {} "div>a*2" hle ?_⟩
  intro e he
  rw [he] at htext
  cases htext

end Shorthand
