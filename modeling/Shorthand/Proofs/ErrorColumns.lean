import Shorthand.Proofs.Markup.Steps
import Shorthand.Proofs.Stylesheet.Concatenation

/-!
# ErrorColumns — where the column of an error points to

A fault is reported with what was left of the input where it was found, and the column of the error
is worked out from how long that is. So a column means something only if what was left is a suffix
of the input, also where a scanner has run past the end or a fault is found long after the place it
is reported at. Every reader keeps to its input (`KeepsTo`): what it leaves is a suffix of what it was
given, and a fault is found at a place that looks as its cause says (`Cause.Marks`).
-/

namespace Shorthand

open Text

/-! ## Places and causes -/

/-- What stands around the place where a fault is found: `before` has been read, and `rest` is
left. Causes that no reader finds have no such place. -/
def Cause.Marks (before rest : List Char) : Cause → Prop
  | .abbreviationTooLong length _ => rest.length = length
  | .nestingTooDeep max => max = 0 ∨ before.getLast? = some '(' ∨ before.getLast? = some '>'
  | .repeatTooLarge .. | .repeatCountExpected | .repeatCountZero => before.getLast? = some '*'
  | .emptyAbbreviation => rest.all isBlank = true
  | .unexpectedChar c => rest.head? = some c
  | .elementExpected => rest = []
  | .unclosedGroup => rest.head? = some '('
  | .idExpected => rest.head? = some '#'
  | .classExpected => rest.head? = some '.'
  | .unclosedText => rest.head? = some '{'
  | .unclosedAttributes => rest.head? = some '['
  | .attributeNameExpected =>
    rest.head? = some '=' ∨ rest.head? = some '"' ∨ rest.head? = some '\''
  | .unclosedQuote => rest.head? = some '"' ∨ rest.head? = some '\''
  | .propertyNameExpected => rest = [] ∨ rest.head? = some '+'
  | .valueExpected => rest = [] ∧ before.getLast? = some '-'
  | _ => False

/-- What has been read before does not matter. -/
theorem Cause.Marks.append_left {before rest : List Char} {cause : Cause}
    (h : cause.Marks before rest) (earlier : List Char) :
    cause.Marks (earlier ++ before) rest := by
  have hlast : ∀ c, before.getLast? = some c → (earlier ++ before).getLast? = some c := by
    intro c hc
    rw [List.getLast?_append, hc]
    rfl
  cases cause with
  | nestingTooDeep max => exact h.imp id (Or.imp (hlast _) (hlast _))
  | repeatTooLarge | repeatCountExpected | repeatCountZero => exact hlast _ h
  | valueExpected => exact h.imp id (hlast _)
  | _ => exact h

namespace Fault

/-- A fault is found in `s`: at a place that its cause marks. -/
def Found (s : List Char) (f : Fault) : Prop :=
  ∃ before, s = before ++ f.rest ∧ f.cause.Marks before f.rest

theorem Found.of_suffix {s t : List Char} {f : Fault} (h : f.Found s) (hs : s <:+ t) :
    f.Found t := by
  obtain ⟨before, rfl, hmarks⟩ := h
  obtain ⟨earlier, rfl⟩ := hs
  exact ⟨earlier ++ before, (List.append_assoc ..).symm, hmarks.append_left earlier⟩

/-- A fault that is reported where a reader starts. -/
theorem found_here {s : List Char} {cause : Cause} (h : cause.Marks [] s) : Found s ⟨cause, s⟩ :=
  ⟨[], rfl, h⟩

/-- A fault that is reported somewhere in the input. -/
theorem found_at {s input : List Char} {cause : Cause} (hs : s <:+ input)
    (h : cause.Marks [] s) : Found input ⟨cause, s⟩ :=
  (found_here h).of_suffix hs

/-- A fault that is reported behind the first character. -/
theorem found_next {c : Char} {s : List Char} {cause : Cause} (h : cause.Marks [c] s) :
    Found (c :: s) ⟨cause, s⟩ :=
  ⟨[c], rfl, h⟩

/-- The column of an error divides the input at the place where the fault was found. -/
theorem Found.toError {input : List Char} {f : Fault} (h : f.Found input) :
    ∃ before rest, input = before ++ rest ∧ (f.toError input).column = before.length ∧
      (f.toError input).cause.Marks before rest := by
  obtain ⟨before, hinput, hmarks⟩ := h
  have hcolumn : (f.toError input).column = before.length := by
    simp [Fault.toError, hinput]
  exact ⟨before, f.rest, hinput, hcolumn, hmarks⟩

end Fault

/-- A reader keeps to its input `s`: what it leaves is the rest of it, and a fault is found in
it. -/
def KeepsTo {α : Type} (s : List Char) : Except Fault (α × List Char) → Prop
  | .ok (_, rest) => rest <:+ s
  | .error f => f.Found s

namespace KeepsTo

variable {α β : Type} {s t : List Char}

theorem suffix {x : Except Fault (α × List Char)} (h : KeepsTo s x) {a : α} {rest : List Char}
    (hx : x = .ok (a, rest)) : rest <:+ s := by
  rwa [hx] at h

theorem found {x : Except Fault (α × List Char)} (h : KeepsTo s x) {f : Fault}
    (hx : x = .error f) : f.Found s := by
  rwa [hx] at h

theorem of_suffix {x : Except Fault (α × List Char)} (h : KeepsTo s x) (hs : s <:+ t) :
    KeepsTo t x := by
  cases x with
  | error f => exact Fault.Found.of_suffix h hs
  | ok found => exact List.IsSuffix.trans h hs

/-- Readers in a row, the second on what the first has left. -/
theorem bind {x : Except Fault (α × List Char)}
    {next : α × List Char → Except Fault (β × List Char)}
    (h : KeepsTo s x) (hnext : ∀ a rest, x = .ok (a, rest) → KeepsTo rest (next (a, rest))) :
    KeepsTo s (x >>= next) := by
  cases x with
  | error f => exact h
  | ok found => exact (hnext found.1 found.2 rfl).of_suffix h

end KeepsTo

/-! ## Markup: the parts of an element -/

theorem scanDigits_suffix (s : List Char) : (scanDigits s).rest <:+ s := List.dropWhile_suffix _

theorem Numbering.scanModifier_suffix (size : Nat) (s : List Char) :
    (scanModifier size s).2 <:+ s := by
  fun_cases scanModifier size s with
  | case1 tail base =>
      exact (scanDigits_suffix tail).trans ((List.suffix_cons _ _).trans (List.suffix_cons _ _))
  | case2 => exact List.suffix_rfl
  | case3 tail _ base => exact (scanDigits_suffix tail).trans (List.suffix_cons _ _)
  | case4 => exact List.suffix_rfl

theorem Numbering.scan_suffix (s : List Char) : (scan s).2 <:+ s :=
  (scanModifier_suffix _ _).trans (List.dropWhile_suffix _)

namespace Markup

theorem scanName_suffix (ofElement afterChar : Bool) (s : List Char) :
    (scanName ofElement afterChar s).2 <:+ s := by
  fun_induction scanName ofElement afterChar s with
  | case1 => exact List.suffix_rfl
  | case2 _ s _ ih => exact ih.trans (Numbering.scan_suffix _)
  | case3 _ c s _ _ _ ih => exact ih.trans (List.suffix_cons _ _)
  | case4 => exact List.suffix_cons _ _
  | case5 => exact List.suffix_rfl

theorem scanQuoted_suffix {quote : Char} {s : List Char} {span : Span}
    (h : scanQuoted quote s = some span) : span.rest <:+ s := by
  fun_induction scanQuoted quote s generalizing span with
  | case1 => cases h
  | case2 => cases h
  | case3 c s ih =>
      obtain ⟨inner, hinner, rfl⟩ := Option.map_eq_some_iff.mp h
      exact (ih hinner).trans ((List.suffix_cons _ _).trans (List.suffix_cons _ _))
  | case4 s =>
      cases h
      exact List.suffix_cons _ _
  | case5 c s _ _ _ ih =>
      obtain ⟨inner, hinner, rfl⟩ := Option.map_eq_some_iff.mp h
      exact (ih hinner).trans (List.suffix_cons _ _)

theorem scanBraced_suffix {depth : Nat} {s : List Char} {span : Span}
    (h : scanBraced depth s = some span) : span.rest <:+ s := by
  fun_induction scanBraced depth s generalizing span with
  | case1 => cases h
  | case2 => cases h
  | case3 depth c s ih =>
      obtain ⟨inner, hinner, rfl⟩ := Option.map_eq_some_iff.mp h
      exact (ih hinner).trans ((List.suffix_cons _ _).trans (List.suffix_cons _ _))
  | case5 s =>
      cases h
      exact List.suffix_cons _ _
  | case4 _ s _ _ ih | case6 s _ _ _ _ ih | case7 _ c s _ _ _ _ ih =>
      obtain ⟨inner, hinner, rfl⟩ := Option.map_eq_some_iff.mp h
      exact (ih hinner).trans (List.suffix_cons _ _)

theorem scanBare_suffix (depth : Nat) (s : List Char) : (scanBare depth s).rest <:+ s := by
  fun_induction scanBare depth s with
  | case1 => exact List.suffix_rfl
  | case2 => exact List.suffix_rfl
  | case3 _ s _ ih | case4 _ s _ _ ih | case5 _ c s _ _ _ ih =>
      exact ih.trans (List.suffix_cons _ _)

theorem keepsTo_readQuoted {quote : Char} (hquote : quote = '"' ∨ quote = '\'') (s : List Char) :
    KeepsTo (quote :: s) (readQuoted quote s) := by
  unfold readQuoted
  split
  · next span hspan => exact (scanQuoted_suffix hspan).trans (List.suffix_cons _ _)
  · refine Fault.found_here ?_
    rcases hquote with rfl | rfl
    · exact .inl rfl
    · exact .inr rfl

theorem keepsTo_readAttributeValue (s : List Char) : KeepsTo s (readAttributeValue s) := by
  unfold readAttributeValue
  split
  · exact keepsTo_readQuoted (.inl rfl) _
  · exact keepsTo_readQuoted (.inr rfl) _
  · exact scanBare_suffix 0 _

/-- What can stand in the place of an attribute name. -/
theorem eq_of_not_isAttributeNameChar {c : Char} (h : isAttributeNameChar c = false)
    (hblank : isBlank c = false) (hclose : c ≠ ']') : c = '=' ∨ c = '"' ∨ c = '\'' := by
  rw [isAttributeNameChar, Bool.not_eq_false', Bool.or_eq_true, Bool.or_eq_true, Bool.or_eq_true,
    Bool.or_eq_true, hblank] at h
  rcases h with (((h | h) | h) | h) | h
  · cases h
  · exact .inl (eq_of_beq h)
  · exact absurd (eq_of_beq h) hclose
  · exact .inr (.inl (eq_of_beq h))
  · exact .inr (.inr (eq_of_beq h))

/-- Where an attribute can start, at a character that is neither blank nor the end of the set. -/
theorem keepsTo_readAttribute {c : Char} {s : List Char} (hblank : isBlank c = false)
    (hclose : c ≠ ']') : KeepsTo (c :: s) (readAttribute (c :: s)) := by
  have hname : (Span.ofClass isAttributeNameChar (c :: s)).rest <:+ c :: s :=
    List.dropWhile_suffix _
  simp only [readAttribute]
  split
  · next hempty =>
    refine Fault.found_here ?_
    cases hc : isAttributeNameChar c with
    | true => simp [Span.ofClass, hc] at hempty
    | false =>
        have hsome : ∀ d, c = d → (c :: s).head? = some d := fun _ => congrArg some
        exact (eq_of_not_isAttributeNameChar hc hblank hclose).imp (hsome _)
          (Or.imp (hsome _) (hsome _))
  · split
    · next inner hinner =>
      rw [hinner] at hname
      refine KeepsTo.of_suffix ?_ ((List.suffix_cons '=' inner).trans hname)
      exact (keepsTo_readAttributeValue inner).bind fun _ _ _ => List.suffix_rfl
    · exact hname

theorem keepsTo_readAttributes {opened s : List Char} (hopened : s <:+ opened)
    (hbracket : opened.head? = some '[') (e : Element) :
    KeepsTo opened (readAttributes opened e s) := by
  have hattribute : ∀ s : List Char, s.dropWhile isBlank ≠ [] →
      (∀ rest, s.dropWhile isBlank = ']' :: rest → False) →
      KeepsTo s (readAttribute (s.dropWhile isBlank)) := by
    intro s hnil hclose
    obtain ⟨c, after, hafter⟩ := List.exists_cons_of_ne_nil hnil
    have hblank : isBlank c = false := by
      have hhead := List.head?_dropWhile_not isBlank s
      rwa [hafter] at hhead
    have hstart : s.dropWhile isBlank <:+ s := List.dropWhile_suffix isBlank
    rw [hafter] at hstart ⊢
    refine (keepsTo_readAttribute hblank ?_).of_suffix hstart
    rintro rfl
    exact hclose after hafter
  fun_induction readAttributes opened e s with
  | case1 => exact Fault.found_here hbracket
  | case2 e s rest hblanks =>
      have hclose : ']' :: rest <:+ s := hblanks ▸ List.dropWhile_suffix isBlank
      exact ((List.suffix_cons _ _).trans hclose).trans hopened
  | case3 e s f hnil hclose hread =>
      exact ((hattribute s hnil hclose).found hread).of_suffix hopened
  | case4 e s a rest hnil hclose hread ih =>
      exact ih (((hattribute s hnil hclose).suffix hread).trans hopened)

theorem keepsTo_readModifiers (e : Element) (s : List Char) : KeepsTo s (readModifiers e s) := by
  fun_induction readModifiers e s with
  | case1 e s id hempty => exact Fault.found_here rfl
  | case2 e s id hempty ih =>
      exact ih.of_suffix ((scanName_suffix false false s).trans (List.suffix_cons _ _))
  | case3 e s classes hempty => exact Fault.found_here rfl
  | case4 e s classes hempty ih =>
      exact ih.of_suffix ((scanName_suffix false false s).trans (List.suffix_cons _ _))
  | case5 e s f hread =>
      exact (keepsTo_readAttributes (List.suffix_cons '[' s) rfl e).found hread
  | case6 e s found rest hread ih =>
      exact ih.of_suffix ((keepsTo_readAttributes (List.suffix_cons '[' s) rfl e).suffix hread)
  | case7 e s hnone => exact Fault.found_here rfl
  | case8 e s span hspan ih =>
      exact ih.of_suffix ((scanBraced_suffix hspan).trans (List.suffix_cons _ _))
  | case9 e s => exact List.suffix_cons _ _
  | case10 => exact List.suffix_rfl

theorem keepsTo_readElement (s : List Char) : KeepsTo s (readElement s) := by
  have hname := scanName_suffix true false s
  simp only [readElement]
  split
  · next hread => exact ((keepsTo_readModifiers _ _).found hread).of_suffix hname
  · next hread =>
    split
    · exact ((keepsTo_readModifiers _ _).suffix hread).trans hname
    · split
      · exact Fault.found_here rfl
      · exact Fault.found_here rfl

theorem keepsTo_readTimes (limits : Limits) (s : List Char) : KeepsTo s (readTimes limits s) := by
  unfold readTimes
  split
  · next s =>
    split
    · exact Fault.found_next rfl
    · exact Fault.found_next rfl
    · split
      · exact (scanDigits_suffix s).trans (List.suffix_cons _ _)
      · exact Fault.found_next rfl
  · exact List.suffix_rfl

/-! ## Markup: the steps of the reader -/

/-- Every group that is open was opened in the input, where the place says. -/
def Place.OpenedIn (input : List Char) : Place → Prop
  | .top _ => True
  | .group outer opened _ => outer.OpenedIn input ∧ opened <:+ input ∧ opened.head? = some '('
  | .under outer _ _ => outer.OpenedIn input

namespace Place

variable {input : List Char} {place : Place}

theorem OpenedIn.push (h : place.OpenedIn input) (node : Node) :
    (place.push node).OpenedIn input := by
  cases place with
  | top | group | under => exact h

theorem OpenedIn.climb (h : place.OpenedIn input) (k : Nat) : (place.climb k).OpenedIn input := by
  fun_induction Place.climb k place with
  | case1 k outer parent nodes ih =>
      have houter : outer.OpenedIn input := h
      exact ih (houter.push _)
  | case2 => exact h

theorem OpenedIn.finish (h : place.OpenedIn input) {more nodes : Forest} {around : Enclosing}
    (hfinish : place.finish more = (nodes, some around)) :
    around.outer.OpenedIn input ∧ around.opened <:+ input ∧ around.opened.head? = some '(' := by
  induction place generalizing more with
  | top own => cases hfinish
  | group outer opened own =>
      cases hfinish
      exact h
  | under outer parent own ih => exact ih h hfinish

end Place

namespace Reading

variable {limits : Limits} {input : List Char} {r next : Reading} {f : Fault}

/-- What is left to read is the rest of the input, and the open groups were opened in it. -/
structure Within (input : List Char) (r : Reading) : Prop where
  rest : r.rest <:+ input
  opened : r.place.OpenedIn input

/-- One step leads to another place of the input. -/
theorem Within.of_step (h : r.Within input) (hstep : Step limits r next) : next.Within input := by
  obtain ⟨hrest, hopened⟩ := h
  cases hstep with
  | opens => exact ⟨(List.suffix_cons _ _).trans hrest, hopened, hrest, rfl⟩
  | element helement htimes =>
      have hread := (keepsTo_readElement _).suffix helement
      have hcount := (keepsTo_readTimes limits _).suffix htimes
      exact ⟨(hcount.trans hread).trans hrest, hopened⟩
  | child => exact ⟨(List.suffix_cons _ _).trans hrest, hopened⟩
  | sibling => exact ⟨(List.suffix_cons _ _).trans hrest, hopened.push _⟩
  | climb hcarets =>
      cases hcarets
      have hrun := (List.dropWhile_suffix (· == '^')).trans ((List.suffix_cons _ _).trans hrest)
      exact ⟨hrun, (hopened.push _).climb _⟩
  | closes hfinish htimes =>
      have hcount := (keepsTo_readTimes limits _).suffix htimes
      exact ⟨hcount.trans ((List.suffix_cons _ _).trans hrest), (hopened.finish hfinish).1⟩

theorem found_of_enter {place : Place} {c : Char} {s : List Char} (hc : c = '(' ∨ c = '>')
    (h : enter limits place s = .error f) : f.Found (c :: s) := by
  rw [enter] at h
  split at h
  · cases h
  · cases h
    refine Fault.found_next (.inr ?_)
    rcases hc with rfl | rfl
    · exact .inl rfl
    · exact .inr rfl

theorem found_of_take {place : Place} {node : Node} {s : List Char}
    (h : take limits place node s = .error f) : f.Found s := by
  rw [take] at h
  split at h
  · next hread =>
    cases h
    exact (keepsTo_readTimes limits s).found hread
  · cases h

/-- A fault is found where the reader is, or at the parenthesis of a group that is not closed. -/
theorem Within.found_of_step (h : r.Within input) (hstep : r.step limits = .error f) :
    f.Found input := by
  obtain ⟨place, pending, s⟩ := r
  obtain ⟨hrest, hopened⟩ := h
  cases pending with
  | none =>
      simp only [step] at hstep
      unfold stepNode at hstep
      split at hstep
      · exact (found_of_enter (.inl rfl) hstep).of_suffix hrest
      · -- in an element, or in the repeat count that follows it
        split at hstep
        · next helement =>
          cases hstep
          exact ((keepsTo_readElement s).found helement).of_suffix hrest
        · next helement =>
          have hread := (keepsTo_readElement s).suffix helement
          exact (found_of_take hstep).of_suffix (hread.trans hrest)
  | some node =>
      simp only [step] at hstep
      unfold stepOperator at hstep
      split at hstep
      · exact (found_of_enter (.inr rfl) hstep).of_suffix hrest
      · cases hstep
      · cases hstep
      · -- at a parenthesis that closes a group, or nothing
        split at hstep
        · exact (found_of_take hstep).of_suffix ((List.suffix_cons _ _).trans hrest)
        · cases hstep
          exact Fault.found_at hrest rfl
      · cases hstep
        exact Fault.found_at hrest rfl
      · -- at the end of the input, where the group that is open is to blame
        split at hstep
        · next hfinish =>
          cases hstep
          obtain ⟨_, hgroup, hparenthesis⟩ := hopened.finish hfinish
          exact Fault.found_at hgroup hparenthesis
        · cases hstep

/-- So it is along a whole reading. -/
theorem Within.found_of_run (h : r.Within input) (hrun : r.run limits = .error f) :
    f.Found input := by
  fun_induction run limits r with
  | case1 r found hstep =>
      cases hrun
      exact h.found_of_step hstep
  | case2 => cases hrun
  | case3 r next hstep ih => exact ih (h.of_step (step_eq_more_iff.mp hstep)) hrun

end Reading

theorem found_of_readChars {limits : Limits} {s : List Char} {f : Fault}
    (h : readChars limits s = .error f) : f.Found s := by
  rw [readChars] at h
  split at h
  · split at h
    · next hblank =>
      cases h
      exact Fault.found_here hblank
    · split at h
      · next henter =>
        cases h
        rw [Reading.enter] at henter
        split at henter
        · cases henter
        · next hdepth =>
          cases henter
          -- not even the top level may be opened
          have hzero : ¬1 ≤ limits.depth := hdepth
          exact Fault.found_here (.inl (by omega))
      · cases h
      · next henter =>
        obtain ⟨_, rfl⟩ := Reading.enter_eq_more_iff.mp henter
        have hstart : Reading.Within s ⟨.top [], none, s⟩ := ⟨List.suffix_rfl, trivial⟩
        exact hstart.found_of_run h
  · cases h
    exact Fault.found_here rfl

end Markup

/-! ## Stylesheets -/

namespace Stylesheet

theorem scanNameTail_suffix (started : Bool) (s : List Char) :
    (scanNameTail started s).rest <:+ s := by
  fun_induction scanNameTail started s with
  | case1 | case3 | case5 | case7 => exact List.suffix_rfl
  | case2 => exact List.suffix_cons _ _
  | case4 _ _ _ ih | case6 _ _ _ _ _ _ ih => exact ih.trans (List.suffix_cons _ _)

theorem scanPropertyName_suffix (s : List Char) : (scanPropertyName s).rest <:+ s := by
  fun_cases scanPropertyName s with
  | case1 s _ => exact (scanNameTail_suffix true s).trans (List.suffix_cons _ _)
  | case2 => exact List.suffix_rfl
  | case3 s _ => exact scanNameTail_suffix false s

theorem scanFraction_suffix (s : List Char) : (scanFraction s).rest <:+ s := by
  fun_cases scanFraction s with
  | case1 d s _ => exact (scanDigits_suffix (d :: s)).trans (List.suffix_cons _ _)
  | case2 | case3 => exact List.suffix_rfl

theorem scanUnsigned_suffix (s : List Char) : (scanUnsigned s).rest <:+ s :=
  (scanFraction_suffix _).trans (scanDigits_suffix s)

theorem scanNumeral_suffix (s : List Char) : (scanNumeral s).rest <:+ s := by
  fun_cases scanNumeral s with
  | case1 s => exact (scanUnsigned_suffix s).trans (List.suffix_cons _ _)
  | case2 s _ => exact scanUnsigned_suffix s

theorem readNumber_suffix (s : List Char) : (readNumber s).2 <:+ s :=
  (List.dropWhile_suffix _).trans (scanNumeral_suffix s)

theorem readValue?_suffix {signed : Bool} {s rest : List Char} {v : RawValue}
    (h : readValue? signed s = some (v, rest)) : rest <:+ s := by
  have hnumber : ∀ t : List Char, some (readNumber t) = some (v, rest) → rest <:+ t := by
    intro t ht
    have hsuffix := readNumber_suffix t
    rwa [Option.some.inj ht] at hsuffix
  unfold readValue? at h
  split at h
  · cases h
  · split at h
    · exact hnumber _ h
    · cases h
  · cases h
    exact (List.dropWhile_suffix _).trans (List.suffix_cons _ _)
  · split at h
    · exact hnumber _ h
    · split at h
      · cases h
        exact List.dropWhile_suffix _
      · cases h

theorem keepsTo_readValues (empty signed : Bool) (s : List Char) :
    KeepsTo s (readValues empty signed s) := by
  fun_induction readValues empty signed s with
  | case1 empty signed s value rest hread ih =>
      refine KeepsTo.of_suffix ?_ (readValue?_suffix hread)
      exact ih.bind fun _ _ _ => List.suffix_rfl
  | case2 empty signed s hnone hdash hlast =>
      obtain ⟨_, htail⟩ := Bool.and_eq_true_iff.mp hlast
      obtain rfl : s = ['-'] := by
        cases s with
        | nil => cases hdash
        | cons c tail =>
            cases hdash
            exact congrArg _ (List.isEmpty_iff.mp htail)
      exact Fault.found_next ⟨rfl, rfl⟩
  | case3 empty signed s hnone hdash hmore ih => exact ih.of_suffix (List.tail_suffix s)
  | case4 => exact List.suffix_rfl

theorem dropChar_suffix (c : Char) (s : List Char) : dropChar c s <:+ s := by
  unfold dropChar
  split
  · exact List.tail_suffix s
  · exact List.suffix_rfl

theorem keepsTo_readProperty (s : List Char) : KeepsTo s (readProperty s) := by
  have hname := (dropChar_suffix ':' _).trans (scanPropertyName_suffix s)
  simp only [readProperty]
  split
  · split
    · exact Fault.found_here (.inl rfl)
    · split
      · next hplus => exact Fault.found_here (.inr (by rw [hplus]; rfl))
      · exact Fault.found_here rfl
  · split
    · next hread => exact ((keepsTo_readValues true true _).found hread).of_suffix hname
    · next hread =>
      have hvalues := (keepsTo_readValues true true _).suffix hread
      exact (dropChar_suffix '!' _).trans (hvalues.trans hname)

theorem found_of_readProperties {s : List Char} {f : Fault} (h : readProperties s = .error f) :
    f.Found s := by
  fun_induction readProperties s with
  | case1 s found hread =>
      cases h
      exact (keepsTo_readProperty s).found hread
  | case2 => cases h
  | case3 s property rest hread ih =>
      have hrest := (keepsTo_readProperty s).suffix hread
      cases hothers : readProperties rest with
      | error found =>
          rw [hothers] at h
          cases h
          exact (ih hothers).of_suffix ((List.suffix_cons _ _).trans hrest)
      | ok others =>
          rw [hothers] at h
          cases h
  | case4 s property c rest hread hplus =>
      cases h
      exact Fault.found_at ((keepsTo_readProperty s).suffix hread) rfl

theorem found_of_readChars {limits : Limits} {s : List Char} {f : Fault}
    (h : readChars limits s = .error f) : f.Found s := by
  rw [readChars] at h
  split at h
  · exact found_of_readProperties h
  · cases h
    exact Fault.found_here rfl

end Stylesheet

/-! ## Messages -/

/-- A text with a beginning of its own, other than the one of `unexpected`. -/
def StartsOtherwise (s : String) : Prop :=
  4 ≤ s.toList.length ∧ s.toList.take 4 ≠ ['u', 'n', 'e', 'x']

instance (s : String) : Decidable (StartsOtherwise s) := inferInstanceAs (Decidable (_ ∧ _))

theorem StartsOtherwise.append {a : String} (h : StartsOtherwise a) (b : String) :
    StartsOtherwise (a ++ b) := by
  obtain ⟨hlength, htake⟩ := h
  rw [StartsOtherwise, String.toList_append, List.take_append_of_le_length hlength,
    List.length_append]
  exact ⟨Nat.le_add_right_of_le hlength, htake⟩

theorem startsOtherwise_message {cause : Cause} (h : ∀ c, cause ≠ .unexpectedChar c) :
    StartsOtherwise cause.message := by
  cases cause with
  | unexpectedChar c => exact absurd rfl (h c)
  | nestingTooDeep => exact StartsOtherwise.append (by decide +kernel) _
  | tooManyElements | snippetTakesNoValue | unknownAtRule =>
      exact (StartsOtherwise.append (by decide +kernel) _).append _
  | abbreviationTooLong | repeatTooLarge | snippetTooDeep | invalidSnippet =>
      exact ((StartsOtherwise.append (by decide +kernel) _).append _).append _
  | _ => decide +kernel

theorem eq_unexpectedChar_of_message {c : Char} {cause : Cause}
    (h : cause.message = s!"unexpected character '{c}'") : cause = .unexpectedChar c := by
  by_cases hcause : ∃ d, cause = .unexpectedChar d
  · obtain ⟨d, rfl⟩ := hcause
    have hmessage : s!"unexpected character '{d}'" = s!"unexpected character '{c}'" := h
    have hsame : toString d = toString c := by simpa using hmessage
    have hchars : [d] = [c] := by simpa [toString] using congrArg String.toList hsame
    rw [List.singleton_inj.mp hchars]
  · have hother := startsOtherwise_message (not_exists.mp hcause)
    rw [h, StartsOtherwise, String.toList_append, String.toList_append, List.append_assoc,
      List.take_append_of_le_length (by decide +kernel)] at hother
    exact absurd (by decide +kernel) hother.2

/-! ## Columns -/

theorem mapError_eq_error {α : Type} {x : Except Fault α} {input : List Char} {e : Error}
    (h : x.mapError (Fault.toError input) = .error e) :
    ∃ f, x = .error f ∧ e = f.toError input := by
  cases x with
  | error f =>
      cases h
      exact ⟨f, rfl, rfl⟩
  | ok found => cases h

/-- **The column of an error is a place in the abbreviation**, and the abbreviation looks there as
the error says. In particular a character that is called unexpected is the one at that column. -/
theorem error_column_marks {limits : Limits} {abbreviation : String} {e : Error}
    (h : Markup.read limits abbreviation = .error e ∨
      Stylesheet.read limits abbreviation = .error e) :
    e.column ≤ abbreviation.length ∧
    (∀ c, e.message = s!"unexpected character '{c}'" → abbreviation.toList[e.column]? = some c) ∧
    e.cause.Marks (abbreviation.toList.take e.column) (abbreviation.toList.drop e.column) := by
  obtain ⟨f, hfound, rfl⟩ : ∃ f : Fault, f.Found abbreviation.toList ∧
      e = f.toError abbreviation.toList := by
    rcases h with h | h
    · obtain ⟨f, hread, rfl⟩ := mapError_eq_error h
      exact ⟨f, Markup.found_of_readChars hread, rfl⟩
    · obtain ⟨f, hread, rfl⟩ := mapError_eq_error h
      exact ⟨f, Stylesheet.found_of_readChars hread, rfl⟩
  obtain ⟨before, rest, hinput, hcolumn, hmarks⟩ := hfound.toError
  -- from here on the error is known by its column and its cause only
  generalize f.toError abbreviation.toList = e at hcolumn hmarks ⊢
  rw [← String.length_toList, hcolumn, hinput, List.take_left, List.drop_left]
  refine ⟨?_, ?_, hmarks⟩
  · rw [List.length_append]
    exact Nat.le_add_right _ _
  · intro c hmessage
    rw [← List.head?_drop, List.drop_left]
    rw [eq_unexpectedChar_of_message hmessage] at hmarks
    exact hmarks

/-- What has been rejected, if anything has. -/
def rejection? {α : Type} : Except Error α → Option Error
  | .error e => some e
  | .ok _ => none

theorem eq_error_of_rejection? {α : Type} {x : Except Error α} {e : Error}
    (h : rejection? x = some e) : x = .error e := by
  cases x with
  | error found => exact congrArg _ (Option.some.inj h)
  | ok found => cases h

/-- A backslash at the end of a text that is not closed, in a group that is not closed, and a
character that is not part of any value. -/
theorem error_column_marks_dangling :
    Markup.read {} "a>(b>\x7bx\\" = .error ⟨.unclosedText, 5⟩ ∧
    Cause.Marks "a>(b>".toList "\x7bx\\".toList .unclosedText ∧
    Stylesheet.read {} "m10?" = .error ⟨.unexpectedChar '?', 3⟩ ∧
    "m10?".toList[3]? = some '?' := by
  have hmarkup : Markup.read {} "a>(b>\x7bx\\" = .error ⟨.unclosedText, 5⟩ :=
    eq_error_of_rejection? (by decide +kernel)
  have hstylesheet : Stylesheet.read {} "m10?" = .error ⟨.unexpectedChar '?', 3⟩ :=
    eq_error_of_rejection? (by decide +kernel)
  exact ⟨hmarkup, (error_column_marks (.inl hmarkup)).2.2, hstylesheet,
    (error_column_marks (.inr hstylesheet)).2.1 '?' rfl⟩

end Shorthand
