import Shorthand.Text.Character

/-!
# TagEnd — is this `>` the end of a tag?

The `>` of `ul>li` is an operator, the one of `<ul>` is not part of any abbreviation. To tell them
apart, the text before a `>` is read backwards, through attributes, to the `<` that opens the tag.

Texts here are reversed: the first character of the list is the last one of the text.
-/

namespace Shorthand.Extraction

open Text

def isQuote (c : Char) : Bool := c == '"' || c == '\''

/-- The characters of tag and attribute names, and of values without quotes. -/
def isIdentChar (c : Char) : Bool :=
  c.isAlphanum || c == '-' || c == '_' || c == ':' || c == '.'

/-- What comes before an identifier that ends the text, if there is one. -/
def beforeIdent? (s : List Char) : Option (List Char) :=
  if (s.dropWhile isIdentChar).length < s.length then some (s.dropWhile isIdentChar) else none

theorem length_of_beforeIdent? {s rest : List Char} (h : beforeIdent? s = some rest) :
    rest.length < s.length := by
  unfold beforeIdent? at h
  split at h
  · cases h
    assumption
  · cases h

/-- What comes before the name of an attribute whose value has just been passed: the name needs a
blank before it, which is left. -/
def beforeAttributeName? (s : List Char) : Option (List Char) :=
  match beforeIdent? s with
  | some (c :: rest) => if isBlank c then some (c :: rest) else none
  | _ => none

theorem length_of_beforeAttributeName? {s rest : List Char}
    (h : beforeAttributeName? s = some rest) : rest.length < s.length := by
  unfold beforeAttributeName? at h
  split at h
  · next hident =>
    split at h
    · cases h
      exact length_of_beforeIdent? hident
    · cases h
  · cases h

/-- What comes before the value in quotes that ends the text, and before its `=`. -/
def beforeQuoted? (quote : Char) (s : List Char) : Option (List Char) :=
  match s.dropWhile (· != quote) with
  | _ :: '=' :: rest => some rest
  | _ => none

theorem length_of_beforeQuoted? {quote : Char} {s rest : List Char}
    (h : beforeQuoted? quote s = some rest) : rest.length < s.length := by
  have short : (s.dropWhile (· != quote)).length ≤ s.length := (List.dropWhile_suffix _).length_le
  unfold beforeQuoted? at h
  split at h
  · next heq =>
    cases h
    rw [heq] at short
    simp only [List.length_cons] at short
    omega
  · cases h

/-- What the end of a text is, seen from behind: the opening of a tag, an attribute with the text
before it, or neither. -/
inductive Ending where
  | opening
  | attribute (before : List Char)
  | other
  deriving Repr, DecidableEq

/-- Looks at the last attribute, or the tag name, of a text without blanks at its end. -/
def ending (s : List Char) : Ending :=
  match s with
  | [] => .other
  | c :: tail =>
    if isQuote c then
      match (beforeQuoted? c tail).bind beforeAttributeName? with
      | some before => .attribute before
      | none => .other
    else
      match beforeIdent? s with
      | some ('<' :: _) => .opening
      | some ('/' :: '<' :: _) => .opening
      | some ('=' :: before) =>
        match beforeAttributeName? before with
        | some before => .attribute before
        | none => .other
      | some (b :: before) => if isBlank b then .attribute (b :: before) else .other
      | _ => .other

theorem length_of_ending {s before : List Char} (h : ending s = .attribute before) :
    before.length < s.length := by
  unfold ending at h
  split at h
  · cases h
  · next c tail =>
    split at h
    · split at h
      · next hbind =>
        cases h
        obtain ⟨value, hvalue, hname⟩ := Option.bind_eq_some_iff.1 hbind
        have := length_of_beforeQuoted? hvalue
        have := length_of_beforeAttributeName? hname
        simp only [List.length_cons]
        omega
      · cases h
    · split at h
      · cases h
      · cases h
      · next hident =>
        have := length_of_beforeIdent? hident
        split at h
        · next hname =>
          cases h
          have := length_of_beforeAttributeName? hname
          simp only [List.length_cons] at *
          omega
        · cases h
      · next hident =>
        split at h
        · cases h
          exact length_of_beforeIdent? hident
        · cases h
      · cases h

/-- Whether a text ends inside a tag, after a number of whole attributes. -/
def endsInTag (s : List Char) : Bool :=
  match _ending : ending (s.dropWhile isBlank) with
  | .opening => true
  | .attribute before => endsInTag before
  | .other => false
termination_by s.length
decreasing_by
  have blanks : (s.dropWhile isBlank).length ≤ s.length := (List.dropWhile_suffix _).length_le
  have := length_of_ending _ending
  omega

/-- Whether a text ends with a tag. -/
def endsWithTag : List Char → Bool
  | '>' :: '/' :: s => endsInTag s
  | '>' :: s => endsInTag s
  | _ => false

end Shorthand.Extraction
