import Shorthand.Text.Character
import Shorthand.Value.Reader

/-!
# Scan — the words of a markup abbreviation

The pieces an element is written with: names with their numberings, quoted and bare attribute
values, and texts in braces. Each scanner takes the characters it reads from the front and returns
the rest, which is never longer than what it was given.
-/

namespace Shorthand.Markup

open Text

/-- The characters of names, ids and classes. -/
def isNameChar (c : Char) : Bool :=
  isLetterOrDigit c || c == '-' || c == '_' || c == ':' || c == '!'

/-- Whether a `+` with `s` after it can belong to the name before it: nothing that could be a
sibling follows. -/
def endsLevel : List Char → Bool
  | [] => true
  | c :: _ => c == ')' || c == '^' || c == '>'

/-- Reads a name: name characters and numberings. The name of an element may end in one `+`, which
marks a snippet such as `ul+`; `afterChar` says that a name character was read just before. -/
def scanName (ofElement afterChar : Bool) : List Char → Value × List Char
  | [] => ([], [])
  | '$' :: s =>
    let tail := scanName ofElement false (Numbering.scan ('$' :: s)).2
    (.number (Numbering.scan ('$' :: s)).1 :: tail.1, tail.2)
  | c :: s =>
    if isNameChar c then
      let tail := scanName ofElement true s
      (Value.consChar c tail.1, tail.2)
    else if ofElement && afterChar && c == '+' && endsLevel s then ([.text "+"], s)
    else ([], c :: s)
termination_by s => s.length
decreasing_by
  · exact Numbering.length_scan_lt s
  · exact Nat.lt_succ_self _

theorem length_scanName_le (ofElement afterChar : Bool) (s : List Char) :
    (scanName ofElement afterChar s).2.length ≤ s.length := by
  fun_induction scanName ofElement afterChar s with
  | case1 => exact Nat.le_refl _
  | case2 _ s _ ih => exact Nat.le_trans ih (Nat.le_of_lt (Numbering.length_scan_lt s))
  | case3 _ c s _ _ _ ih => exact Nat.le_succ_of_le ih
  | case4 => exact Nat.le_succ _
  | case5 => exact Nat.le_refl _

/-- The raw text up to the quote that ends it, and what follows the quote. A backslash takes the
next character with it. -/
def scanQuoted (quote : Char) : List Char → Option Span
  | [] => none
  | ['\\'] => none
  | '\\' :: c :: s => (scanQuoted quote s).map fun span => (span.cons c).cons '\\'
  | c :: s =>
    if c = quote then some { read := [], rest := s } else (scanQuoted quote s).map (Span.cons c)

/-- The raw text up to the brace that ends it, and what follows the brace. Inner braces balance;
`depth` of them are open. A backslash takes the next character with it. -/
def scanBraced : Nat → List Char → Option Span
  | _, [] => none
  | _, ['\\'] => none
  | depth, '\\' :: c :: s => (scanBraced depth s).map fun span => (span.cons c).cons '\\'
  | depth, c :: s =>
    if c = '{' then (scanBraced (depth + 1) s).map (Span.cons c)
    else if c = '}' then
      match depth with
      | 0 => some { read := [], rest := s }
      | depth + 1 => (scanBraced depth s).map (Span.cons c)
    else (scanBraced depth s).map (Span.cons c)

/-- A bare attribute value: everything up to a blank or a `]` that stands outside braces, of which
`depth` are open. -/
def scanBare : Nat → List Char → Span
  | _, [] => { read := [], rest := [] }
  | depth, c :: s =>
    if depth = 0 && (c == ']' || isBlank c) then { read := [], rest := c :: s }
    else if c = '{' then (scanBare (depth + 1) s).cons c
    else if c = '}' then (scanBare (depth - 1) s).cons c
    else (scanBare depth s).cons c

theorem length_scanQuoted_lt {quote : Char} {s : List Char} {span : Span}
    (h : scanQuoted quote s = some span) : span.rest.length < s.length := by
  fun_induction scanQuoted quote s generalizing span with
  | case1 => cases h
  | case2 => cases h
  | case3 c s ih =>
    obtain ⟨inner, hinner, rfl⟩ := Option.map_eq_some_iff.1 h
    have short := ih hinner
    exact Nat.lt_succ_of_lt (Nat.lt_succ_of_lt short)
  | case4 s =>
    cases h
    exact Nat.lt_succ_self _
  | case5 c s _ _ _ ih =>
    obtain ⟨inner, hinner, rfl⟩ := Option.map_eq_some_iff.1 h
    have short := ih hinner
    exact Nat.lt_succ_of_lt short

theorem length_scanBraced_lt {depth : Nat} {s : List Char} {span : Span}
    (h : scanBraced depth s = some span) : span.rest.length < s.length := by
  fun_induction scanBraced depth s generalizing span with
  | case1 => cases h
  | case2 => cases h
  | case3 depth c s ih =>
    obtain ⟨inner, hinner, rfl⟩ := Option.map_eq_some_iff.1 h
    have short := ih hinner
    exact Nat.lt_succ_of_lt (Nat.lt_succ_of_lt short)
  | case4 depth s _ _ ih =>
    obtain ⟨inner, hinner, rfl⟩ := Option.map_eq_some_iff.1 h
    have short := ih hinner
    exact Nat.lt_succ_of_lt short
  | case5 s =>
    cases h
    exact Nat.lt_succ_self _
  | case6 s _ _ _ depth ih =>
    obtain ⟨inner, hinner, rfl⟩ := Option.map_eq_some_iff.1 h
    have short := ih hinner
    exact Nat.lt_succ_of_lt short
  | case7 depth c s _ _ _ _ ih =>
    obtain ⟨inner, hinner, rfl⟩ := Option.map_eq_some_iff.1 h
    have short := ih hinner
    exact Nat.lt_succ_of_lt short

theorem length_scanBare_le (depth : Nat) (s : List Char) :
    (scanBare depth s).rest.length ≤ s.length := by
  fun_induction scanBare depth s with
  | case1 => exact Nat.le_refl _
  | case2 => exact Nat.le_refl _
  | case3 depth s _ ih => exact Nat.le_succ_of_le ih
  | case4 depth s _ _ ih => exact Nat.le_succ_of_le ih
  | case5 depth c s _ _ _ ih => exact Nat.le_succ_of_le ih

/-- The characters of attribute names. -/
def isAttributeNameChar (c : Char) : Bool :=
  !(isBlank c || c == '=' || c == ']' || c == '"' || c == '\'')

end Shorthand.Markup
