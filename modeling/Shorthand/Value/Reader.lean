import Shorthand.Value.Basic
import Shorthand.Text.Span

/-!
# Reading values

`Value.read` splits raw text into tokens. A backslash makes the next character literal. A dollar
starts a tab-stop if it is followed by a complete `{n}` or `{n:placeholder}`; a dollar before any
other brace is literal; every other run of dollars is a numbering.
-/

namespace Shorthand

open Text

/-- The modifier after the dollars of a numbering: `@`, then a minus, a base or both. An `@` with
neither after it is not part of the numbering. Returns what follows as well. -/
def Numbering.scanModifier (size : Nat) : List Char → Numbering × List Char
  | '@' :: '-' :: tail =>
    let base := scanDigits tail
    ({ size, reverse := true, base := (decimal? base.read).getD 1 }, base.rest)
  | '@' :: tail =>
    let base := scanDigits tail
    if base.read.isEmpty then ({ size }, '@' :: tail)
    else ({ size, base := (decimal? base.read).getD 1 }, base.rest)
  | rest => ({ size }, rest)

/-- A numbering at the start of `s`: the dollars and their modifier. -/
def Numbering.scan (s : List Char) : Numbering × List Char :=
  let dollars := Span.ofClass (· == '$') s
  scanModifier dollars.read.length dollars.rest

theorem Numbering.length_scanModifier_le (size : Nat) (s : List Char) :
    (scanModifier size s).2.length ≤ s.length := by
  fun_cases scanModifier size s with
  | case1 tail base =>
    have : base.rest.length ≤ tail.length := length_scanDigits_le tail
    simp only [List.length_cons]
    omega
  | case2 tail _ base => exact Nat.le_refl _
  | case3 tail _ base =>
    have : base.rest.length ≤ tail.length := length_scanDigits_le tail
    simp only [List.length_cons]
    omega
  | case4 => exact Nat.le_refl _

/-- What follows a numbering is shorter than what it started in. -/
theorem Numbering.length_scan_lt (s : List Char) : (scan ('$' :: s)).2.length < s.length + 1 := by
  have dollars : (Span.ofClass (· == '$') ('$' :: s)).rest = (Span.ofClass (· == '$') s).rest := by
    simp [Span.ofClass]
  have run : (Span.ofClass (· == '$') s).rest.length ≤ s.length := Span.length_rest_ofClass_le _ s
  have modifier := length_scanModifier_le (Span.ofClass (· == '$') ('$' :: s)).read.length
    (Span.ofClass (· == '$') s).rest
  rw [scan, dollars]
  omega

/-- The text up to the brace that closes `depth` open braces and one more, and what follows it. -/
def Token.scanPlaceholder : Nat → List Char → Option Span
  | _, [] => none
  | depth, c :: s =>
    if c = '{' then (scanPlaceholder (depth + 1) s).map (Span.cons c)
    else if c = '}' then
      match depth with
      | 0 => some { read := [], rest := s }
      | depth + 1 => (scanPlaceholder depth s).map (Span.cons c)
    else (scanPlaceholder depth s).map (Span.cons c)

theorem Token.length_scanPlaceholder_lt {depth : Nat} {s : List Char} {span : Span}
    (h : scanPlaceholder depth s = some span) : span.rest.length < s.length := by
  fun_induction scanPlaceholder depth s generalizing span with
  | case1 => cases h
  | case2 depth s ih =>
    obtain ⟨inner, hinner, rfl⟩ := Option.map_eq_some_iff.1 h
    have short := ih hinner
    exact Nat.lt_succ_of_lt short
  | case3 s _ =>
    cases h
    exact Nat.lt_succ_self _
  | case4 s _ depth ih =>
    obtain ⟨inner, hinner, rfl⟩ := Option.map_eq_some_iff.1 h
    have short := ih hinner
    exact Nat.lt_succ_of_lt short
  | case5 depth c s _ _ ih =>
    obtain ⟨inner, hinner, rfl⟩ := Option.map_eq_some_iff.1 h
    have short := ih hinner
    exact Nat.lt_succ_of_lt short

/-- A tab-stop, read from what follows its `${`: an index, then the closing brace or a colon and a
placeholder in which braces balance. -/
def Token.scanField (s : List Char) : Option (Token × List Char) :=
  match decimal? (scanDigits s).read, (scanDigits s).rest with
  | some index, '}' :: rest => some (.field index none, rest)
  | some index, ':' :: rest =>
    (scanPlaceholder 0 rest).map fun span =>
      (.field index (some (String.ofList span.read)), span.rest)
  | _, _ => none

theorem Token.length_scanField_lt {s rest : List Char} {t : Token}
    (h : scanField s = some (t, rest)) : rest.length < s.length := by
  have short := length_scanDigits_le s
  unfold scanField at h
  split at h
  · next hs =>
    cases h
    rw [hs, List.length_cons] at short
    omega
  · next hs =>
    obtain ⟨span, hspan, he⟩ := Option.map_eq_some_iff.1 h
    cases he
    have := length_scanPlaceholder_lt hspan
    rw [hs, List.length_cons] at short
    omega
  · cases h

/-- Splits raw text into tokens. A lone backslash at the very end is literal. -/
def Value.read : List Char → Value
  | [] => []
  | '\\' :: c :: s => consChar c (read s)
  | '$' :: '{' :: s =>
    match _found : Token.scanField s with
    | some (token, rest) => token :: read rest
    | none => consChar '$' (read ('{' :: s))
  | '$' :: s => .number (Numbering.scan ('$' :: s)).1 :: read (Numbering.scan ('$' :: s)).2
  | c :: s => consChar c (read s)
termination_by s => s.length
decreasing_by
  · simp only [List.length_cons]; omega
  · have := Token.length_scanField_lt _found
    simp only [List.length_cons]; omega
  · simp only [List.length_cons]; omega
  · exact Numbering.length_scan_lt s
  · simp only [List.length_cons]; omega

/-- Splits a string into tokens. -/
def Value.ofString (s : String) : Value := read s.toList

end Shorthand
