import Shorthand.Error
import Shorthand.Markup.Node
import Shorthand.Markup.Scan
import Shorthand.Options

/-!
# Reading one element

An element is a name followed by any number of ids (`#main`), classes (`.wide`), attribute sets
(`[href title=x]`) and texts (`{Hello}`), and an optional closing slash. Every part may be missing,
but not all of them.
-/

namespace Shorthand.Markup

open Text

/-- Reads a quoted value, from what follows the quote it opens with. -/
def readQuoted (quote : Char) (s : List Char) : Except Fault (Value × List Char) :=
  match scanQuoted quote s with
  | some span => .ok (Value.read span.read, span.rest)
  | none => .error ⟨.unclosedQuote, quote :: s⟩

/-- Reads the value after the `=` of an attribute: quoted, or bare. -/
def readAttributeValue : List Char → Except Fault (Value × List Char)
  | '"' :: s => readQuoted '"' s
  | '\'' :: s => readQuoted '\'' s
  | s => .ok (Value.read (scanBare 0 s).read, (scanBare 0 s).rest)

/-- Reads one attribute: a name, and a value if an `=` follows. -/
def readAttribute (s : List Char) : Except Fault (Attribute × List Char) :=
  let name := Span.ofClass isAttributeNameChar s
  if name.read.isEmpty then .error ⟨.attributeNameExpected, s⟩
  else
    match name.rest with
    | '=' :: inner => do
      let (value, rest) ← readAttributeValue inner
      return ({ name := String.ofList name.read, value := some value }, rest)
    | rest => .ok ({ name := String.ofList name.read, value := none }, rest)

theorem length_readQuoted_lt {quote : Char} {s rest : List Char} {value : Value}
    (h : readQuoted quote s = .ok (value, rest)) : rest.length < s.length := by
  unfold readQuoted at h
  split at h
  · next hspan =>
    cases h
    exact length_scanQuoted_lt hspan
  · cases h

theorem length_readAttributeValue_le {s rest : List Char} {value : Value}
    (h : readAttributeValue s = .ok (value, rest)) : rest.length ≤ s.length := by
  unfold readAttributeValue at h
  split at h
  · exact Nat.le_succ_of_le (Nat.le_of_lt (length_readQuoted_lt h))
  · exact Nat.le_succ_of_le (Nat.le_of_lt (length_readQuoted_lt h))
  · cases h
    exact length_scanBare_le 0 _

theorem length_readAttribute_lt {s rest : List Char} {a : Attribute}
    (h : readAttribute s = .ok (a, rest)) : rest.length < s.length := by
  have split_s := congrArg List.length (Span.read_append_rest_ofClass isAttributeNameChar s)
  rw [List.length_append] at split_s
  simp only [readAttribute] at h
  split at h
  · cases h
  · next hname =>
    have pos : 0 < (Span.ofClass isAttributeNameChar s).read.length := by
      rw [List.length_pos_iff]
      intro hnil
      exact hname (by rw [hnil]; rfl)
    split at h
    · next inner hrest =>
      cases hvalue : readAttributeValue inner with
      | error f => rw [hvalue] at h; cases h
      | ok found =>
        rw [hvalue] at h
        cases h
        have := length_readAttributeValue_le hvalue
        rw [hrest, List.length_cons] at split_s
        omega
    · cases h
      omega

/-- Reads the attributes of a set up to its `]`. `opened` is the input from the `[` on. -/
def readAttributes (opened : List Char) (e : Element) (s : List Char) :
    Except Fault (Element × List Char) :=
  match _blanks : s.dropWhile isBlank with
  | [] => .error ⟨.unclosedAttributes, opened⟩
  | ']' :: rest => .ok (e, rest)
  | start =>
    match _read : readAttribute start with
    | .error f => .error f
    | .ok (a, rest) =>
      readAttributes opened { e with attributes := a.putLast e.attributes } rest
termination_by s.length
decreasing_by
  have blanks : (s.dropWhile isBlank).length ≤ s.length := (List.dropWhile_suffix _).length_le
  have shorter := length_readAttribute_lt _read
  rw [_blanks] at blanks
  omega

theorem length_readAttributes_le {opened s rest : List Char} {e e' : Element}
    (h : readAttributes opened e s = .ok (e', rest)) : rest.length ≤ s.length := by
  fun_induction readAttributes opened e s with
  | case1 => cases h
  | case2 e s tail hblanks =>
    have blanks : (s.dropWhile isBlank).length ≤ s.length := (List.dropWhile_suffix _).length_le
    cases h
    rw [hblanks, List.length_cons] at blanks
    omega
  | case3 => cases h
  | case4 e s _ _ a tail hread ih =>
    have blanks : (s.dropWhile isBlank).length ≤ s.length := (List.dropWhile_suffix _).length_le
    have shorter := length_readAttribute_lt hread
    have := ih h
    omega

/-- Reads what follows the name of an element: ids, classes, attribute sets and texts, until a slash
ends the element or none of them follows. -/
def readModifiers (e : Element) : List Char → Except Fault (Element × List Char)
  | '#' :: s =>
    let id := scanName false false s
    if id.1.isEmpty then .error ⟨.idExpected, '#' :: s⟩
    else readModifiers (e.setAttribute "id" (some id.1)) id.2
  | '.' :: s =>
    let classes := scanName false false s
    if classes.1.isEmpty then .error ⟨.classExpected, '.' :: s⟩
    else readModifiers (e.addClass classes.1) classes.2
  | '[' :: s =>
    match _read : readAttributes ('[' :: s) e s with
    | .error f => .error f
    | .ok (e, rest) => readModifiers e rest
  | '{' :: s =>
    match _read : scanBraced 0 s with
    | none => .error ⟨.unclosedText, '{' :: s⟩
    | some span => readModifiers (e.addText (Value.read span.read)) span.rest
  | '/' :: s => .ok ({ e with selfClosing := true }, s)
  | s => .ok (e, s)
termination_by s => s.length
decreasing_by
  · exact Nat.lt_succ_of_le (length_scanName_le false false s)
  · exact Nat.lt_succ_of_le (length_scanName_le false false s)
  · exact Nat.lt_succ_of_le (length_readAttributes_le _read)
  · exact Nat.lt_succ_of_lt (length_scanBraced_lt _read)

/-- Reads one element, which takes at least one character. -/
def readElement (s : List Char) : Except Fault (Element × List Char) :=
  let name := scanName true false s
  match readModifiers { name := if name.1.isEmpty then none else some name.1 } name.2 with
  | .error f => .error f
  | .ok (e, rest) =>
    if rest.length < s.length then .ok (e, rest)
    else
      match s with
      | [] => .error ⟨.elementExpected, []⟩
      | c :: _ => .error ⟨.unexpectedChar c, s⟩

theorem length_readElement_lt {s rest : List Char} {e : Element}
    (h : readElement s = .ok (e, rest)) : rest.length < s.length := by
  simp only [readElement] at h
  split at h
  · cases h
  · split at h
    · next shorter =>
      cases h
      exact shorter
    · split at h <;> cases h

/-- Reads the repeat count of a node, if a `*` follows it. -/
def readTimes (limits : Limits) : List Char → Except Fault (Option Nat × List Char)
  | '*' :: s =>
    match decimal? (scanDigits s).read with
    | none => .error ⟨.repeatCountExpected, s⟩
    | some 0 => .error ⟨.repeatCountZero, s⟩
    | some count =>
      if count ≤ limits.repeatCount then .ok (some count, (scanDigits s).rest)
      else .error ⟨.repeatTooLarge count limits.repeatCount, s⟩
  | s => .ok (none, s)

theorem length_readTimes_le {limits : Limits} {s rest : List Char} {times : Option Nat}
    (h : readTimes limits s = .ok (times, rest)) : rest.length ≤ s.length := by
  unfold readTimes at h
  split at h
  · next s =>
    have := length_scanDigits_le s
    split at h
    · cases h
    · cases h
    · split at h
      · cases h
        exact Nat.le_succ_of_le this
      · cases h
  · cases h
    exact Nat.le_refl _

end Shorthand.Markup
