import Shorthand.Error
import Shorthand.Options
import Shorthand.Text.Span

/-!
# Reading a stylesheet abbreviation

A stylesheet abbreviation is a list of properties with `+` between them: `m10-a!+bgc#f`. A property
is a name, then values, then an optional `!`. What the names and values mean is not decided here.

One character can mean several things. A dash is part of a name before a letter, else it separates
values, and the last dash before a number is its sign. A `+` ends a name, as its last character, if
nothing or another `+` follows.
-/

namespace Shorthand.Stylesheet

open Text

/-- A value as it is written. -/
inductive RawValue where
  /-- The digits, with sign and fraction, and the letters after them. -/
  | number (digits : String) (unit : Option String)
  /-- The hexadecimal digits after a `#`. -/
  | color (hex : String)
  | keyword (name : String)
  deriving Repr, DecidableEq

/-- A property as it is written. -/
structure RawProperty where
  name : String
  values : List RawValue
  important : Bool
  deriving Repr, DecidableEq

/-! ## Names -/

/-- Whether a letter comes first. -/
def startsLetter : List Char → Bool
  | c :: _ => c.isAlpha
  | [] => false

/-- The rest of a property name: letters, dashes before letters, and a `+` that ends it. `started`
says that there is a name before it already. -/
def scanNameTail (started : Bool) : List Char → Span
  | [] => { read := [], rest := [] }
  | '+' :: s =>
    if started && (s.isEmpty || s.head? == some '+') then { read := ['+'], rest := s }
    else { read := [], rest := '+' :: s }
  | '-' :: s =>
    if startsLetter s then (scanNameTail true s).cons '-' else { read := [], rest := '-' :: s }
  | c :: s =>
    if c.isAlpha then (scanNameTail true s).cons c else { read := [], rest := c :: s }

/-- A property name. The name of an at-rule starts with `@` and a letter. -/
def scanPropertyName : List Char → Span
  | '@' :: s =>
    if startsLetter s then (scanNameTail true s).cons '@' else { read := [], rest := '@' :: s }
  | s => scanNameTail false s

/-! ## Values -/

/-- The fraction of a number: a point with a digit after it, and all digits there. -/
def scanFraction : List Char → Span
  | '.' :: d :: s =>
    if d.isDigit then (scanDigits (d :: s)).cons '.' else { read := [], rest := '.' :: d :: s }
  | s => { read := [], rest := s }

/-- A number without sign. -/
def scanUnsigned (s : List Char) : Span :=
  let whole := scanDigits s
  let fraction := scanFraction whole.rest
  { read := whole.read ++ fraction.read, rest := fraction.rest }

/-- A number, after an optional minus. -/
def scanNumeral : List Char → Span
  | '-' :: s => (scanUnsigned s).cons '-'
  | s => scanUnsigned s

/-- Whether a number without sign comes first. -/
def startsNumber : List Char → Bool
  | '.' :: d :: _ => d.isDigit
  | c :: _ => c.isDigit
  | [] => false

def isHexDigit (c : Char) : Bool :=
  c.isDigit || ('a' ≤ c && c ≤ 'f') || ('A' ≤ c && c ≤ 'F')

/-- Reads a number and its unit. -/
def readNumber (s : List Char) : RawValue × List Char :=
  let digits := scanNumeral s
  let unit := Span.ofClass (fun c => c.isAlpha || c == '%') digits.rest
  (.number (String.ofList digits.read)
    (if unit.read.isEmpty then none else some (String.ofList unit.read)), unit.rest)

/-- Reads one value, if one comes first. A number may have a sign only where `signed` says so. -/
def readValue? (signed : Bool) : List Char → Option (RawValue × List Char)
  | [] => none
  | '-' :: s => if signed && startsNumber s then some (readNumber ('-' :: s)) else none
  | '#' :: s =>
    let hex := Span.ofClass isHexDigit s
    some (.color (String.ofList hex.read), hex.rest)
  | c :: s =>
    if startsNumber (c :: s) then some (readNumber (c :: s))
    else if c.isAlpha then
      let word := Span.ofClass Char.isAlpha (c :: s)
      some (.keyword (String.ofList word.read), word.rest)
    else none

theorem length_scanFraction_le (s : List Char) : (scanFraction s).rest.length ≤ s.length := by
  fun_cases scanFraction s with
  | case1 d s _ => exact Nat.le_succ_of_le (length_scanDigits_le (d :: s))
  | case2 => exact Nat.le_refl _
  | case3 => exact Nat.le_refl _

theorem length_scanUnsigned_le (s : List Char) : (scanUnsigned s).rest.length ≤ s.length :=
  Nat.le_trans (length_scanFraction_le _) (length_scanDigits_le s)

theorem length_scanUnsigned_lt {s : List Char} (h : startsNumber s) :
    (scanUnsigned s).rest.length < s.length := by
  fun_cases startsNumber s with
  | case1 d s =>
    simp only [startsNumber] at h
    have noDigits : (scanDigits ('.' :: d :: s)).rest = '.' :: d :: s := by
      simp [scanDigits, Span.ofClass]
    have fraction : (scanFraction ('.' :: d :: s)).rest = (scanDigits (d :: s)).rest := by
      simp [scanFraction, h]
    have := length_scanDigits_le (d :: s)
    simp only [scanUnsigned, noDigits, fraction, List.length_cons] at this ⊢
    omega
  | case2 c s other =>
    have digit : c.isDigit := by
      unfold startsNumber at h
      split at h
      · next d t heq =>
        cases heq
        exact absurd rfl (other d t rfl)
      · next heq =>
        cases heq
        exact h
      · cases h
    have whole : (scanDigits (c :: s)).rest = (scanDigits s).rest := by
      simp [scanDigits, Span.ofClass, digit]
    have short := length_scanDigits_le s
    have := length_scanFraction_le (scanDigits s).rest
    simp only [scanUnsigned, whole, List.length_cons]
    omega
  | case3 => cases h

theorem length_scanNumeral_lt {s : List Char} (h : startsNumber s ∨ s.head? = some '-') :
    (scanNumeral s).rest.length < s.length := by
  fun_cases scanNumeral s with
  | case1 s => exact Nat.lt_succ_of_le (length_scanUnsigned_le s)
  | case2 s other =>
    rcases h with h | h
    · exact length_scanUnsigned_lt h
    · cases s with
      | nil => cases h
      | cons c s =>
        cases h
        exact absurd rfl (other s)

theorem length_readNumber_lt {s : List Char} (h : startsNumber s ∨ s.head? = some '-') :
    (readNumber s).2.length < s.length :=
  Nat.lt_of_le_of_lt (Span.length_rest_ofClass_le _ _) (length_scanNumeral_lt h)

/-- A value takes at least one character. -/
theorem length_readValue?_lt {signed : Bool} {s rest : List Char} {v : RawValue}
    (h : readValue? signed s = some (v, rest)) : rest.length < s.length := by
  fun_cases readValue? signed s with
  | case1 => cases h
  | case2 s ok =>
    simp only [readValue?, ok, if_true, Option.some.injEq] at h
    have := length_readNumber_lt (s := '-' :: s) (.inr rfl)
    rw [h] at this
    exact this
  | case3 s no =>
    simp only [readValue?, no] at h
    cases h
  | case4 s hex =>
    cases h
    exact Nat.lt_succ_of_le (Span.length_rest_ofClass_le _ s)
  | case5 c s _ _ number =>
    have := length_readNumber_lt (.inl number)
    simp only [readValue?, number, if_true, Option.some.injEq] at h
    rw [h] at this
    exact this
  | case6 c s _ _ notNumber alpha =>
    simp only [readValue?, notNumber, alpha, if_true, Bool.false_eq_true, if_false] at h
    cases h
    have : (Span.ofClass Char.isAlpha (c :: s)).rest = (Span.ofClass Char.isAlpha s).rest := by
      simp [Span.ofClass, alpha]
    rw [this]
    exact Nat.lt_succ_of_le (Span.length_rest_ofClass_le _ s)
  | case7 c s _ _ notNumber notAlpha =>
    simp only [readValue?, notNumber, notAlpha, Bool.false_eq_true, if_false] at h
    cases h

/-- Reads the values of a property, with the dashes between them. `empty` says that there is no
value yet, and `signed` that a number may have a sign: at the start and after a dash. A dash that
nothing follows needs a value before it. -/
def readValues (empty signed : Bool) (s : List Char) : Except Fault (List RawValue × List Char) :=
  match _read : readValue? signed s with
  | some (value, rest) => do
    let (values, rest) ← readValues false false rest
    return (value :: values, rest)
  | none =>
    if _dash : s.head? = some '-' then
      if empty && s.tail.isEmpty then .error ⟨.valueExpected, []⟩ else readValues empty true s.tail
    else .ok ([], s)
termination_by s.length
decreasing_by
  · exact length_readValue?_lt _read
  · exact length_tail_lt_of_head? _dash

theorem length_readValues_le {empty signed : Bool} {s rest : List Char} {values : List RawValue}
    (h : readValues empty signed s = .ok (values, rest)) : rest.length ≤ s.length := by
  fun_induction readValues empty signed s generalizing values rest with
  | case1 empty signed s value tail found ih =>
    cases hrest : readValues false false tail with
    | error f => rw [hrest] at h; cases h
    | ok read =>
      rw [hrest] at h
      cases h
      have := length_readValue?_lt found
      have := ih hrest
      omega
  | case2 => cases h
  | case3 _ _ s _ dash _ ih =>
    have := length_tail_lt_of_head? dash
    have := ih h
    omega
  | case4 =>
    cases h
    exact Nat.le_refl _

/-! ## Properties -/

/-- `s` without the character `c` at its start, if it starts with it. -/
def dropChar (c : Char) (s : List Char) : List Char := if s.head? == some c then s.tail else s

theorem length_dropChar_le (c : Char) (s : List Char) : (dropChar c s).length ≤ s.length := by
  unfold dropChar
  split <;> simp

/-- Reads one property: a name, an optional colon, values, and an optional `!`. -/
def readProperty (s : List Char) : Except Fault (RawProperty × List Char) :=
  let name := scanPropertyName s
  if name.read.isEmpty then
    match s with
    | [] => .error ⟨.propertyNameExpected, []⟩
    | c :: _ =>
      if c = '+' then .error ⟨.propertyNameExpected, s⟩ else .error ⟨.unexpectedChar c, s⟩
  else
    match readValues true true (dropChar ':' name.rest) with
    | .error f => .error f
    | .ok (values, rest) =>
      let important := rest.head? == some '!'
      .ok ({ name := String.ofList name.read, values, important }, dropChar '!' rest)

theorem length_scanNameTail_add (started : Bool) (s : List Char) :
    (scanNameTail started s).read.length + (scanNameTail started s).rest.length = s.length := by
  fun_induction scanNameTail started s <;> simp_all <;> omega

theorem length_scanPropertyName_add (s : List Char) :
    (scanPropertyName s).read.length + (scanPropertyName s).rest.length = s.length := by
  fun_cases scanPropertyName s with
  | case1 s _ =>
    have := length_scanNameTail_add true s
    simp only [Span.read_cons, Span.rest_cons, List.length_cons]
    omega
  | case2 s _ => exact Nat.zero_add _
  | case3 s _ => exact length_scanNameTail_add false s

/-- A property takes at least one character. -/
theorem length_readProperty_lt {s rest : List Char} {p : RawProperty}
    (h : readProperty s = .ok (p, rest)) : rest.length < s.length := by
  have name := length_scanPropertyName_add s
  simp only [readProperty] at h
  split at h
  · split at h
    · cases h
    · split at h <;> cases h
  · next named =>
    have pos : 0 < (scanPropertyName s).read.length := by
      rw [List.length_pos_iff]
      intro hnil
      exact named (by rw [hnil]; rfl)
    split at h
    · cases h
    · next values tail hvalues =>
      have start := length_readValues_le hvalues
      have colon := length_dropChar_le ':' (scanPropertyName s).rest
      have mark := length_dropChar_le '!' tail
      cases h
      omega

/-- Reads properties with `+` between them up to the end of the input. -/
def readProperties (s : List Char) : Except Fault (List RawProperty) :=
  match _read : readProperty s with
  | .error f => .error f
  | .ok (property, []) => .ok [property]
  | .ok (property, c :: rest) =>
    if c = '+' then do
      let others ← readProperties rest
      return property :: others
    else .error ⟨.unexpectedChar c, c :: rest⟩
termination_by s.length
decreasing_by
  have := length_readProperty_lt _read
  exact Nat.lt_of_succ_lt this

/-- Reads the characters of an abbreviation. -/
def readChars (limits : Limits) (s : List Char) : Except Fault (List RawProperty) :=
  if s.length ≤ limits.abbreviationLength then readProperties s
  else .error ⟨.abbreviationTooLong s.length limits.abbreviationLength, s⟩

/-- Reads an abbreviation. -/
def read (limits : Limits) (abbreviation : String) : Except Error (List RawProperty) :=
  (readChars limits abbreviation.toList).mapError (Fault.toError abbreviation.toList)

end Shorthand.Stylesheet
