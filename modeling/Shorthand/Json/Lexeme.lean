import Shorthand.Json.Basic
import Shorthand.Text.Span

/-!
# Lexeme — the words of a JSON text

A JSON text is first cut into lexemes: brackets, separators, and the values that have no parts.
Anything that is no lexeme makes the whole text unreadable.
-/

namespace Shorthand.Json

open Text

/-- A word of a JSON text. -/
inductive Lexeme where
  | openArray
  | closeArray
  | openObject
  | closeObject
  | comma
  | colon
  /-- A value without parts. -/
  | scalar (v : Json)
  deriving Repr

/-! ## Strings -/

/-- The value of a hexadecimal digit. -/
def hexValue? (c : Char) : Option Nat :=
  if c.isDigit then some (c.toNat - '0'.toNat)
  else if 'a' ≤ c && c ≤ 'f' then some (c.toNat - 'a'.toNat + 10)
  else if 'A' ≤ c && c ≤ 'F' then some (c.toNat - 'A'.toNat + 10)
  else none

/-- The number that four hexadecimal digits write. -/
def hexQuad? (a b c d : Char) : Option Nat := do
  let a ← hexValue? a
  let b ← hexValue? b
  let c ← hexValue? c
  let d ← hexValue? d
  return ((a * 16 + b) * 16 + c) * 16 + d

def isHighSurrogate (n : Nat) : Bool := 0xD800 ≤ n && n < 0xDC00

def isLowSurrogate (n : Nat) : Bool := 0xDC00 ≤ n && n < 0xE000

/-- The character of a code unit that is one by itself. -/
def ofUnit? (n : Nat) : Option Char :=
  if isHighSurrogate n || isLowSurrogate n then none else some (Char.ofNat n)

/-- The character of two code units that are a surrogate pair. -/
def ofPair? (high low : Nat) : Option Char :=
  if isHighSurrogate high && isLowSurrogate low then
    some (Char.ofNat (0x10000 + (high - 0xD800) * 0x400 + (low - 0xDC00)))
  else none

/-- The character that a backslash and a letter stand for. -/
def escaped? : Char → Option Char
  | '"' => some '"'
  | '\\' => some '\\'
  | '/' => some '/'
  | 'b' => some '\x08'
  | 'f' => some '\x0c'
  | 'n' => some '\n'
  | 'r' => some '\r'
  | 't' => some '\t'
  | _ => none

/-- One character of a string, decoded, from the front of what follows the opening quote; none at
the closing quote and where the string is malformed. -/
def scanChar? : List Char → Option (Char × List Char)
  | '\\' :: 'u' :: a :: b :: c :: d :: s =>
    match hexQuad? a b c d with
    | none => none
    | some high =>
      match ofUnit? high, s with
      | some char, s => some (char, s)
      | none, '\\' :: 'u' :: e :: f :: g :: h :: s =>
        match (hexQuad? e f g h).bind (ofPair? high) with
        | some char => some (char, s)
        | none => none
      | none, _ => none
  | '\\' :: c :: s => (escaped? c).map fun char => (char, s)
  | c :: s => if c = '"' || c = '\\' || c.toNat < 0x20 then none else some (c, s)
  | [] => none

theorem length_scanChar?_lt {s rest : List Char} {c : Char} (h : scanChar? s = some (c, rest)) :
    rest.length < s.length := by
  unfold scanChar? at h
  split at h
  · split at h
    · cases h
    · split at h
      · cases h
        simp only [List.length_cons]
        omega
      · split at h
        · cases h
          simp only [List.length_cons]
          omega
        · cases h
      · cases h
  · obtain ⟨_, _, he⟩ := Option.map_eq_some_iff.1 h
    cases he
    simp only [List.length_cons]
    omega
  · split at h
    · cases h
    · cases h
      exact Nat.lt_succ_self _
  · cases h

/-- The characters of a string, decoded, and what follows its closing quote. -/
def scanString (s : List Char) : Option Span :=
  match _read : scanChar? s with
  | some (c, rest) => (scanString rest).map (Span.cons c)
  | none => if s.head? = some '"' then some { read := [], rest := s.tail } else none
termination_by s.length
decreasing_by exact length_scanChar?_lt _read

theorem length_scanString_lt {s : List Char} {span : Span} (h : scanString s = some span) :
    span.rest.length < s.length := by
  fun_induction scanString s generalizing span with
  | case1 s c rest hread ih =>
    obtain ⟨inner, hinner, rfl⟩ := Option.map_eq_some_iff.1 h
    have short := ih hinner
    have := length_scanChar?_lt hread
    exact Nat.lt_trans short this
  | case2 s _ quote =>
    cases h
    exact length_tail_lt_of_head? quote
  | case3 => cases h

/-! ## Numbers and names -/

/-- The characters of numbers and of the three names. -/
def isWordChar (c : Char) : Bool := c.isAlphanum || c == '+' || c == '-' || c == '.'

/-- Whether a run of digits is there, and nothing else. -/
def isDigits (s : List Char) : Bool := !s.isEmpty && s.all Char.isDigit

/-- Whether digits write a whole number: no zero in front of others. -/
def isWhole : List Char → Bool
  | ['0'] => true
  | '0' :: _ => false
  | s => isDigits s

/-- Whether the end of a number is an exponent, or nothing. -/
def isExponent : List Char → Bool
  | [] => true
  | e :: '+' :: digits => (e == 'e' || e == 'E') && isDigits digits
  | e :: '-' :: digits => (e == 'e' || e == 'E') && isDigits digits
  | e :: digits => (e == 'e' || e == 'E') && isDigits digits

/-- Whether the end of a number is a fraction and an exponent, either of which may be missing. -/
def isFraction : List Char → Bool
  | '.' :: s =>
    let digits := Span.ofClass Char.isDigit s
    !digits.read.isEmpty && isExponent digits.rest
  | s => isExponent s

/-- The number that a word without its sign writes. -/
def unsigned? (negative : Bool) (word : List Char) : Option Json :=
  let whole := Span.ofClass Char.isDigit word
  if isWhole whole.read && isFraction whole.rest then
    if whole.rest.isEmpty then
      let n : Int := Nat.ofDigitChars 10 whole.read 0
      some (.integer (if negative then -n else n))
    else some (.decimal (String.ofList (if negative then '-' :: word else word)))
  else none

/-- The value that a word stands for. -/
def ofWord? (word : List Char) : Option Json :=
  match word with
  | 'n' :: 'u' :: 'l' :: 'l' :: [] => some .null
  | 't' :: 'r' :: 'u' :: 'e' :: [] => some (.bool true)
  | 'f' :: 'a' :: 'l' :: 's' :: 'e' :: [] => some (.bool false)
  | '-' :: digits => unsigned? true digits
  | digits => unsigned? false digits

/-! ## Texts -/

/-- The blanks of JSON. -/
def isJsonBlank (c : Char) : Bool := c == ' ' || c == '\t' || c == '\n' || c == '\r'

/-- The lexeme at the front of a text that starts with no blank, and the rest. -/
def scanLexeme : List Char → Option (Lexeme × List Char)
  | [] => none
  | '[' :: s => some (.openArray, s)
  | ']' :: s => some (.closeArray, s)
  | '{' :: s => some (.openObject, s)
  | '}' :: s => some (.closeObject, s)
  | ',' :: s => some (.comma, s)
  | ':' :: s => some (.colon, s)
  | '"' :: s =>
    (scanString s).map fun span => (.scalar (.string (String.ofList span.read)), span.rest)
  | c :: s =>
    if isWordChar c then
      (ofWord? (c :: s.takeWhile isWordChar)).map fun v => (.scalar v, s.dropWhile isWordChar)
    else none

theorem length_scanLexeme_lt {s rest : List Char} {l : Lexeme}
    (h : scanLexeme s = some (l, rest)) : rest.length < s.length := by
  unfold scanLexeme at h
  split at h
  · cases h
  · cases h; exact Nat.lt_succ_self _
  · cases h; exact Nat.lt_succ_self _
  · cases h; exact Nat.lt_succ_self _
  · cases h; exact Nat.lt_succ_self _
  · cases h; exact Nat.lt_succ_self _
  · cases h; exact Nat.lt_succ_self _
  · obtain ⟨span, hspan, he⟩ := Option.map_eq_some_iff.1 h
    cases he
    exact Nat.lt_succ_of_lt (length_scanString_lt hspan)
  · split at h
    · obtain ⟨_, _, he⟩ := Option.map_eq_some_iff.1 h
      cases he
      exact Nat.lt_succ_of_le (List.dropWhile_suffix _).length_le
    · cases h

/-- Cuts a text into lexemes. -/
def lexemes (s : List Char) : Option (List Lexeme) :=
  match _blanks : s.dropWhile isJsonBlank with
  | [] => some []
  | start =>
    match _read : scanLexeme start with
    | none => none
    | some (l, rest) => (lexemes rest).map (l :: ·)
termination_by s.length
decreasing_by
  have blanks : (s.dropWhile isJsonBlank).length ≤ s.length := (List.dropWhile_suffix _).length_le
  have := length_scanLexeme_lt _read
  rw [_blanks] at blanks
  omega

end Shorthand.Json
