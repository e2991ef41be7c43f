/-!
# Error — why an abbreviation is rejected

An error is a `Cause` and the column it was found at. The wording of every message is in
`Cause.message`, and the four kinds of error are read off the cause.

While reading, a fault is reported with the input that remained at that point (`Fault`). The column
is worked out once, by `Fault.toError`, from how much of the input that remainder leaves.

An expansion can also break down over an abbreviation that it does not reject. A `Failure` is either.
-/

namespace Shorthand

/-- The four kinds of error an expansion can end with. -/
inductive ErrorKind where
  | malformed
  | unfinished
  | snippet
  | limit
  deriving Repr, DecidableEq

/-- The name of a kind, as shown to the user. -/
def ErrorKind.label : ErrorKind → String
  | .malformed => "SyntaxError"
  | .unfinished => "UnexpectedEndError"
  | .snippet => "SnippetError"
  | .limit => "LimitError"

/-- Why an abbreviation is rejected. -/
inductive Cause where
  | abbreviationTooLong (length max : Nat)
  | nestingTooDeep (max : Nat)
  | repeatTooLarge (count max : Nat)
  | tooManyElements (max : Nat)
  | emptyAbbreviation
  | unexpectedChar (c : Char)
  | elementExpected
  | unclosedGroup
  | repeatCountExpected
  | repeatCountZero
  | idExpected
  | classExpected
  | unclosedText
  | unclosedAttributes
  | attributeNameExpected
  | unclosedQuote
  | propertyNameExpected
  | valueExpected
  | snippetTakesNoValue (name : String)
  | unknownAtRule (name : String)
  | snippetTooDeep (name : String) (max : Nat)
  | invalidSnippet (name : String) (cause : Cause)
  deriving Repr, DecidableEq

namespace Cause

/-- The kind of error a cause belongs to. -/
def kind : Cause → ErrorKind
  | .abbreviationTooLong .. => .limit
  | .nestingTooDeep _ => .limit
  | .repeatTooLarge .. => .limit
  | .tooManyElements _ => .limit
  | .emptyAbbreviation => .unfinished
  | .unexpectedChar _ => .malformed
  | .elementExpected => .unfinished
  | .unclosedGroup => .unfinished
  | .repeatCountExpected => .malformed
  | .repeatCountZero => .malformed
  | .idExpected => .malformed
  | .classExpected => .malformed
  | .unclosedText => .unfinished
  | .unclosedAttributes => .unfinished
  | .attributeNameExpected => .malformed
  | .unclosedQuote => .unfinished
  | .propertyNameExpected => .unfinished
  | .valueExpected => .unfinished
  | .snippetTakesNoValue _ => .malformed
  | .unknownAtRule _ => .snippet
  | .snippetTooDeep .. => .snippet
  | .invalidSnippet .. => .snippet

/-- What the user is told. -/
def message : Cause → String
  | .abbreviationTooLong length max => s!"abbreviation length {length} exceeds maximum {max}"
  | .nestingTooDeep max => s!"nesting depth exceeds maximum {max}"
  | .repeatTooLarge count max => s!"repeat count {count} exceeds maximum {max}"
  | .tooManyElements max => s!"output exceeds maximum of {max} elements"
  | .emptyAbbreviation => "empty abbreviation"
  | .unexpectedChar c => s!"unexpected character '{c}'"
  | .elementExpected => "expected element after operator"
  | .unclosedGroup => "unclosed group"
  | .repeatCountExpected => "expected repeat count after '*'"
  | .repeatCountZero => "repeat count must be at least 1"
  | .idExpected => "expected id after '#'"
  | .classExpected => "expected class name after '.'"
  | .unclosedText => "unclosed text '\x7b'"
  | .unclosedAttributes => "unclosed attribute set '['"
  | .attributeNameExpected => "expected attribute name"
  | .unclosedQuote => "unclosed quoted attribute value"
  | .propertyNameExpected => "expected property name"
  | .valueExpected => "expected value after '-'"
  | .snippetTakesNoValue name => s!"snippet '{name}' takes no value"
  | .unknownAtRule name => s!"unknown at-rule '{name}'"
  | .snippetTooDeep name max => s!"snippet '{name}' exceeds maximum nesting {max}"
  | .invalidSnippet name cause =>
    let reason := cause.message
    s!"invalid snippet '{name}': {reason}"

end Cause

/-- A rejected abbreviation: the cause, and the character column it was found at. -/
structure Error where
  cause : Cause
  column : Nat := 0
  deriving Repr, DecidableEq

namespace Error

def kind (e : Error) : ErrorKind := e.cause.kind

def message (e : Error) : String := e.cause.message

/-- The whole error on one line: kind, column and message. -/
def display (e : Error) : String :=
  let label := e.kind.label
  let column := e.column
  let message := e.message
  s!"{label} at column {column}: {message}"

end Error

/-- A fault met while reading: the cause, and what was left of the input where it was found. -/
structure Fault where
  cause : Cause
  rest : List Char
  deriving Repr, DecidableEq

/-- The error a fault in `input` amounts to: its column is how much of `input` lies before it. -/
def Fault.toError (input : List Char) (f : Fault) : Error :=
  { cause := f.cause, column := input.length - f.rest.length }

/-- How an expansion ends without a result: the abbreviation is rejected, or the expansion breaks
down over it, with a message. -/
inductive Failure where
  | rejected (e : Error)
  | brokeDown (message : String)
  deriving Repr, DecidableEq

/-- Two computations in a row give a result exactly if both do. -/
theorem bind_eq_ok {ε α β : Type} {x : Except ε α} {f : α → Except ε β} {b : β} :
    (x >>= f) = .ok b ↔ ∃ a, x = .ok a ∧ f a = .ok b := by
  cases x with
  | error e => simp [bind, Except.bind]
  | ok a => simp [bind, Except.bind]

/-- Another error makes no difference to a result. -/
theorem mapError_eq_ok {ε δ α : Type} {f : ε → δ} {x : Except ε α} {a : α} :
    x.mapError f = .ok a ↔ x = .ok a := by
  cases x with
  | error e => constructor <;> intro h <;> cases h
  | ok b => constructor <;> intro h <;> cases h <;> rfl

end Shorthand
