import Shorthand.Json.Lexeme

/-!
# Reading JSON

The reader goes through the lexemes of a text once. It keeps the containers that are still open,
innermost first, and what is due next; each lexeme either fits or makes the text unreadable.
-/

namespace Shorthand.Json

/-- A container that is being read, with what it has so far, last first. -/
inductive OpenContainer where
  | array (items : List Json)
  | object (fields : List (String × Json))
  /-- An object in which the value of `name` is due. -/
  | field (fields : List (String × Json)) (name : String)
  deriving Repr

/-- What the next lexeme has to be. -/
inductive Due where
  | value
  /-- The first item of an array, or its end. -/
  | itemOrEnd
  /-- The name of a field. -/
  | name
  /-- The first name of an object, or its end. -/
  | nameOrEnd
  | colon
  | commaOrEnd
  /-- Nothing: the value is complete. -/
  | nothing (v : Json)
  deriving Repr

/-- The state of the reader. -/
structure Reader where
  stack : List OpenContainer := []
  due : Due := .value
  deriving Repr

namespace Reader

/-- Puts a complete value where it belongs. -/
def put (v : Json) : List OpenContainer → Option Reader
  | [] => some { stack := [], due := .nothing v }
  | .array items :: stack => some { stack := .array (v :: items) :: stack, due := .commaOrEnd }
  | .field fields name :: stack =>
    some { stack := .object ((name, v) :: fields) :: stack, due := .commaOrEnd }
  | .object _ :: _ => none

/-- Reads the start of a value, or a whole one. -/
def readValue (stack : List OpenContainer) : Lexeme → Option Reader
  | .openArray => some { stack := .array [] :: stack, due := .itemOrEnd }
  | .openObject => some { stack := .object [] :: stack, due := .nameOrEnd }
  | .scalar v => put v stack
  | _ => none

/-- Reads the end of the innermost container. -/
def readEnd : List OpenContainer → Lexeme → Option Reader
  | .array items :: stack, .closeArray => put (.array items.reverse) stack
  | .object fields :: stack, .closeObject => put (.object fields.reverse) stack
  | _, _ => none

/-- Reads the name of a field. -/
def readName : List OpenContainer → Lexeme → Option Reader
  | .object fields :: stack, .scalar (.string name) =>
    some { stack := .field fields name :: stack, due := .colon }
  | _, _ => none

/-- Reads one lexeme. -/
def step (r : Reader) (l : Lexeme) : Option Reader :=
  match r.due with
  | .value => readValue r.stack l
  | .itemOrEnd =>
    match l with
    | .closeArray => readEnd r.stack l
    | _ => readValue r.stack l
  | .name => readName r.stack l
  | .nameOrEnd =>
    match l with
    | .closeObject => readEnd r.stack l
    | _ => readName r.stack l
  | .colon =>
    match l with
    | .colon => some { r with due := .value }
    | _ => none
  | .commaOrEnd =>
    match l, r.stack with
    | .comma, .array _ :: _ => some { r with due := .value }
    | .comma, .object _ :: _ => some { r with due := .name }
    | _, _ => readEnd r.stack l
  | .nothing _ => none

/-- The value that has been read, if it is complete. -/
def value? (r : Reader) : Option Json :=
  match r.due with
  | .nothing v => some v
  | _ => none

end Reader

/-- The value that a text writes. -/
def ofString? (text : String) : Option Json := do
  let words ← lexemes text.toList
  let final ← words.foldlM Reader.step {}
  final.value?

end Shorthand.Json
