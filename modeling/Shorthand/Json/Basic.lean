/-!
# Json — the values that editors send

Numbers are kept apart by how they are written: an integer is exact, and a number with a fraction or
an exponent is only its text, since nothing here computes with it.

Values are written without blanks. In strings, quotes, backslashes and control characters are
escaped, and all else stands for itself.
-/

namespace Shorthand

/-- A JSON value. -/
inductive Json where
  | null
  | bool (b : Bool)
  | integer (n : Int)
  | decimal (text : String)
  | string (s : String)
  | array (items : List Json)
  | object (fields : List (String × Json))
  deriving Repr, Inhabited

namespace Json

/-- The field of an object with this name. -/
def get? (name : String) : Json → Option Json
  | .object fields => fields.lookup name
  | _ => none

def string? : Json → Option String
  | .string s => some s
  | _ => none

def integer? : Json → Option Int
  | .integer n => some n
  | _ => none

/-- The integer of a value that is one and not negative. -/
def natural? : Json → Option Nat
  | .integer (.ofNat n) => some n
  | _ => none

def array? : Json → Option (List Json)
  | .array items => some items
  | _ => none

/-! ## Writing -/

/-- A control character as a code unit of four digits. -/
def controlEscape (c : Char) : List Char :=
  ['\\', 'u', '0', '0', Nat.digitChar (c.toNat / 16), Nat.digitChar (c.toNat % 16)]

/-- A character as it stands in a string. -/
def encodeChar (c : Char) : List Char :=
  match c with
  | '"' => ['\\', '"']
  | '\\' => ['\\', '\\']
  | '\n' => ['\\', 'n']
  | '\r' => ['\\', 'r']
  | '\t' => ['\\', 't']
  | c => if c.toNat < 0x20 then controlEscape c else [c]

/-- A string in quotes. -/
def encodeString (s : String) : String :=
  "\"" ++ String.ofList (s.toList.flatMap encodeChar) ++ "\""

mutual

/-- A value as text. -/
def compact : Json → String
  | .null => "null"
  | .bool true => "true"
  | .bool false => "false"
  | .integer n => toString n
  | .decimal text => text
  | .string s => encodeString s
  | .array items => "[" ++ String.intercalate "," (compactItems items) ++ "]"
  | .object fields => "\x7b" ++ String.intercalate "," (compactFields fields) ++ "\x7d"

/-- The items of an array as texts. -/
def compactItems : List Json → List String
  | [] => []
  | v :: rest => v.compact :: compactItems rest

/-- The fields of an object as texts. -/
def compactFields : List (String × Json) → List String
  | [] => []
  | (name, v) :: rest => (encodeString name ++ ":" ++ v.compact) :: compactFields rest

end

end Json

end Shorthand
