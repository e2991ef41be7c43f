import Shorthand.Json.Basic

/-!
# Settings — what the user can configure
-/

namespace Shorthand.Editor

/-- The problems reported at most, where nothing is configured. -/
def defaultMaxNumberOfProblems : Nat := 1000

/-- The settings of a document. -/
structure Settings where
  maxNumberOfProblems : Nat := defaultMaxNumberOfProblems
  deriving Repr, DecidableEq

namespace Settings

/-- A count, from an integer of 32 bits without sign. -/
def count? : Json → Option Nat
  | .integer n => if 0 ≤ n && n.toNat < UInt32.size then some n.toNat else none
  | _ => none

/-- Settings from what an editor has configured: nothing at all, an object whose other fields do not
matter, or a list of the fields in order. -/
def ofJson? : Json → Option Settings
  | .null => some {}
  | .object fields =>
    match fields.lookup "maxNumberOfProblems" with
    | none => some {}
    | some value => (count? value).map fun n => { maxNumberOfProblems := n }
  | .array [] => some {}
  | .array [value] => (count? value).map fun n => { maxNumberOfProblems := n }
  | _ => none

end Settings

/-- What an editor answers when it is asked for the settings of a document. -/
inductive Reply where
  | value (v : Json)
  | empty
  | failed (reason : String)
  deriving Repr

/-- The settings of an answer that has some. -/
def Reply.settings? : Reply → Option Settings
  | .value v => Settings.ofJson? v
  | .empty => none
  | .failed _ => none

end Shorthand.Editor
