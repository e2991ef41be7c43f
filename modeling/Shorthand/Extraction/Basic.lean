import Shorthand.Extraction.TagEnd
import Shorthand.Options

/-!
# Extraction — the abbreviation before the cursor

The line is read backwards from the cursor, as far as an abbreviation can reach. Brackets are
matched on the way, so that texts and attributes with blanks in them are taken whole.
-/

namespace Shorthand

/-- An abbreviation found in a line, from character `start` up to `stop`. -/
structure Extraction where
  abbreviation : String
  start : Nat
  stop : Nat
  deriving Repr, DecidableEq

namespace Extraction

/-- The brackets that can close in an abbreviation. Braces are text in markup only. -/
def isClosing (grammar : Grammar) (c : Char) : Bool :=
  c == ']' || c == ')' || (grammar == .markup && c == '}')

/-- The brackets that can open in an abbreviation. -/
def isOpening (grammar : Grammar) (c : Char) : Bool :=
  c == '[' || c == '(' || (grammar == .markup && c == '{')

/-- The bracket that closes an opening one. -/
def closingOf : Char → Char
  | '[' => ']'
  | '(' => ')'
  | _ => '}'

/-- The characters an abbreviation is written with outside brackets. -/
def isAbbreviationChar (c : Char) : Bool :=
  c.isAlphanum || "#.*:$-_!@%^+>/".toList.contains c

/-- Where a backward scan ends: the closing brackets still open, and the text it took. -/
structure Scan where
  stack : List Char
  taken : List Char
  deriving Repr, DecidableEq

/-- Scans backwards over `before`, a reversed text. `stack` holds the closing brackets that wait for
their opening ones. Inside braces only braces count, and inside square brackets only brackets. A
bracket that opens without need ends the scan, and takes the last waiting one off the stack. -/
def scan (grammar : Grammar) (stack taken : List Char) : (before : List Char) → Scan
  | [] => { stack, taken }
  | c :: before =>
    if stack.contains '}' && c != '{' then
      scan grammar (if c = '}' then c :: stack else stack) (c :: taken) before
    else if isClosing grammar c then scan grammar (c :: stack) (c :: taken) before
    else if isOpening grammar c then
      match stack with
      | [] => { stack := [], taken }
      | top :: waiting =>
        if top = closingOf c then scan grammar waiting (c :: taken) before
        else { stack := waiting, taken }
    else if stack.contains ']' || stack.contains '}' then scan grammar stack (c :: taken) before
    else if endsWithTag (c :: before) || !isAbbreviationChar c then { stack, taken }
    else scan grammar stack (c :: taken) before

/-- How many characters after the cursor belong to the abbreviation before it: a quote right at the
cursor and the closing brackets that follow, as editors insert them. -/
def lookAhead (grammar : Grammar) (after : List Char) : Nat :=
  match after with
  | c :: rest =>
    if isQuote c then 1 + (rest.takeWhile (isClosing grammar)).length
    else (after.takeWhile (isClosing grammar)).length
  | [] => 0

/-- The operators an abbreviation does not start with. -/
def isLeadingOperator (c : Char) : Bool := c == '*' || c == '+' || c == '>' || c == '^'

/-- The abbreviation in the characters of a line that ends at `stop`. -/
def ofChars? (grammar : Grammar) (line : List Char) (stop : Nat) : Option Extraction :=
  let found := scan grammar [] [] (line.take stop).reverse
  let abbreviation := found.taken.dropWhile isLeadingOperator
  if found.stack.isEmpty && !abbreviation.isEmpty then
    some
      { abbreviation := String.ofList abbreviation
        start := stop - abbreviation.length
        stop }
  else none

/-- The abbreviation in a line at the cursor, which stands after `cursor` characters or, if the line
has not as many, at its end. -/
def ofLine? (grammar : Grammar) (ahead : Bool) (line : String) (cursor : Nat) :
    Option Extraction :=
  let chars := line.toList
  let cursor := min cursor chars.length
  let stop := if ahead then cursor + lookAhead grammar (chars.drop cursor) else cursor
  ofChars? grammar chars stop

end Extraction

end Shorthand
