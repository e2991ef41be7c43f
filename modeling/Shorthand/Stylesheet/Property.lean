import Shorthand.Stylesheet.Keyword
import Shorthand.Stylesheet.Reader
import Shorthand.Text.Character

/-!
# Property — what a stylesheet abbreviation means

A raw property is resolved into a `Property`: its name is looked up, its keywords are completed, its
numbers get units and its colours a canonical form.
-/

namespace Shorthand.Stylesheet

open Text

/-- A value, as it is written out. -/
inductive CssValue where
  | number (text : String)
  | color (text : String)
  | keyword (text : String)
  deriving Repr, DecidableEq

def CssValue.text : CssValue → String
  | .number text => text
  | .color text => text
  | .keyword text => text

/-- A resolved property. -/
inductive Property where
  /-- A name that stands for a whole template. -/
  | template (name source : String)
  | declaration (name : String) (values : List CssValue) (important : Bool)
      (definition : Option Definition)
  deriving Repr, DecidableEq

/-- The unit that letters after a number stand for. -/
def resolveUnit : String → String
  | "p" => "%"
  | "e" => "em"
  | "x" => "ex"
  | "r" => "rem"
  | unit => unit

/-- A number with its unit. Without one, a fraction is in `em`, zero has none, and all else is in
`px`, unless the property takes plain numbers. -/
def resolveNumber (unitless : Bool) (digits : String) : Option String → String
  | some unit => digits ++ resolveUnit unit
  | none =>
    if unitless then digits
    else if digits.toList.contains '.' then digits ++ "em"
    else if (digits.toList.dropWhile (· == '-')).all (· == '0') then "0"
    else digits ++ "px"

/-- A colour from its hexadecimal digits: in lower case, one or two digits three times over, none as
black, and three pairs of equal digits as three digits. -/
def resolveColor (hex : String) : String :=
  match (lower hex).toList with
  | [] => "#000"
  | [a] => "#" ++ String.ofList [a, a, a]
  | [a, b] =>
    if a = b then "#" ++ String.ofList [a, a, a] else "#" ++ String.ofList [a, b, a, b, a, b]
  | [a, a', b, b', c, c'] =>
    if a = a' && b = b' && c = c' then "#" ++ String.ofList [a, b, c]
    else "#" ++ String.ofList [a, a', b, b', c, c']
  | digits => "#" ++ String.ofList digits

/-- Resolves a value of a property. -/
def RawValue.resolve (definition : Option Definition) : RawValue → CssValue
  | .number digits unit => .number (resolveNumber (definition.any (·.unitless)) digits unit)
  | .color hex => .color (resolveColor hex)
  | .keyword written => .keyword (resolveKeyword definition written)

/-- `name` without the `+` signs at its end. -/
def trimPlus (name : String) : String :=
  String.ofList (name.toList.reverse.dropWhile (· == '+')).reverse

/-- Resolves a property. A template takes no values, and every at-rule must be one. A `+` at the end
of another name means nothing. -/
def RawProperty.resolve (p : RawProperty) : Except Error Property :=
  match template? p.name with
  | some source =>
    if p.values.isEmpty && !p.important then .ok (.template p.name source)
    else .error { cause := .snippetTakesNoValue p.name }
  | none =>
    if p.name.toList.head? = some '@' then .error { cause := .unknownAtRule p.name }
    else
      let resolved := ResolvedName.ofWritten (trimPlus p.name)
      let keyword := resolved.keyword.toList.map CssValue.keyword
      let values := keyword ++ p.values.map (RawValue.resolve resolved.definition)
      .ok (.declaration resolved.name values p.important resolved.definition)

/-- The properties an abbreviation means. -/
def parse (limits : Limits) (abbreviation : String) : Except Error (List Property) := do
  let properties ← read limits abbreviation
  properties.mapM RawProperty.resolve

end Shorthand.Stylesheet
