import Shorthand.Text.Character

/-!
# Vocabulary — what is known about HTML names

Which elements have no closing tag, which flow inline with their siblings, which attributes need no
value, and which element is meant where none is named. Names compare in lower case.
-/

namespace Shorthand.Markup

open Text

/-- Elements that are written without a closing tag. -/
def voidElements : List String :=
  ["area", "base", "br", "col", "embed", "hr", "img", "input", "keygen", "link", "meta", "param",
   "source", "track", "wbr"]

/-- Elements that stand on one line with their siblings. -/
def inlineElements : List String :=
  ["a", "abbr", "acronym", "applet", "b", "basefont", "bdo", "big", "br", "button", "cite",
   "code", "del", "dfn", "em", "font", "i", "iframe", "img", "input", "ins", "kbd", "label",
   "map", "object", "q", "s", "samp", "select", "small", "span", "strike", "strong", "sub",
   "sup", "textarea", "tt", "u", "var"]

/-- Attributes that say all they have to say by being present. -/
def booleanAttributes : List String :=
  ["async", "autofocus", "autoplay", "checked", "contenteditable", "controls", "defer",
   "disabled", "formnovalidate", "hidden", "ismap", "loop", "multiple", "muted", "novalidate",
   "readonly", "required", "reversed", "selected", "typemustmatch"]

def isVoid (name : String) : Bool := voidElements.contains (lower name)

def isInline (name : String) : Bool := inlineElements.contains (lower name)

def isBooleanAttribute (name : String) : Bool := booleanAttributes.contains (lower name)

/-- Elements whose children are not indented. -/
def isUnindented (name : String) : Bool := name == "html"

/-- Elements whose children always stand on lines of their own. -/
def isSpread (name : String) : Bool := name == "body"

/-- The name of an unnamed element inside `parent`, or at the top. -/
def implicitName : Option String → String
  | none => "div"
  | some parent =>
    match lower parent with
    | "ul" | "ol" => "li"
    | "table" | "tbody" | "thead" | "tfoot" => "tr"
    | "tr" => "td"
    | "select" | "optgroup" | "datalist" => "option"
    | "map" => "area"
    | "colgroup" => "col"
    | "audio" | "video" => "source"
    | name => if isInline name then "span" else "div"

end Shorthand.Markup
