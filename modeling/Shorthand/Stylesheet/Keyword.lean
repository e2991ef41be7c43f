import Shorthand.Stylesheet.Definition

/-!
# Keyword — short forms of keywords and property names

A keyword can be written in full, by its initials (`ib` for `inline-block`), or by its first
letters. A property can be written by its abbreviation, by its name, or by its abbreviation with a
keyword right after it (`posa` for `position: absolute`).
-/

namespace Shorthand.Stylesheet

/-- The first letters of the parts of a keyword, which dashes divide. -/
def initials (keyword : String) : List Char :=
  (keyword.toList.splitOn '-').filterMap List.head?

/-- The keyword of a list that `written` stands for: the one written in full, else the first with
those initials, else the first that starts that way. -/
def findKeyword? (keywords : List String) (written : String) : Option String :=
  if written.isEmpty then none
  else
    (keywords.find? (· == written)).or <|
    (keywords.find? (initials · == written.toList)).or <|
    keywords.find? (written.toList.isPrefixOf ·.toList)

/-- The keyword that `written` stands for as a value of a property: one of the property's own, else
one of those that every property has. -/
def Definition.keyword? (d : Definition) (written : String) : Option String :=
  (findKeyword? d.keywords written).or (findKeyword? globalKeywords written)

/-- The keyword that `written` stands for, or `written` itself. Without a definition, only the
keywords of every property count. -/
def resolveKeyword (definition : Option Definition) (written : String) : String :=
  let own := definition.bind (·.keyword? written)
  (own.or (findKeyword? Definition.globalKeywords written)).getD written

/-- What a property name stands for: the full name, what is known about the property, and a keyword
that the short form ends in. -/
structure ResolvedName where
  name : String
  definition : Option Definition := none
  keyword : Option String := none
  deriving Repr, DecidableEq

namespace ResolvedName

/-- The name as an abbreviation of the first `n` characters and a keyword. -/
def split? (written : String) (n : Nat) : Option ResolvedName := do
  let definition ← Definition.ofAbbreviation? (String.ofList (written.toList.take n))
  let keyword ← definition.keyword? (String.ofList (written.toList.drop n))
  return { name := definition.name, definition, keyword }

/-- Resolves a property name. Abbreviations come before names, and long abbreviations before short
ones with more of a keyword after them; a name that is neither stands for itself. -/
def ofWritten (written : String) : ResolvedName :=
  let known := (Definition.ofAbbreviation? written).or (Definition.ofName? written)
  match known with
  | some definition => { name := definition.name, definition }
  | none =>
    let lengths := (List.range' 1 (written.length - 1)).reverse
    (lengths.findSome? (split? written)).getD { name := written }

end ResolvedName

end Shorthand.Stylesheet
