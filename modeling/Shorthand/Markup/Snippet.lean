import Shorthand.Markup.Lorem
import Shorthand.Markup.Reader
import Shorthand.Markup.SnippetTable

/-!
# Snippet — names that stand for abbreviations

An element whose name is a snippet is replaced by the forest of the snippet's abbreviation, as a
group. What was written on the element goes into that forest: the attributes to its first named
element, the text and the children to its last node.

A snippet is not expanded inside itself, so `a` can stand for `a[href]`. How deep snippets may nest
is bounded, and the bound that is left is what the recursion of `resolve` descends on.

Placeholder text is put in on the way. It can be asked for in amounts that do not fit in memory, and
the expansion breaks down over such an element.
-/

namespace Shorthand.Markup

mutual

/-- Changes the first named element in preorder, if there is one. -/
def Node.updateFirstNamed? (f : Element → Element) : Node → Option Node
  | .element e times children =>
    if e.name.isSome then some (.element (f e) times children)
    else (Forest.updateFirstNamed? f children).map (.element e times ·)
  | .group times children => (Forest.updateFirstNamed? f children).map (.group times ·)

/-- Changes the first named element in preorder, if there is one. -/
def Forest.updateFirstNamed? (f : Element → Element) : Forest → Option Forest
  | [] => none
  | node :: rest =>
    match node.updateFirstNamed? f with
    | some node => some (node :: rest)
    | none => (Forest.updateFirstNamed? f rest).map (node :: ·)

end

mutual

/-- Changes the last node that has no children, following last children down. -/
def Node.updateLastLeaf (f : Node → Node) : Node → Node
  | .element e times children =>
    if children.isEmpty then f (.element e times children)
    else .element e times (Forest.updateLastLeaf f children)
  | .group times children =>
    if children.isEmpty then f (.group times children)
    else .group times (Forest.updateLastLeaf f children)

/-- Changes the last node that has no children, following last children down. -/
def Forest.updateLastLeaf (f : Node → Node) : Forest → Forest
  | [] => []
  | [node] => [node.updateLastLeaf f]
  | node :: next :: rest => node :: Forest.updateLastLeaf f (next :: rest)

end

/-- Adds text, which a group has no use for, and children. -/
def Node.receive (text : Option Value) (more : Forest) : Node → Node
  | .element e times children =>
    .element (match text with | some text => e.addText text | none => e) times (children ++ more)
  | .group times children => .group times (children ++ more)

/-- The element with the attributes and the slash of `written` on top of its own. -/
def Element.overrideWith (written e : Element) : Element :=
  { e with
    attributes := written.attributes.foldl (fun as a => a.override as) e.attributes
    selfClosing := e.selfClosing || written.selfClosing }

mutual

/-- Replaces every element, from the leaves up: `f` gets an element and its replaced children. -/
def Node.replaceElements (f : Element → Option Nat → Forest → Except Failure Node) :
    Node → Except Failure Node
  | .element e times children => do
    let children ← Forest.replaceElements f children
    f e times children
  | .group times children => do
    let children ← Forest.replaceElements f children
    return .group times children

/-- Replaces every element, from the leaves up and from left to right. -/
def Forest.replaceElements (f : Element → Option Nat → Forest → Except Failure Node) :
    Forest → Except Failure Forest
  | [] => .ok []
  | node :: rest => do
    let node ← node.replaceElements f
    let rest ← Forest.replaceElements f rest
    return node :: rest

end

namespace Snippet

/-- Writes `value` for every occurrence of `pattern` in a text, of which the first `skip` characters
belong to an occurrence that was replaced already. -/
def replaceFrom (pattern value : List Char) : (skip : Nat) → List Char → List Char
  | _, [] => []
  | skip + 1, _ :: s => replaceFrom pattern value skip s
  | 0, c :: s =>
    if pattern.isPrefixOf (c :: s) then value ++ replaceFrom pattern value (pattern.length - 1) s
    else c :: replaceFrom pattern value 0 s

/-- Writes the value of a variable for every `${name}`. -/
def substitute (name value : String) (s : List Char) : List Char :=
  replaceFrom ('$' :: '{' :: name.toList ++ ['}']) value.toList 0 s

/-- The abbreviation with the values of all variables in place. -/
def withVariables (source : String) : String :=
  String.ofList (variableValues.foldl (fun s v => substitute v.1 v.2 s) source.toList)

/-- The name to look an element up by: its name, if that is plain text. -/
def key? (e : Element) : Option String :=
  match e.name with
  | some [.text name] => some name
  | _ => none

/-- Drops the `+` from the name of an element that turned out not to be a snippet. -/
def dropMarker (name : String) (e : Element) : Element :=
  if 1 < name.length && name.toList.getLast? == some '+' then
    let trimmed := (name.toList.reverse.dropWhile (· == '+')).reverse
    { e with name := some (Value.ofText (String.ofList trimmed)) }
  else e

/-- The node for an element that is a snippet: the snippet's forest, with what was written on the
element in it. -/
def merge (e : Element) (times : Option Nat) (children forest : Forest) : Node :=
  let forest := (Forest.updateFirstNamed? e.overrideWith forest).getD forest
  .group times (Forest.updateLastLeaf (Node.receive e.text children) forest)

/-- Expands all snippets of a forest, except the ones in `visited`. `budget` more may nest. -/
def resolve (limits : Limits) (budget : Nat) (visited : List String) (forest : Forest) :
    Except Failure Forest :=
  Forest.replaceElements (fun e times children =>
    match key? e with
    | none => .ok (.element e times children)
    | some name =>
      match Lorem.wordCount? name with
      | some count =>
        if count ≤ Lorem.capacity then .ok (.element (Lorem.fill count e) times children)
        else .error (.brokeDown Lorem.overflowMessage)
      | none =>
        if visited.contains name then .ok (.element e times children)
        else
          match source? name with
          | none => .ok (.element (dropMarker name e) times children)
          | some source =>
            match budget with
            | 0 => .error (.rejected { cause := .snippetTooDeep name limits.snippetDepth })
            | budget + 1 =>
              match read limits (withVariables source) with
              | .error invalid =>
                .error (.rejected { cause := .invalidSnippet name invalid.cause })
              | .ok parsed => do
                let expanded ← resolve limits budget (name :: visited) parsed
                return merge e times children expanded) forest

end Snippet

/-- Expands all snippets of a forest. -/
def expandSnippets (limits : Limits) (forest : Forest) : Except Failure Forest :=
  Snippet.resolve limits limits.snippetDepth [] forest

end Shorthand.Markup
