import Shorthand.Options
import Shorthand.Stylesheet.Property
import Shorthand.Value.Reader

/-!
# Css — properties as declarations

Each property is a line. A property without values offers tab-stops: those of a template, or one
with the most common keyword as its placeholder. Tab-stops are numbered through all lines, and the
final one stands at the end unless a template has placed it.
-/

namespace Shorthand.Stylesheet

namespace Css

/-- The tab-stops used so far: the last number, and whether the final stop is placed. -/
structure Stops where
  last : Nat := 0
  final : Bool := false
  deriving Repr, DecidableEq

/-- A template with the newlines and tabs of the output in it. -/
def layOut (o : Options) (source : String) : List Char :=
  let lines := source.toList.flatMap fun c => if c = '\n' then o.newline.toList else [c]
  lines.flatMap fun c => if c = '\t' then o.indent.toList else [c]

/-- The output for a token of a template whose tab-stops are counted from `base`. -/
def writeToken (base : Nat) : Token → Segment
  | .text s => .literal s
  | .field index placeholder => .field (if index = 0 then 0 else base + index) placeholder
  | .number _ => .literal "$"

/-- The tab-stops after a segment. -/
def Stops.after (stops : Stops) : Segment → Stops
  | .literal _ => stops
  | .field index _ => { last := max stops.last index, final := stops.final || index = 0 }

/-- The output for a template. -/
def writeTemplate (o : Options) (stops : Stops) (source : String) : List Segment × Stops :=
  let segments := (Value.read (layOut o source)).map (writeToken stops.last)
  (segments, segments.foldl Stops.after stops)

/-- What is offered for the value of a property without values. -/
def writeOffer (o : Options) (stops : Stops) (definition : Option Definition) :
    List Segment × Stops :=
  match definition.bind (·.template) with
  | some source => writeTemplate o stops source
  | none =>
    let keyword := definition.bind (·.keywords.head?)
    ([.field (stops.last + 1) keyword], { stops with last := stops.last + 1 })

/-- The line of a property. -/
def writeProperty (o : Options) (stops : Stops) : Property → List Segment × Stops
  | .template _ source => writeTemplate o stops source
  | .declaration name values important definition =>
    let value :=
      if values.isEmpty then writeOffer o stops definition
      else ([.literal (String.intercalate " " (values.map CssValue.text))], stops)
    let ending := if important then " !important;" else ";"
    (.literal (name ++ ": ") :: value.1 ++ [.literal ending], value.2)

/-- The lines of the properties. -/
def writeProperties (o : Options) (stops : Stops) : List Property → List Segment × Stops
  | [] => ([], stops)
  | [p] => writeProperty o stops p
  | p :: rest =>
    let first := writeProperty o stops p
    let others := writeProperties o first.2 rest
    (first.1 ++ .literal o.newline :: others.1, others.2)

/-- The segments of a list of properties. -/
def segments (o : Options) (properties : List Property) : List Segment :=
  let written := writeProperties o {} properties
  written.1 ++ if written.2.final then [] else [.field 0 none]

end Css

/-- Properties as CSS. -/
def css (o : Options) (properties : List Property) : String :=
  Segment.renderAll o.field (Css.segments o properties)

/-- An abbreviation as CSS. -/
def expand (o : Options) (abbreviation : String) : Except Error String := do
  let properties ← parse o.limits abbreviation
  return css o properties

end Shorthand.Stylesheet
