/-!
# Definition — the known properties

Each known property has an abbreviation, keywords with the most common one first, and possibly a
template for the value that is offered when none is written. Templates hold tab-stops.
-/

namespace Shorthand.Stylesheet

/-- What is known about a property. -/
structure Definition where
  /-- The short form, such as `bgc`. -/
  abbreviation : String
  /-- The full name, such as `background-color`. -/
  name : String
  keywords : List String := []
  /-- The value offered when none is written. -/
  template : Option String := none
  /-- Whether numbers are written without a unit. -/
  unitless : Bool := false
  deriving Repr, DecidableEq

namespace Definition

def borderStyles : List String :=
  ["none", "solid", "dashed", "dotted", "double", "groove", "ridge", "inset", "outset", "hidden"]

def overflowKeywords : List String :=
  ["hidden", "auto", "scroll", "visible"]

def alignments : List String :=
  ["center", "flex-start", "flex-end", "baseline", "stretch", "start", "end"]

def justifications : List String :=
  ["center", "flex-start", "flex-end", "space-between", "space-around", "space-evenly", "start",
   "end"]

/-- The known properties. -/
def table : List Definition :=
  [ { abbreviation := "m", name := "margin" },
    { abbreviation := "mt", name := "margin-top" },
    { abbreviation := "mr", name := "margin-right" },
    { abbreviation := "mb", name := "margin-bottom" },
    { abbreviation := "ml", name := "margin-left" },
    { abbreviation := "p", name := "padding" },
    { abbreviation := "pt", name := "padding-top" },
    { abbreviation := "pr", name := "padding-right" },
    { abbreviation := "pb", name := "padding-bottom" },
    { abbreviation := "pl", name := "padding-left" },
    { abbreviation := "w", name := "width" },
    { abbreviation := "h", name := "height" },
    { abbreviation := "maw", name := "max-width" },
    { abbreviation := "mah", name := "max-height" },
    { abbreviation := "miw", name := "min-width" },
    { abbreviation := "mih", name := "min-height" },
    { abbreviation := "d", name := "display",
      keywords :=
        ["block", "none", "flex", "inline-flex", "inline", "inline-block", "grid", "inline-grid",
         "table", "table-cell", "table-row", "list-item", "contents"] },
    { abbreviation := "pos", name := "position",
      keywords := ["relative", "absolute", "fixed", "static", "sticky"] },
    { abbreviation := "t", name := "top" },
    { abbreviation := "r", name := "right" },
    { abbreviation := "b", name := "bottom" },
    { abbreviation := "l", name := "left" },
    { abbreviation := "z", name := "z-index", keywords := ["auto"], unitless := true },
    { abbreviation := "fl", name := "float", keywords := ["left", "right", "none"] },
    { abbreviation := "cl", name := "clear", keywords := ["both", "left", "right", "none"] },
    { abbreviation := "v", name := "visibility", keywords := ["hidden", "visible", "collapse"] },
    { abbreviation := "ov", name := "overflow", keywords := overflowKeywords },
    { abbreviation := "ovx", name := "overflow-x", keywords := overflowKeywords },
    { abbreviation := "ovy", name := "overflow-y", keywords := overflowKeywords },
    { abbreviation := "c", name := "color", template := "$\x7b1:#000\x7d" },
    { abbreviation := "bgc", name := "background-color", template := "$\x7b1:#fff\x7d" },
    { abbreviation := "bg", name := "background", template := "$\x7b1:#000\x7d" },
    { abbreviation := "bgi", name := "background-image", template := "url($\x7b1\x7d)" },
    { abbreviation := "bgr", name := "background-repeat",
      keywords := ["no-repeat", "repeat-x", "repeat-y", "repeat", "space", "round"] },
    { abbreviation := "bgp", name := "background-position",
      template := "$\x7b1:0\x7d $\x7b2:0\x7d" },
    { abbreviation := "bgs", name := "background-size", keywords := ["cover", "contain"] },
    { abbreviation := "bd", name := "border",
      keywords := borderStyles, template := "$\x7b1:1px\x7d $\x7b2:solid\x7d $\x7b3:#000\x7d" },
    { abbreviation := "bdt", name := "border-top",
      keywords := borderStyles, template := "$\x7b1:1px\x7d $\x7b2:solid\x7d $\x7b3:#000\x7d" },
    { abbreviation := "bdr", name := "border-right",
      keywords := borderStyles, template := "$\x7b1:1px\x7d $\x7b2:solid\x7d $\x7b3:#000\x7d" },
    { abbreviation := "bdb", name := "border-bottom",
      keywords := borderStyles, template := "$\x7b1:1px\x7d $\x7b2:solid\x7d $\x7b3:#000\x7d" },
    { abbreviation := "bdl", name := "border-left",
      keywords := borderStyles, template := "$\x7b1:1px\x7d $\x7b2:solid\x7d $\x7b3:#000\x7d" },
    { abbreviation := "bdc", name := "border-color", template := "$\x7b1:#000\x7d" },
    { abbreviation := "bds", name := "border-style", keywords := borderStyles },
    { abbreviation := "bdw", name := "border-width" },
    { abbreviation := "bdrs", name := "border-radius" },
    { abbreviation := "bdcl", name := "border-collapse", keywords := ["collapse", "separate"] },
    { abbreviation := "fz", name := "font-size" },
    { abbreviation := "fw", name := "font-weight",
      keywords := ["bold", "normal", "bolder", "lighter"], unitless := true },
    { abbreviation := "fs", name := "font-style", keywords := ["italic", "normal", "oblique"] },
    { abbreviation := "ff", name := "font-family",
      keywords := ["serif", "sans-serif", "monospace", "cursive", "fantasy"] },
    { abbreviation := "lh", name := "line-height", unitless := true },
    { abbreviation := "ta", name := "text-align",
      keywords := ["left", "center", "right", "justify"] },
    { abbreviation := "td", name := "text-decoration",
      keywords := ["none", "underline", "overline", "line-through"] },
    { abbreviation := "tt", name := "text-transform",
      keywords := ["uppercase", "lowercase", "capitalize", "none"] },
    { abbreviation := "ti", name := "text-indent" },
    { abbreviation := "to", name := "text-overflow", keywords := ["ellipsis", "clip"] },
    { abbreviation := "va", name := "vertical-align",
      keywords := ["top", "middle", "bottom", "baseline", "text-top", "text-bottom"] },
    { abbreviation := "ws", name := "white-space",
      keywords := ["nowrap", "pre", "normal", "pre-wrap", "pre-line"] },
    { abbreviation := "wb", name := "word-break", keywords := ["break-all", "keep-all", "normal"] },
    { abbreviation := "lts", name := "letter-spacing" },
    { abbreviation := "op", name := "opacity", unitless := true },
    { abbreviation := "cur", name := "cursor",
      keywords := ["pointer", "default", "text", "move", "not-allowed", "wait", "help"] },
    { abbreviation := "bxz", name := "box-sizing", keywords := ["border-box", "content-box"] },
    { abbreviation := "bxsh", name := "box-shadow",
      template := "$\x7b1:0\x7d $\x7b2:0\x7d $\x7b3:0\x7d $\x7b4:#000\x7d" },
    { abbreviation := "trf", name := "transform", template := "$\x7b1\x7d" },
    { abbreviation := "trs", name := "transition", template := "$\x7b1:prop\x7d $\x7b2:time\x7d" },
    { abbreviation := "fx", name := "flex" },
    { abbreviation := "fxd", name := "flex-direction",
      keywords := ["row", "column", "row-reverse", "column-reverse"] },
    { abbreviation := "fxw", name := "flex-wrap", keywords := ["wrap", "nowrap", "wrap-reverse"] },
    { abbreviation := "fxg", name := "flex-grow", unitless := true },
    { abbreviation := "fxsh", name := "flex-shrink", unitless := true },
    { abbreviation := "fxb", name := "flex-basis" },
    { abbreviation := "jc", name := "justify-content", keywords := justifications },
    { abbreviation := "ai", name := "align-items", keywords := alignments },
    { abbreviation := "ac", name := "align-content", keywords := justifications },
    { abbreviation := "as", name := "align-self", keywords := alignments },
    { abbreviation := "ord", name := "order", unitless := true },
    { abbreviation := "g", name := "gap" },
    { abbreviation := "gtc", name := "grid-template-columns",
      template := "repeat($\x7b1:2\x7d, $\x7b2:1fr\x7d)" },
    { abbreviation := "gtr", name := "grid-template-rows",
      template := "repeat($\x7b1:2\x7d, $\x7b2:1fr\x7d)" },
    { abbreviation := "lis", name := "list-style",
      keywords := ["none", "disc", "circle", "square"] },
    { abbreviation := "ol", name := "outline", keywords := ["none"] },
    { abbreviation := "cnt", name := "content", template := "'$\x7b1\x7d'" },
    { abbreviation := "zoo", name := "zoom", unitless := true },
    { abbreviation := "rsz", name := "resize",
      keywords := ["none", "both", "horizontal", "vertical"] },
    { abbreviation := "ap", name := "appearance", keywords := ["none"] } ]

/-- The keywords of every property. -/
def globalKeywords : List String :=
  ["auto", "inherit", "initial", "unset", "none"]

/-- The property with this abbreviation. -/
def ofAbbreviation? (abbreviation : String) : Option Definition :=
  table.find? (·.abbreviation == abbreviation)

/-- The property with this name. -/
def ofName? (name : String) : Option Definition := table.find? (·.name == name)

end Definition

/-- Names that stand for whole rules or declarations: at-rules, and shorthands that end in `+`. The
newlines and tabs in them stand for those of the output. -/
def templates : List (String × String) :=
  [("@i", "@import url($\x7b0\x7d);"),
   ("@import", "@import url($\x7b0\x7d);"),
   ("@m", "@media $\x7b1:screen\x7d \x7b\n\t$\x7b0\x7d\n\x7d"),
   ("@media", "@media $\x7b1:screen\x7d \x7b\n\t$\x7b0\x7d\n\x7d"),
   ("@f", "@font-face \x7b\n\tfont-family: $\x7b1\x7d;\n\tsrc: url($\x7b2\x7d);\n\x7d"),
   ("@kf", "@keyframes $\x7b1:identifier\x7d \x7b\n\t$\x7b0\x7d\n\x7d"),
   ("@cs", "@charset \"$\x7b1:UTF-8\x7d\";"),
   ("@ns", "@namespace $\x7b1:prefix\x7d url($\x7b2\x7d);"),
   ("@sup", "@supports ($\x7b1:display: grid\x7d) \x7b\n\t$\x7b0\x7d\n\x7d"),
   ("bg+",
    "background: $\x7b1:#fff\x7d url($\x7b2\x7d) $\x7b3:0\x7d $\x7b4:0\x7d $\x7b5:no-repeat\x7d;"),
   ("bd+", "border: $\x7b1:1px\x7d $\x7b2:solid\x7d $\x7b3:#000\x7d;"),
   ("f+", "font: $\x7b1:1em\x7d $\x7b2:Arial, sans-serif\x7d;"),
   ("lis+", "list-style: $\x7b1:none\x7d $\x7b2:outside\x7d $\x7b3:none\x7d;"),
   ("trs+", "transition: $\x7b1:prop\x7d $\x7b2:time\x7d $\x7b3:ease\x7d;")]

/-- The template a name stands for. -/
def template? (name : String) : Option String := templates.lookup name

end Shorthand.Stylesheet
