import Mathlib.Control.Monad.Basic
import Shorthand.Editor.Completion
import Shorthand.Proofs.Stylesheet.PlainText

/-!
# ExpandedSnippet — the tab-stops of an expansion, as an editor reads them

An expansion is rendered from segments, and an editor reads it as a snippet. For stylesheets it
finds the fields among the segments as tab-stops, and no others. For markup it does so if the
segments are clean; what a user writes behind a backslash, in a placeholder or in the name of an
attribute need not be. `tabStops_expand` is that statement, and `escaped_dollar_is_read_as_tabStop`
an abbreviation for which the editor finds a tab-stop that nobody wrote.
-/

namespace Shorthand

/-- The segments that an abbreviation is expanded to. -/
def segmentsOf (grammar : Grammar) (o : Options) (abbreviation : String) :
    Except Failure (List Segment) :=
  match grammar with
  | .markup => do
    let forest ← Markup.parse o.limits abbreviation
    return Markup.Html.segments o forest
  | .stylesheet => do
    let properties ← (Stylesheet.parse o.limits abbreviation).mapError .rejected
    return Stylesheet.Css.segments o properties

/-- Every expansion is rendered from its segments. -/
theorem expand_eq_map_renderAll (grammar : Grammar) (o : Options) (abbreviation : String) :
    expand grammar o abbreviation =
      (segmentsOf grammar o abbreviation).map (Segment.renderAll o.field) := by
  cases grammar with
  | markup =>
      simp only [expand, Markup.expand, segmentsOf]
      cases Markup.parse o.limits abbreviation <;> rfl
  | stylesheet =>
      simp only [expand, Stylesheet.expand, segmentsOf]
      cases Stylesheet.parse o.limits abbreviation <;> rfl

namespace Editor

/-- Stylesheets are read as they are meant. -/
theorem clean_stylesheet {abbreviation : String} {segments : List Segment}
    (h : segmentsOf .stylesheet { field := FieldFormat.snippet } abbreviation = .ok segments) :
    Segment.Clean segments := by
  obtain ⟨properties, hproperties, h⟩ := bind_eq_ok.mp h
  cases h
  exact Segment.clean_of_plain (Stylesheet.Css.plain_segments (mapError_eq_ok.mp hproperties))

/-- An expansion is rendered from segments. Its outermost tab-stops, as an editor reads them, are
the fields among these segments, in order and with their numbers: always in a stylesheet, and in
markup if the segments are clean. -/
theorem tabStops_expand {grammar : Grammar} {abbreviation text : String}
    (h : expand grammar abbreviation = .ok text) :
    ∃ segments,
      segmentsOf grammar { field := FieldFormat.snippet } abbreviation = .ok segments ∧
      text = Segment.renderAll FieldFormat.snippet segments ∧
      (grammar = .stylesheet ∨ Segment.Clean segments →
        SnippetText.tabStops text.toList = segments.filterMap Segment.index?) := by
  rw [expand, expand_eq_map_renderAll] at h
  cases hsegments : segmentsOf grammar { field := FieldFormat.snippet } abbreviation with
  | error e =>
      rw [hsegments] at h
      cases h
  | ok segments =>
      rw [hsegments] at h
      cases h
      refine ⟨segments, rfl, rfl, ?_⟩
      rintro (rfl | hclean)
      · exact Segment.tabStops_renderAll (clean_stylesheet hsegments)
      · exact Segment.tabStops_renderAll hclean

/-- A link with a placeholder in braces, a dollar behind a backslash of its own, and fields out of
order. -/
def pricedLink : String := "a\x7b$\x7b2:\x7bx\x7d\x7d costs \\\\\\$5 $\x7b1\x7d\x7d"

/-- What the link is expanded to. -/
def pricedSegments : List Segment :=
  [.literal "<a", .literal " href=\"", .field 3 none, .literal "\"", .literal ">",
    .field 2 (some "\x7bx\x7d"), .literal " costs \\$5 ", .field 1 none, .literal "</a>"]

theorem tabStops_expand_pricedLink :
    let text := Segment.renderAll FieldFormat.snippet pricedSegments
    expand .markup pricedLink = .ok text ∧ Segment.Clean pricedSegments ∧
      SnippetText.tabStops text.toList = pricedSegments.filterMap Segment.index? := by
  intro text
  have hexpand : expand .markup pricedLink = .ok text := by decide +kernel
  have hclean : Segment.Clean pricedSegments := by decide +kernel
  have hpriced : segmentsOf .markup { field := FieldFormat.snippet } pricedLink =
      .ok pricedSegments := by decide +kernel
  obtain ⟨segments, hsegments, _, hread⟩ := tabStops_expand hexpand
  rw [hpriced] at hsegments
  cases hsegments
  exact ⟨hexpand, hclean, hread (.inr hclean)⟩

/-- The dollar of `\$5` is meant literally and no field is written, but an editor reads the fifth
tab-stop. -/
theorem escaped_dollar_is_read_as_tabStop :
    ∃ text segments,
      expand .markup "p\x7b\\$5\x7d" = .ok text ∧
      segmentsOf .markup { field := FieldFormat.snippet } "p\x7b\\$5\x7d" = .ok segments ∧
      SnippetText.tabStops text.toList ≠ segments.filterMap Segment.index? := by
  refine ⟨"<p>$5</p>", [.literal "<p", .literal ">", .literal "$5", .literal "</p>"], ?_, ?_, ?_⟩
  · decide +kernel
  · decide +kernel
  · decide +kernel

end Editor

end Shorthand
