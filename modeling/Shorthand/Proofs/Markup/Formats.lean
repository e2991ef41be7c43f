import Shorthand.Expand
import Shorthand.Proofs.Markup.TabStops

/-!
# Formats — what the field format decides

The field format is meant to decide how tab-stops are written and nothing else. That is not quite so:
a line break is left out where there is no text before it, and whether a tab-stop is text depends on
the format. `Lead` is what the output shows in front of a line break whatever the format: nothing,
tab-stops alone, or text. A break behind tab-stops alone is loose (`looseBreaks`); a format that
shows its tab-stops keeps it, and one that hides them does not.

Nothing else depends on the format. Two runs of the writer under different formats are followed side
by side (`parallel_writeLevel`): what they write differs in loose breaks only. So one sequence of
segments does for all formats exactly if there are no loose breaks or nothing is written for them
(`one_sequence_iff`).
-/

namespace Shorthand

/-- The options with another field format. -/
def Options.withField (o : Options) (format : FieldFormat) : Options := { o with field := format }

namespace FieldFormat

/-- Every tab-stop is shown. -/
def Shows (format : FieldFormat) : Prop := ∀ index placeholder, format index placeholder ≠ ""

/-- No tab-stop is shown. -/
def Hides (format : FieldFormat) : Prop := ∀ index placeholder, format index placeholder = ""

/-- Every tab-stop as a run of `n` equal characters. -/
def row (n : Nat) : FieldFormat := fun _ _ => String.ofList (List.replicate n '.')

theorem shows_row {n : Nat} (hn : 0 < n) : (row n).Shows := by
  intro index placeholder h
  have hlength := congrArg String.length h
  rw [row, String.length_ofList, List.length_replicate, String.length_empty] at hlength
  omega

theorem hides_row : (row 0).Hides := fun _ _ => rfl

end FieldFormat

open FieldFormat

/-! ## Sequences with line breaks left out -/

namespace Segment

/-- The length of the literal text of a sequence. -/
def literalLength : List Segment → Nat
  | [] => 0
  | .literal s :: rest => s.length + literalLength rest
  | .field .. :: rest => literalLength rest

theorem length_renderAll_row (n : Nat) (segments : List Segment) :
    (renderAll (row n) segments).length =
      literalLength segments + n * (calls segments).length := by
  induction segments with
  | nil => rfl
  | cons segment segments ih =>
      rw [renderAll_cons, String.length_append, ih]
      cases segment with
      | literal s =>
          rw [literalLength, calls_literal, render]
          omega
      | field index placeholder =>
          rw [literalLength, calls_field, List.length_cons, render, row, String.length_ofList,
            List.length_replicate, Nat.mul_succ]
          omega

/-- The second sequence is the first one with `n` more segments, each of them `gap`. -/
inductive Padded (gap : Segment) : Nat → List Segment → List Segment → Prop where
  | nil : Padded gap 0 [] []
  | same {n : Nat} {first second : List Segment} (s : Segment) (h : Padded gap n first second) :
      Padded gap n (s :: first) (s :: second)
  | extra {n : Nat} {first second : List Segment} (h : Padded gap n first second) :
      Padded gap (n + 1) first (gap :: second)

namespace Padded

variable {gap : Segment} {m n : Nat} {a b c d : List Segment}

theorem refl (gap : Segment) (segments : List Segment) : Padded gap 0 segments segments := by
  induction segments with
  | nil => exact .nil
  | cons s segments ih => exact .same s ih

theorem append (h₁ : Padded gap m a b) (h₂ : Padded gap n c d) :
    Padded gap (m + n) (a ++ c) (b ++ d) := by
  induction h₁ with
  | nil => rwa [Nat.zero_add]
  | same s h ih => exact .same s ih
  | extra h ih =>
      rw [Nat.add_right_comm]
      exact .extra ih

theorem eq_of_zero (h : Padded gap n a b) (hn : n = 0) : a = b := by
  induction h with
  | nil => rfl
  | same s h ih => rw [ih hn]
  | extra h ih => cases hn

/-- Segments that show nothing make no difference. -/
theorem renderAll_eq {format : FieldFormat} (hgap : gap.render format = "")
    (h : Padded gap n a b) : renderAll format a = renderAll format b := by
  induction h with
  | nil => rfl
  | same s h ih => rw [renderAll_cons, renderAll_cons, ih]
  | extra h ih => rw [renderAll_cons, hgap, String.empty_append, ih]

theorem literalLength_eq {text : String} (h : Padded (.literal text) n a b) :
    literalLength b = literalLength a + n * text.length := by
  induction h with
  | nil => simp [literalLength]
  | same s h ih =>
      cases s with
      | literal t => rw [literalLength, literalLength, ih, Nat.add_assoc]
      | field index placeholder => rw [literalLength, literalLength, ih]
  | extra h ih =>
      rw [literalLength, ih, Nat.succ_mul]
      omega

end Padded

end Segment

namespace Markup.Html

open Segment (Padded)

/-! ## What stands before a line break -/

/-- What the output shows so far, whatever the field format. -/
inductive Lead where
  | nothing
  | stops
  | text
  deriving Repr, DecidableEq

namespace Lead

def afterSegment (lead : Lead) : Segment → Lead
  | .literal s => if s = "" then lead else .text
  | .field .. => if lead = .text then .text else .stops

def after (lead : Lead) (segments : List Segment) : Lead := segments.foldl afterSegment lead

/-- The numbers of tab-stops have no part in it. -/
theorem after_segments (lead : Lead) (base : Nat) (v : Value) :
    lead.after (v.segments base) = lead.after (v.segments 0) := by
  induction v generalizing lead with
  | nil => rfl
  | cons token v ih =>
      cases token with
      | text s => exact ih _
      | field index placeholder => exact ih _
      | number n => exact ih _

/-- What a lead says about the output under a format: whether it has any text yet. -/
structure Fits (format : FieldFormat) (lead : Lead) (started : Bool) : Prop where
  nothing : lead = .nothing → started = false
  shown : lead = .stops → format.Shows → started = true
  hidden : lead = .stops → format.Hides → started = false
  text : lead = .text → started = true

variable {format : FieldFormat} {lead : Lead} {started : Bool}

theorem Fits.of_text (format : FieldFormat) {started : Bool} (h : started = true) :
    Fits format .text started := ⟨nofun, nofun, nofun, fun _ => h⟩

theorem Fits.of_stops (hshown : format.Shows → started = true)
    (hhidden : format.Hides → started = false) : Fits format .stops started :=
  ⟨nofun, fun _ => hshown, fun _ => hhidden, nofun⟩

/-- At the start of the output there is nothing. -/
theorem Fits.start (format : FieldFormat) : Fits format .nothing false :=
  ⟨fun _ => rfl, nofun, nofun, nofun⟩

theorem Fits.segment (h : Fits format lead started) (s : Segment) :
    Fits format (lead.afterSegment s) (started || !(s.render format).isEmpty) := by
  cases s with
  | literal s =>
      rw [afterSegment]
      split
      · next hempty =>
        have hblank : (!(Segment.render format (.literal s)).isEmpty) = false := by rw [hempty]; rfl
        rwa [hblank, Bool.or_false]
      · next hne => exact .of_text format (by simp [Segment.render, hne])
  | field index placeholder =>
      rw [afterSegment]
      split
      · next htext => exact .of_text format (by simp [h.text htext])
      · next hlead =>
        refine .of_stops (fun hshows => ?_) fun hhides => ?_
        · simp [Segment.render, hshows index placeholder]
        · have hstarted : started = false := by
            cases lead with
            | nothing => exact h.nothing rfl
            | stops => exact h.hidden rfl hhides
            | text => exact absurd rfl hlead
          simp [Segment.render, hhides index placeholder, hstarted]

theorem Fits.after (h : Fits format lead started) (segments : List Segment) :
    Fits format (lead.after segments)
      (started || segments.any fun s => !(s.render format).isEmpty) := by
  induction segments generalizing lead started with
  | nil => simpa [Lead.after] using h
  | cons s segments ih =>
      rw [List.any_cons, ← Bool.or_assoc]
      exact ih (h.segment s)

end Lead

mutual

/-- What the output shows behind a node. A tag is text. -/
def leadOfNode (lead : Lead) : Node → Lead
  | .group _ children => leadOfLevel lead children
  | .element e _ children =>
    match e.shownName with
    | none => leadOfLevel (lead.after (writeText 0 e)) children
    | some _ => .text

def leadOfLevel (lead : Lead) : Forest → Lead
  | [] => lead
  | node :: rest => leadOfLevel (leadOfNode lead node) rest

end

mutual

/-- How many line breaks of a node have tab-stops alone before them. -/
def looseBreaksOfNode (o : Options) (lead : Lead) : Node → Nat
  | .group _ children => looseBreaksOfLevel o (breaks o false children) lead children
  | .element e _ children =>
    match e.shownName with
    | none => looseBreaksOfLevel o (breaks o false children) (lead.after (writeText 0 e)) children
    | some _ => 0

def looseBreaksOfLevel (o : Options) (onLines : Bool) (lead : Lead) : Forest → Nat
  | [] => 0
  | node :: rest =>
    (if onLines ∧ lead = .stops then 1 else 0) + looseBreaksOfNode o lead node +
      looseBreaksOfLevel o onLines (leadOfNode lead node) rest

end

/-- How many line breaks of the output have tab-stops alone before them. -/
def looseBreaks (o : Options) (forest : Forest) : Nat :=
  looseBreaksOfLevel o (breaks o false forest) .nothing forest

/-! ## Behind the first text -/

section

variable (o : Options) (f g : FieldFormat)

@[simp] theorem breaks_withField : breaks (o.withField f) = breaks o := rfl

@[simp] theorem newline_withField : newline (o.withField f) = newline o := rfl

/-- An element with a name is written the same way at the start of the output and later. -/
theorem writeNode_of_name {e : Element} {name : String} (hname : e.shownName = some name)
    (pa pb : Pen) (hpens : pa.lastField = pb.lastField) (level : Nat) (times : Option Nat)
    (children : Forest) :
    writeNode o level pa (.element e times children) =
      writeNode o level pb (.element e times children) := by
  simp only [writeNode, hname, hpens]

mutual

theorem writeNode_of_started (level : Nat) (pen : Pen) (hpen : pen.started = true) :
    (node : Node) →
    writeNode (o.withField f) level pen node = writeNode (o.withField g) level pen node ∧
      (writeNode (o.withField f) level pen node).pen.started = true
  | .group _ children => by
    obtain ⟨hsame, hstarted⟩ := writeLevel_of_started level (breaks o false children) pen hpen
      children
    rw [writeNode_group, writeNode_group, breaks_withField, breaks_withField, hsame]
    exact ⟨rfl, hsame ▸ hstarted⟩
  | .element e times children => by
    cases hname : e.shownName with
    | none =>
        let after : Pen := { lastField := addWord pen.lastField e.maxField, started := true }
        have hafter : ∀ h : FieldFormat, penAfterText (o.withField h) pen e = after := by
          intro h
          rw [penAfterText, hpen, Bool.true_or]
        obtain ⟨hsame, hstarted⟩ := writeLevel_of_started level (breaks o false children) after rfl
          children
        rw [writeNode_unnamed _ _ _ _ hname, writeNode_unnamed _ _ _ _ hname, hafter, hafter,
          breaks_withField, breaks_withField, hsame]
        exact ⟨rfl, hsame ▸ hstarted⟩
    | some name =>
        cases hclosed : isVoid name || e.selfClosing with
        | true =>
            rw [writeNode_unclosed _ _ _ _ hname hclosed, writeNode_unclosed _ _ _ _ hname hclosed]
            exact ⟨rfl, rfl⟩
        | false =>
            cases children with
            | cons child children =>
                obtain ⟨hsame, hstarted⟩ := writeLevel_of_started (innerLevel name level)
                  (breaks o (isSpread name) (child :: children)) (penInside pen name e) rfl
                  (child :: children)
                rw [writeNode_parent _ _ _ _ hname hclosed (List.cons_ne_nil _ _),
                  writeNode_parent _ _ _ _ hname hclosed (List.cons_ne_nil _ _), breaks_withField,
                  breaks_withField, hsame]
                exact ⟨rfl, hsame ▸ hstarted⟩
            | nil =>
                cases htext : e.text with
                | some text =>
                    have hsome : e.text.isSome = true := by rw [htext]; rfl
                    rw [writeNode_text _ _ _ _ hname hclosed hsome,
                      writeNode_text _ _ _ _ hname hclosed hsome]
                    exact ⟨rfl, rfl⟩
                | none =>
                    rw [writeNode_empty _ _ _ _ hname hclosed htext,
                      writeNode_empty _ _ _ _ hname hclosed htext]
                    exact ⟨rfl, rfl⟩

/-- Behind the first text, the format has no part in the layout. -/
theorem writeLevel_of_started (level : Nat) (onLines : Bool) (pen : Pen)
    (hpen : pen.started = true) :
    (forest : Forest) →
    writeLevel (o.withField f) level onLines pen forest =
        writeLevel (o.withField g) level onLines pen forest ∧
      (writeLevel (o.withField f) level onLines pen forest).pen.started = true
  | [] => by
    rw [writeLevel, writeLevel]
    exact ⟨rfl, hpen⟩
  | node :: rest => by
    obtain ⟨hnode, hstarted⟩ := writeNode_of_started level pen hpen node
    obtain ⟨hrest, hend⟩ := writeLevel_of_started level onLines
      (writeNode (o.withField f) level pen node).pen hstarted rest
    rw [writeLevel_cons, writeLevel_cons]
    exact ⟨by simp only [newline_withField, ← hnode, hrest], hend⟩

end

end

/-! ## Two runs side by side -/

/-- How many of the `loose` line breaks are missing under a format. -/
structure Missing (format : FieldFormat) (n loose : Nat) : Prop where
  le : n ≤ loose
  shown : format.Shows → n = 0
  hidden : format.Hides → n = loose

theorem Missing.zero (format : FieldFormat) : Missing format 0 0 :=
  ⟨Nat.le_refl _, fun _ => rfl, fun _ => rfl⟩

theorem Missing.add {format : FieldFormat} {m n loose₁ loose₂ : Nat}
    (h₁ : Missing format m loose₁) (h₂ : Missing format n loose₂) :
    Missing format (m + n) (loose₁ + loose₂) where
  le := Nat.add_le_add h₁.le h₂.le
  shown := fun h => by rw [h₁.shown h, h₂.shown h]
  hidden := fun h => by rw [h₁.hidden h, h₂.hidden h]

/-- What is written under `f` and under `g`, which shows its tab-stops: the same but for `n` line
breaks of the outermost level, and with the same number and lead behind it. -/
structure Parallel (o : Options) (f g : FieldFormat) (lead : Lead) (n : Nat) (a b : Written) :
    Prop where
  padded : Padded (newline o 0) n a.segments b.segments
  lastField : a.pen.lastField = b.pen.lastField
  left : lead.Fits f a.pen.started
  right : lead.Fits g b.pen.started

section

variable (o : Options) (f : FieldFormat) {g : FieldFormat}

/-- The line break in front of a node is missing only if it is loose. -/
theorem padded_lineBreak (hg : g.Shows) (onLines : Bool) {lead : Lead} {left right : Bool}
    (hleft : lead.Fits f left) (hright : lead.Fits g right) :
    ∃ n, Missing f n (if onLines ∧ lead = .stops then 1 else 0) ∧
      Padded (newline o 0) n (if onLines && left then [newline o 0] else [])
        (if onLines && right then [newline o 0] else []) := by
  cases onLines with
  | false => exact ⟨0, by simpa using Missing.zero f, by simpa using Padded.nil⟩
  | true =>
      simp only [Bool.true_and, true_and]
      cases lead with
      | nothing =>
          rw [hleft.nothing rfl, hright.nothing rfl]
          exact ⟨0, by simpa using Missing.zero f, .nil⟩
      | text =>
          rw [hleft.text rfl, hright.text rfl]
          exact ⟨0, by simpa using Missing.zero f, .refl _ _⟩
      | stops =>
          rw [hright.shown rfl hg, if_pos rfl, if_pos rfl]
          cases left with
          | true =>
              refine ⟨0, ⟨by omega, fun _ => rfl, fun hf => ?_⟩, .refl _ _⟩
              exact absurd (hleft.hidden rfl hf) (by decide)
          | false =>
              refine ⟨1, ⟨by omega, fun hf => ?_, fun _ => rfl⟩, .extra .nil⟩
              exact absurd (hleft.shown rfl hf) Bool.false_ne_true

mutual

theorem parallel_writeNode (hg : g.Shows) :
    (node : Node) → {lead : Lead} → {pa pb : Pen} → pa.lastField = pb.lastField →
    lead.Fits f pa.started → lead.Fits g pb.started →
    ∃ n, Missing f n (looseBreaksOfNode o lead node) ∧
      Parallel o f g (leadOfNode lead node) n (writeNode (o.withField f) 0 pa node)
        (writeNode (o.withField g) 0 pb node)
  | .group _ children, lead, pa, pb, hpens, hleft, hright => by
    obtain ⟨n, hn, hpar⟩ := parallel_writeLevel hg (breaks o false children) children hpens hleft
      hright
    rw [looseBreaksOfNode, leadOfNode, writeNode_group, writeNode_group]
    exact ⟨n, hn, hpar.padded, hpar.lastField, hpar.left, hpar.right⟩
  | .element e times children, lead, pa, pb, hpens, hleft, hright => by
    cases hname : e.shownName with
    | none =>
        -- the texts are the same, and each run sees in its own whether there is text by now
        have hfits : ∀ (h : FieldFormat) (pen : Pen), lead.Fits h pen.started →
            (lead.after (writeText 0 e)).Fits h (penAfterText (o.withField h) pen e).started := by
          intro h pen hfit
          rw [writeText, ← Lead.after_segments lead pen.lastField]
          exact hfit.after _
        have hlast : (penAfterText (o.withField f) pa e).lastField =
            (penAfterText (o.withField g) pb e).lastField := by
          rw [penAfterText, penAfterText, hpens]
        obtain ⟨n, hn, hpar⟩ := parallel_writeLevel hg (breaks o false children) children hlast
          (hfits f pa hleft) (hfits g pb hright)
        rw [writeNode_unnamed _ _ _ _ hname, writeNode_unnamed _ _ _ _ hname]
        simp only [looseBreaksOfNode, leadOfNode, hname]
        refine ⟨n, hn, ?_, hpar.lastField, hpar.left, hpar.right⟩
        have hpadded := (Padded.refl (newline o 0) (writeText pa.lastField e)).append hpar.padded
        rw [Nat.zero_add] at hpadded
        rwa [hpens] at hpadded ⊢
    | some name =>
        -- behind the opening tag there is text under any format
        let pen : Pen := { lastField := pa.lastField, started := true }
        obtain ⟨hsame, hstarted⟩ := writeNode_of_started o f g 0 pen rfl (.element e times children)
        rw [writeNode_of_name (o.withField f) hname pa pen rfl,
          writeNode_of_name (o.withField g) hname pb pen hpens.symm, ← hsame]
        simp only [looseBreaksOfNode, leadOfNode, hname]
        exact ⟨0, .zero f, .refl _ _, rfl, .of_text f hstarted, .of_text g hstarted⟩

/-- Under two formats, a level is written the same way but for loose breaks. -/
theorem parallel_writeLevel (hg : g.Shows) (onLines : Bool) :
    (forest : Forest) → {lead : Lead} → {pa pb : Pen} → pa.lastField = pb.lastField →
    lead.Fits f pa.started → lead.Fits g pb.started →
    ∃ n, Missing f n (looseBreaksOfLevel o onLines lead forest) ∧
      Parallel o f g (leadOfLevel lead forest) n (writeLevel (o.withField f) 0 onLines pa forest)
        (writeLevel (o.withField g) 0 onLines pb forest)
  | [], lead, pa, pb, hpens, hleft, hright => by
    rw [looseBreaksOfLevel, leadOfLevel, writeLevel, writeLevel]
    exact ⟨0, .zero f, .nil, hpens, hleft, hright⟩
  | node :: rest, lead, pa, pb, hpens, hleft, hright => by
    obtain ⟨i, hi, hgap⟩ := padded_lineBreak o f hg onLines hleft hright
    obtain ⟨j, hj, hnode⟩ := parallel_writeNode hg node hpens hleft hright
    obtain ⟨k, hk, hrest⟩ := parallel_writeLevel hg onLines rest hnode.lastField hnode.left
      hnode.right
    rw [looseBreaksOfLevel, leadOfLevel, writeLevel_cons, writeLevel_cons]
    exact ⟨i + j + k, (hi.add hj).add hk, (hgap.append hnode.padded).append hrest.padded,
      hrest.lastField, hrest.left, hrest.right⟩

end

/-- Under any format, a forest is written as under one that shows its tab-stops, less loose
breaks. -/
theorem padded_segments (hg : g.Shows) (forest : Forest) :
    ∃ n, Missing f n (looseBreaks o forest) ∧
      Padded (newline o 0) n (segments (o.withField f) forest)
        (segments (o.withField g) forest) := by
  have hpens : ({} : Pen).lastField = ({} : Pen).lastField := rfl
  obtain ⟨n, hn, hpar⟩ := parallel_writeLevel o f hg (breaks o false forest) forest hpens
    (Lead.Fits.start f) (Lead.Fits.start g)
  exact ⟨n, hn, hpar.padded⟩

end

/-! ## One sequence for all formats -/

theorem newline_zero (o : Options) : newline o 0 = .literal o.newline := by
  rw [newline, List.replicate_zero, String.join_nil, String.append_empty]

/-- Formats that show their tab-stops share one sequence. -/
theorem segments_of_shows (o : Options) (forest : Forest) {f g : FieldFormat} (hf : f.Shows)
    (hg : g.Shows) : segments (o.withField f) forest = segments (o.withField g) forest := by
  obtain ⟨n, hn, hpadded⟩ := padded_segments o f hg forest
  exact hpadded.eq_of_zero (hn.shown hf)

/-- If one sequence does for all formats, then nothing is written for loose breaks. The literal text
of a sequence is what is left if tab-stops are hidden, and what two lengths of tab-stop agree on. -/
theorem loose_of_one_sequence {o : Options} {forest : Forest} {pieces : List Segment}
    (h : ∀ format, html (o.withField format) forest = Segment.renderAll format pieces) :
    looseBreaks o forest * o.newline.length = 0 := by
  have hlength : ∀ n, Segment.literalLength (segments (o.withField (row n)) forest) +
      n * (Segment.calls (segments (o.withField (row n)) forest)).length =
      Segment.literalLength pieces + n * (Segment.calls pieces).length := by
    intro n
    rw [← Segment.length_renderAll_row, ← Segment.length_renderAll_row, ← h (row n)]
    rfl
  have hzero := hlength 0
  have hone := hlength 1
  have htwo := hlength 2
  have hshows : (row 1).Shows := shows_row (by decide)
  rw [segments_of_shows o forest (shows_row (by decide)) hshows] at htwo
  obtain ⟨n, hn, hpadded⟩ := padded_segments o (row 0) hshows forest
  rw [newline_zero] at hpadded
  have hliteral := hpadded.literalLength_eq
  rw [hn.hidden hides_row] at hliteral
  omega

/-- **What the field format decides.** One sequence of literals and tab-stops does for all formats
exactly if the output has no line break behind tab-stops alone, or line breaks are empty; and for the
formats that show every tab-stop there is always one. -/
theorem one_sequence_iff (o : Options) (forest : Forest) :
    ((∃ pieces : List Segment, ∀ format : FieldFormat,
        html { o with field := format } forest = Segment.renderAll format pieces) ↔
      o.newline = "" ∨ looseBreaks o forest = 0) ∧
    ∃ pieces : List Segment, ∀ format : FieldFormat,
      (∀ index placeholder, format index placeholder ≠ "") →
      html { o with field := format } forest = Segment.renderAll format pieces := by
  have hshows : (row 1).Shows := shows_row (by decide)
  refine ⟨⟨fun ⟨pieces, h⟩ => ?_, fun h => ⟨segments (o.withField (row 1)) forest, fun f => ?_⟩⟩,
    segments (o.withField (row 1)) forest, fun f hf => ?_⟩
  · rcases Nat.mul_eq_zero.mp (loose_of_one_sequence h) with hloose | hnewline
    · exact .inr hloose
    · exact .inl (String.length_eq_zero_iff.mp hnewline)
  · obtain ⟨n, hn, hpadded⟩ := padded_segments o f hshows forest
    rcases h with hnewline | hloose
    · refine hpadded.renderAll_eq ?_
      rw [newline_zero, Segment.render, hnewline]
    · exact congrArg _ (hpadded.eq_of_zero (Nat.le_zero.mp (hloose ▸ hn.le)))
  · exact congrArg _ (segments_of_shows o forest hf hshows)

/-- A text of one tab-stop and a paragraph: the line break between them is loose, so no sequence does
for all formats. -/
theorem no_sequence_behind_lone_stop :
    ∃ forest, parse {} "\x7b$\x7b1\x7d\x7d+p" = .ok forest ∧
      ¬ ∃ pieces : List Segment, ∀ format : FieldFormat,
        html { field := format } forest = Segment.renderAll format pieces := by
  have hloose : (parse {} "\x7b$\x7b1\x7d\x7d+p").toOption.map (looseBreaks {}) = some 1 := by
    decide +kernel
  cases hparse : parse {} "\x7b$\x7b1\x7d\x7d+p" with
  | error e =>
      rw [hparse] at hloose
      cases hloose
  | ok forest =>
      rw [hparse] at hloose
      have hone : looseBreaks {} forest = 1 := Option.some.inj hloose
      refine ⟨forest, rfl, fun ⟨pieces, h⟩ => ?_⟩
      have hzero : looseBreaks {} forest * "\n".length = 0 := loose_of_one_sequence h
      rw [hone] at hzero
      exact absurd hzero (by decide)

end Markup.Html

end Shorthand
