import Shorthand.Options
import Shorthand.Text.Span

/-!
# SnippetText — how an editor reads a snippet

The text of a completion is a snippet. A backslash before `$`, `}` or another backslash stands for
that character; `$n`, `${n}` and `${n:text}` are tab-stops, and tab-stops can stand in the text of
another one; all else is literal. `tabStops` reads the outermost tab-stops of a snippet.

Segments say which tab-stops are meant. Nothing is escaped when they are rendered, so the reader may
find others: in a literal, or in what is left of a field that is closed inside its placeholder. And
a backslash at the end of a literal may hide a field. Segments where none of that happens are
`Segment.Clean`, and of those it reads what is meant (`tabStops_renderAll`).
-/

namespace Shorthand

open Text

namespace SnippetText

/-! ## The reader -/

/-- The characters that an escape or a tab-stop can start with. -/
def isMark (c : Char) : Bool := c == '$' || c == '\\'

/-- The characters that can be written behind a backslash. -/
def isSpecial (c : Char) : Bool := isMark c || c == '}'

/-- Whether a backslash before this text is an escape. -/
def escapes (s : List Char) : Bool := s.head?.any isSpecial

/-- The number at the start of a text. -/
def leadingNumber (s : List Char) : Nat := Nat.ofDigitChars 10 (scanDigits s).read 0

/-- Whether a dollar before this text opens a tab-stop in braces: a number follows, and then the
closing brace or a colon. -/
def opensBraces : List Char → Bool
  | [] => false
  | c :: s =>
    c == '{' && !(scanDigits s).read.isEmpty &&
      (scanDigits s).rest.head?.any fun d => d == '}' || d == ':'

/-- What follows the brace that closes a tab-stop, read from inside it, where `depth` other
tab-stops are open in it. -/
def closing (depth : Nat) : List Char → Option (List Char)
  | [] => none
  | c :: s =>
    if c == '\\' && escapes s then closing depth s.tail
    else if c == '}' then if depth = 0 then some s else closing (depth - 1) s
    else if c == '$' && opensBraces s then closing (depth + 1) s
    else closing depth s
termination_by s => s.length
decreasing_by all_goals (simp only [List.length_cons, List.length_tail]; omega)

/-- The tab-stop that a dollar before this text starts: its number, and what follows it. A tab-stop
that is not closed is none. -/
def readStop? (s : List Char) : Option (Nat × List Char) :=
  if !(scanDigits s).read.isEmpty then some (leadingNumber s, (scanDigits s).rest)
  else if opensBraces s then (closing 0 s).map fun rest => (leadingNumber s.tail, rest)
  else none

theorem closing_brace (s : List Char) : closing 0 ('}' :: s) = some s := by
  rw [closing, if_neg (by simp), if_pos (beq_self_eq_true _), if_pos rfl]

/-- What follows a closing brace stands behind it. -/
theorem suffix_of_closing {depth : Nat} {s rest : List Char} (h : closing depth s = some rest) :
    '}' :: rest <:+ s := by
  fun_induction closing depth s with
  | case1 => cases h
  | case2 depth c s _ ih =>
    exact ((ih h).trans (List.tail_suffix s)).trans (List.suffix_cons c s)
  | case3 c s _ hc =>
    cases h
    obtain rfl := eq_of_beq hc
    exact List.suffix_rfl
  | case4 depth c s _ _ _ ih => exact (ih h).trans (List.suffix_cons c s)
  | case5 depth c s _ _ _ ih => exact (ih h).trans (List.suffix_cons c s)
  | case6 depth c s _ _ _ ih => exact (ih h).trans (List.suffix_cons c s)

theorem mem_of_closing {depth : Nat} {s rest : List Char} (h : closing depth s = some rest) :
    '}' ∈ s :=
  (suffix_of_closing h).subset List.mem_cons_self

theorem length_readStop?_le {s rest : List Char} {index : Nat}
    (h : readStop? s = some (index, rest)) : rest.length ≤ s.length := by
  rw [readStop?] at h
  split at h
  · cases h
    exact length_scanDigits_le s
  · split at h
    · obtain ⟨left, hleft, heq⟩ := Option.map_eq_some_iff.mp h
      cases heq
      exact Nat.le_of_succ_le (suffix_of_closing hleft).length_le
    · cases h

/-- The numbers of the outermost tab-stops of a snippet, in order. -/
def tabStops : List Char → List Nat
  | [] => []
  | c :: s =>
    if c == '\\' && escapes s then tabStops s.tail
    else if c == '$' then
      match _read : readStop? s with
      | some (index, rest) => index :: tabStops rest
      | none => tabStops s
    else tabStops s
termination_by s => s.length
decreasing_by
  · simp only [List.length_cons, List.length_tail]; omega
  · exact Nat.lt_succ_of_le (length_readStop?_le _read)
  · exact Nat.lt_succ_self _
  · exact Nat.lt_succ_self _

/-! ## Plain text -/

/-- Text in which nothing can start. -/
def Plain (s : List Char) : Prop := s.any isMark = false

instance (s : List Char) : Decidable (Plain s) := inferInstanceAs (Decidable (_ = _))

theorem plain_iff {s : List Char} : Plain s ↔ ∀ c ∈ s, isMark c = false := by
  simp [Plain]

@[simp] theorem plain_append {s t : List Char} : Plain (s ++ t) ↔ Plain s ∧ Plain t := by
  simp [Plain]

@[simp] theorem plain_cons {c : Char} {s : List Char} :
    Plain (c :: s) ↔ isMark c = false ∧ Plain s := by
  simp [Plain]

/-- Text without special characters: nothing can start in it, and it closes nothing. -/
def Inert (s : List Char) : Prop := s.any isSpecial = false

instance (s : List Char) : Decidable (Inert s) := inferInstanceAs (Decidable (_ = _))

theorem Inert.plain {s : List Char} (h : Inert s) : Plain s := by
  rw [plain_iff]
  intro c hc
  have hspecial := List.any_eq_false.mp h c hc
  simp only [isSpecial, Bool.or_eq_true, not_or, Bool.not_eq_true] at hspecial
  exact hspecial.1

/-- Text without special characters does not matter inside a tab-stop. -/
theorem closing_append_of_inert {s : List Char} (hs : Inert s) (depth : Nat) (t : List Char) :
    closing depth (s ++ t) = closing depth t := by
  induction s with
  | nil => rfl
  | cons c s ih =>
      rw [Inert, List.any_cons, Bool.or_eq_false_iff] at hs
      have hc := hs.1
      simp only [isSpecial, isMark, Bool.or_eq_false_iff] at hc
      rw [List.cons_append, closing]
      simp only [hc, Bool.false_and, Bool.false_eq_true, if_false]
      exact ih hs.2

/-! ## Text in front of other text -/

theorem escapes_append {s : List Char} (hs : s ≠ []) (t : List Char) :
    escapes (s ++ t) = escapes s := by
  cases s with
  | nil => exact absurd rfl hs
  | cons c s => rfl

theorem rest_scanDigits_ne_nil {s : List Char} (hs : '}' ∈ s) : (scanDigits s).rest ≠ [] := by
  intro hnil
  have hread : (scanDigits s).read = s := by
    have hall := Span.read_append_rest_ofClass Char.isDigit s
    rwa [← scanDigits, hnil, List.append_nil] at hall
  have hdigits : (scanDigits s).read.all Char.isDigit = true := List.all_takeWhile
  rw [hread] at hdigits
  exact absurd (List.all_eq_true.mp hdigits '}' hs) (by decide)

/-- Digits end before a brace. -/
theorem scanDigits_append {s : List Char} (hs : '}' ∈ s) (t : List Char) :
    scanDigits (s ++ t) = ⟨(scanDigits s).read, (scanDigits s).rest ++ t⟩ := by
  have hrest : (s.dropWhile Char.isDigit).isEmpty = false :=
    List.isEmpty_eq_false_iff.mpr (rest_scanDigits_ne_nil hs)
  have hread : (s.takeWhile Char.isDigit).length ≠ s.length := by
    have hall := congrArg List.length (Span.read_append_rest_ofClass Char.isDigit s)
    have hpos := List.length_pos_iff.mpr (rest_scanDigits_ne_nil hs)
    simp only [scanDigits, Span.ofClass, List.length_append] at hall hpos
    omega
  simp only [scanDigits, Span.ofClass, List.takeWhile_append, List.dropWhile_append, if_neg hread,
    hrest, Bool.false_eq_true, if_false]

/-- Whether a tab-stop opens is decided before the first closing brace. -/
theorem opensBraces_append {s : List Char} (hs : '}' ∈ s) (t : List Char) :
    opensBraces (s ++ t) = opensBraces s := by
  cases s with
  | nil => cases hs
  | cons c s =>
      by_cases hc : c = '{'
      · have hmem : '}' ∈ s := by
          rcases List.mem_cons.mp hs with h | h
          · rw [hc] at h
            exact absurd h (by decide)
          · exact h
        obtain ⟨d, rest, hrest⟩ := List.exists_cons_of_ne_nil (rest_scanDigits_ne_nil hmem)
        rw [List.cons_append, opensBraces, opensBraces, scanDigits_append hmem, hrest]
        rfl
      · rw [List.cons_append, opensBraces, opensBraces, beq_eq_false_iff_ne.mpr hc]
        rfl

/-- Where a tab-stop is closed does not depend on what follows. -/
theorem closing_append {depth : Nat} {s rest : List Char} (h : closing depth s = some rest)
    (t : List Char) : closing depth (s ++ t) = some (rest ++ t) := by
  fun_induction closing depth s with
  | case1 => cases h
  | case2 depth c s hescape ih =>
    -- the escaped character is one of `s`, not the first of `t`
    have hne : s ≠ [] := by
      rintro rfl
      simp [escapes] at hescape
    rw [List.cons_append, closing, escapes_append hne, if_pos hescape,
      List.tail_append_of_ne_nil hne]
    exact ih h
  | case3 c s hescape hc =>
    cases h
    rw [List.cons_append, closing, if_neg (by simp [eq_of_beq hc]), if_pos hc, if_pos rfl]
  | case4 depth c s hescape hc hdepth ih =>
    have hne := List.ne_nil_of_mem (mem_of_closing h)
    rw [List.cons_append, closing, escapes_append hne, if_neg hescape, if_pos hc, if_neg hdepth]
    exact ih h
  | case5 depth c s hescape hc hdollar ih =>
    -- the closing brace is still to come, and it ends the digits that `opensBraces` looks at
    have hmem := mem_of_closing h
    rw [List.cons_append, closing, escapes_append (List.ne_nil_of_mem hmem), if_neg hescape,
      if_neg hc, opensBraces_append hmem, if_pos hdollar]
    exact ih h
  | case6 depth c s hescape hc hdollar ih =>
    have hmem := mem_of_closing h
    rw [List.cons_append, closing, escapes_append (List.ne_nil_of_mem hmem), if_neg hescape,
      if_neg hc, opensBraces_append hmem, if_neg hdollar]
    exact ih h

/-! ## Literals -/

/-- Whether the reader gets through a text that `next` follows without finding a tab-stop in it, and
without an escape that reaches beyond its end. -/
def passes (next : List Char) : List Char → Bool
  | [] => true
  | c :: s =>
    if c == '\\' && escapes (s ++ next) then !s.isEmpty && passes next s.tail
    else !(c == '$' && (readStop? (s ++ next)).isSome) && passes next s
termination_by s => s.length
decreasing_by all_goals (simp only [List.length_cons, List.length_tail]; omega)

theorem tabStops_escape {s : List Char} (h : escapes s = true) :
    tabStops ('\\' :: s) = tabStops s.tail := by
  rw [tabStops, if_pos (by simp [h])]

/-- The reader goes on behind a character that starts nothing. -/
theorem tabStops_cons {c : Char} {s : List Char} (hescape : ¬ (c == '\\' && escapes s) = true)
    (hstop : (c == '$' && (readStop? s).isSome) = false) : tabStops (c :: s) = tabStops s := by
  rw [tabStops, if_neg hescape]
  split
  · next hc =>
    split
    · next hread => simp [hc, hread] at hstop
    · rfl
  · rfl

/-- The reader goes on behind a text that it gets through. -/
theorem tabStops_append_of_passes {s next : List Char} (h : passes next s = true) :
    tabStops (s ++ next) = tabStops next := by
  fun_induction passes next s with
  | case1 => rfl
  | case2 c s hescape ih =>
    rw [Bool.and_eq_true] at h hescape
    have hne : s ≠ [] := by simpa using h.1
    rw [List.cons_append, eq_of_beq hescape.1, tabStops_escape hescape.2,
      List.tail_append_of_ne_nil hne]
    exact ih h.2
  | case3 c s hescape ih =>
    rw [Bool.and_eq_true, Bool.not_eq_true'] at h
    rw [List.cons_append, tabStops_cons hescape h.1]
    exact ih h.2

theorem passes_of_plain {s : List Char} (hs : Plain s) (next : List Char) :
    passes next s = true := by
  induction s with
  | nil => rw [passes]
  | cons c s ih =>
      rw [plain_cons] at hs
      have hc := hs.1
      simp only [isMark, Bool.or_eq_false_iff] at hc
      rw [passes]
      simp [hc, ih hs.2]

/-! ## Fields -/

theorem tabStops_dollar {s rest : List Char} {index : Nat} (h : readStop? s = some (index, rest)) :
    tabStops ('$' :: s) = index :: tabStops rest := by
  rw [tabStops, if_neg (by simp), if_pos (beq_self_eq_true _)]
  split
  · next hread =>
    rw [h] at hread
    cases hread
    rfl
  · next hread =>
    rw [h] at hread
    cases hread

/-- What a field has between its number and its closing brace. -/
def label (placeholder : String) : List Char :=
  if placeholder.isEmpty then [] else ':' :: placeholder.toList

theorem toList_snippet (index : Nat) (placeholder : Option String) :
    (FieldFormat.snippet index placeholder).toList =
      '$' :: '{' :: (Nat.toDigits 10 index ++ (label (placeholder.getD "") ++ ['}'])) := by
  cases placeholder with
  | none => simp [FieldFormat.snippet, label, Nat.toString_eq_repr]
  | some text =>
      by_cases htext : text.isEmpty = true
      · simp [FieldFormat.snippet, label, htext, Nat.toString_eq_repr]
      · simp [FieldFormat.snippet, label, htext, Nat.toString_eq_repr]

/-- The number of a field ends before its label or its closing brace. -/
theorem scanDigits_field (index : Nat) (placeholder : String) (next : List Char) :
    scanDigits (Nat.toDigits 10 index ++ (label placeholder ++ '}' :: next)) =
      ⟨Nat.toDigits 10 index, label placeholder ++ '}' :: next⟩ := by
  apply scanDigits_toDigits_append
  rw [label]
  split
  · simp
  · simp

theorem opensBraces_field (index : Nat) (placeholder : String) (next : List Char) :
    opensBraces ('{' :: (Nat.toDigits 10 index ++ (label placeholder ++ '}' :: next))) = true := by
  rw [opensBraces, scanDigits_field, List.isEmpty_eq_false_iff.mpr Nat.toDigits_ne_nil, label]
  split <;> rfl

/-- The number and the colon of a field do not matter for where it is closed. -/
theorem closing_field (index : Nat) (placeholder : String) (next : List Char) :
    closing 0 ('{' :: (Nat.toDigits 10 index ++ (label placeholder ++ '}' :: next))) =
      closing 0 (placeholder.toList ++ '}' :: next) := by
  have hdigits : Inert ('{' :: Nat.toDigits 10 index) := by
    rw [Inert, List.any_cons, Bool.or_eq_false_iff, List.any_eq_false]
    refine ⟨rfl, fun c hc hspecial => ?_⟩
    have hdigit := Nat.isDigit_of_mem_toDigits (by decide) (by decide) hc
    simp only [isSpecial, isMark, Bool.or_eq_true, beq_iff_eq] at hspecial
    rcases hspecial with (rfl | rfl) | rfl <;> exact absurd hdigit (by decide)
  rw [← List.cons_append, closing_append_of_inert hdigits, label]
  split
  · next hempty =>
    rw [String.isEmpty_iff.mp hempty]
    rfl
  · exact closing_append_of_inert (s := [':']) (by decide) 0 _

/-- A field is read as a tab-stop with its number. It ends where its placeholder lets it end. -/
theorem readStop?_field (index : Nat) {placeholder : String} {left : List Char}
    (h : closing 0 (placeholder.toList ++ ['}']) = some left) (next : List Char) :
    readStop? ('{' :: (Nat.toDigits 10 index ++ (label placeholder ++ '}' :: next))) =
      some (index, left ++ next) := by
  have hclosing := closing_append h next
  rw [List.append_assoc, List.singleton_append] at hclosing
  rw [readStop?, if_neg, if_pos (opensBraces_field index placeholder next), closing_field, hclosing]
  · simp [leadingNumber, scanDigits_field, Nat.ofDigitChars_ten_toDigits]
  · simp [scanDigits, Span.ofClass]

end SnippetText

/-! ## Segments -/

namespace Segment

open SnippetText

/-- Segments as the text of a snippet. -/
def snippet (segments : List Segment) : List Char := (renderAll FieldFormat.snippet segments).toList

theorem snippet_cons (segment : Segment) (rest : List Segment) :
    snippet (segment :: rest) = (segment.render FieldFormat.snippet).toList ++ snippet rest := by
  simp [snippet, renderAll, String.join_cons]

/-- Whether the reader finds in a segment that `next` follows just the tab-stop that is meant: it
gets through a literal, and if a field is closed inside its placeholder, through what is left of
that. -/
def CleanBefore (next : List Char) : Segment → Prop
  | .literal s => passes next s.toList = true
  | .field _ placeholder =>
    ∃ left ∈ closing 0 ((placeholder.getD "").toList ++ ['}']), passes next left = true

instance (next : List Char) : DecidablePred (CleanBefore next)
  | .literal s => inferInstanceAs (Decidable (passes next s.toList = true))
  | .field _ placeholder =>
    inferInstanceAs (Decidable
      (∃ left ∈ closing 0 ((placeholder.getD "").toList ++ ['}']), passes next left = true))

/-- Whether the reader finds in all segments just the tab-stops that are meant. -/
def Clean : List Segment → Prop
  | [] => True
  | segment :: rest => segment.CleanBefore (snippet rest) ∧ Clean rest

instance decidableClean : DecidablePred Clean
  | [] => isTrue trivial
  | _ :: rest => @instDecidableAnd _ _ _ (decidableClean rest)

/-- A clean segment is read as the tab-stop it is, or passed over. -/
theorem tabStops_render_append {segment : Segment} {next : List Char}
    (h : segment.CleanBefore next) :
    tabStops ((segment.render FieldFormat.snippet).toList ++ next) =
      segment.index?.toList ++ tabStops next := by
  cases segment with
  | literal s => exact tabStops_append_of_passes h
  | field index placeholder =>
      obtain ⟨left, hclosing, hleft⟩ := h
      rw [render, toList_snippet]
      simp only [List.cons_append, List.append_assoc, List.nil_append]
      rw [tabStops_dollar (readStop?_field index hclosing next), tabStops_append_of_passes hleft]
      rfl

/-- The tab-stops of clean segments are their fields. -/
theorem tabStops_renderAll {segments : List Segment} (h : Clean segments) :
    tabStops (renderAll FieldFormat.snippet segments).toList = segments.filterMap index? := by
  induction segments with
  | nil => simp [renderAll, tabStops]
  | cons segment rest ih =>
      rw [← snippet, snippet_cons, tabStops_render_append h.1, snippet, ih h.2]
      cases segment with
      | literal s => rfl
      | field index placeholder => rfl

/-- A segment that is read as it is meant, whatever stands around it. -/
def Plain : Segment → Prop
  | .literal s => SnippetText.Plain s.toList
  | .field _ placeholder => Inert (placeholder.getD "").toList

theorem clean_of_plain {segments : List Segment} (h : ∀ segment ∈ segments, segment.Plain) :
    Clean segments := by
  induction segments with
  | nil => trivial
  | cons segment rest ih =>
      have hplain := h segment List.mem_cons_self
      refine ⟨?_, ih fun other hother => h other (List.mem_cons_of_mem _ hother)⟩
      cases segment with
      | literal s => exact passes_of_plain hplain _
      | field index placeholder =>
          refine ⟨[], ?_, by rw [passes]⟩
          rw [closing_append_of_inert hplain, closing_brace]
          rfl

end Segment

end Shorthand
