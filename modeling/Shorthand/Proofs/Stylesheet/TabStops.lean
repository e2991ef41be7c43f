import Mathlib.Data.List.Basic
import Shorthand.Proofs.Stylesheet.PlainText
import Shorthand.Proofs.Value.Printing

/-!
# TabStops — tab-stops of a stylesheet are numbered without gaps

A property asks for tab-stops: those of its template, or one in the place of its value
(`Property.asked`). The templates number theirs from one on, and the writer counts on where the
properties before have stopped. So the numbers of an output are one, two and so on, in the order of
the output, and the final tab-stop comes last unless a template has it (`tabStops_consecutive`).

The newline and the indentation of the output are put into a template before it is read. As long as
they have no dollar and no backslash, the tab-stops are those of the template as it is in the table
(`fieldIndices_layOut`): it is enough to look at the templates, one by one (`steady_templates`,
`steady_table`).
-/

namespace Shorthand

open Text SnippetText

/-! ## Texts between tab-stops -/

theorem plain_flatMap {replace : Char → List Char}
    (hreplace : ∀ c, isMark c = false → Plain (replace c)) {s : List Char} (hs : Plain s) :
    Plain (s.flatMap replace) := by
  rw [plain_iff]
  intro c hc
  obtain ⟨d, hd, hc⟩ := List.mem_flatMap.mp hc
  exact plain_iff.mp (hreplace d (plain_iff.mp hs d hd)) c hc

namespace Value

theorem fieldIndices_text (s : String) (v : Value) :
    fieldIndices (.text s :: v) = fieldIndices v := rfl

theorem fieldIndices_field (index : Nat) (placeholder : Option String) (v : Value) :
    fieldIndices (.field index placeholder :: v) = index :: fieldIndices v := rfl

theorem fieldIndices_consChar (c : Char) (v : Value) :
    fieldIndices (consChar c v) = fieldIndices v := by
  cases v with
  | nil => rfl
  | cons t v =>
      cases t with
      | text s => rfl
      | field index placeholder => rfl
      | number n => rfl

/-- A character that is no mark is a character of a text. -/
theorem read_cons_of_not_mark {c : Char} (hc : isMark c = false) (s : List Char) :
    read (c :: s) = consChar c (read s) := by
  have hdollar : c ≠ '$' := by rintro rfl; cases hc
  have hslash : c ≠ '\\' := by rintro rfl; cases hc
  rw [read]
  · intro _ _ h; exact absurd h hslash
  · intro _ h; exact absurd h hdollar
  · exact hdollar

/-- A text without marks adds no tab-stop to what follows it. -/
theorem fieldIndices_read_append {s : List Char} (hs : Plain s) (rest : List Char) :
    fieldIndices (read (s ++ rest)) = fieldIndices (read rest) := by
  induction s with
  | nil => rfl
  | cons c s ih =>
      obtain ⟨hc, hs⟩ := plain_cons.mp hs
      rw [List.cons_append, read_cons_of_not_mark hc, fieldIndices_consChar, ih hs]

end Value

/-! ## Templates that newlines and tabs leave as they are -/

/-- A token as templates write it: its text needs no backslashes. -/
def Token.verbatim : Token → List Char
  | .text s => s.toList
  | token => token.print

/-- A token that stays what it is when newlines and tabs are replaced. -/
def Token.Steady : Token → Prop
  | .text s => Plain s.toList
  | .field index placeholder =>
    (field index placeholder).Canonical ∧
      '\n' ∉ (field index placeholder).print ∧ '\t' ∉ (field index placeholder).print
  | .number _ => False

instance : DecidablePred Token.Steady
  | .text s => inferInstanceAs (Decidable (Plain s.toList))
  | .field index placeholder => inferInstanceAs (Decidable
      ((Token.field index placeholder).Canonical ∧
        '\n' ∉ (Token.field index placeholder).print ∧
        '\t' ∉ (Token.field index placeholder).print))
  | .number _ => isFalse id

/-- Replacing newlines and tabs in what steady tokens are written with changes no tab-stop. -/
theorem Token.fieldIndices_flatMap_verbatim {v : Value} (hv : ∀ t ∈ v, t.Steady)
    {replace : Char → List Char} (hplain : ∀ c, isMark c = false → Plain (replace c))
    (hkeep : ∀ c, c ≠ '\n' → c ≠ '\t' → replace c = [c]) :
    Value.fieldIndices (Value.read ((v.flatMap verbatim).flatMap replace)) =
      Value.fieldIndices v := by
  induction v with
  | nil => rw [List.flatMap_nil, List.flatMap_nil, Value.read]
  | cons t v ih =>
      obtain ⟨ht, hrest⟩ := List.forall_mem_cons.mp hv
      rw [List.flatMap_cons, List.flatMap_append]
      cases t with
      | text s =>
          have hs : Plain (s.toList.flatMap replace) := plain_flatMap hplain ht
          rw [verbatim, Value.fieldIndices_read_append hs, ih hrest, Value.fieldIndices_text]
      | field index placeholder =>
          obtain ⟨hcanonical, hnewline, htab⟩ := ht
          have hprint : (field index placeholder).print.flatMap replace =
              (field index placeholder).print := by
            rw [List.flatMap_congr fun c hc =>
              hkeep c (ne_of_mem_of_not_mem hc hnewline) (ne_of_mem_of_not_mem hc htab)]
            exact List.flatMap_singleton' _
          rw [verbatim, hprint, read_field_append hcanonical, Value.fieldIndices_field,
            Value.fieldIndices_field, ih hrest]
          intro s hs
          cases hs
      | number n => exact ht.elim

namespace Stylesheet

/-- A template whose tab-stops are its own, whatever the newlines and tabs are, and are numbered
from one on. -/
structure Steady (source : String) : Prop where
  verbatim : (Value.ofString source).flatMap Token.verbatim = source.toList
  tokens : ∀ t ∈ Value.ofString source, t.Steady
  consecutive : (Value.ofString source).fieldIndices.filter (· ≠ 0) =
    List.range' 1 ((Value.ofString source).fieldIndices.countP (· ≠ 0))

instance (source : String) : Decidable (Steady source) :=
  decidable_of_iff (_ ∧ _ ∧ _) ⟨fun h => ⟨h.1, h.2.1, h.2.2⟩, fun h => ⟨h.1, h.2, h.3⟩⟩

theorem steady_templates : ∀ entry ∈ templates, Steady entry.2 := by decide +kernel

theorem steady_table : ∀ d ∈ Definition.table, ∀ source ∈ d.template, Steady source := by
  decide +kernel

/-- The tab-stops that are offered for the value of a property, as its template numbers them. -/
def Definition.asked (definition : Option Definition) : List Nat :=
  match definition.bind (·.template) with
  | some source => (Value.ofString source).fieldIndices
  | none => [1]

/-- The tab-stops that a property asks for, in order and as its template numbers them: zero is the
final one. -/
def Property.asked : Property → List Nat
  | .template _ source => (Value.ofString source).fieldIndices
  | .declaration _ values _ definition => if values.isEmpty then Definition.asked definition else []

/-- A property whose templates are steady. -/
def Property.Steady : Property → Prop
  | .template _ source => Stylesheet.Steady source
  | .declaration _ _ _ definition =>
    ∀ d ∈ definition, ∀ source ∈ d.template, Stylesheet.Steady source

theorem steady_resolve {p : RawProperty} {source name : String}
    (h : p.resolve = .ok (.template name source)) : Steady source := by
  rw [RawProperty.resolve] at h
  split at h
  · next found hfound =>
    split at h
    · cases h
      exact steady_templates _ (mem_templates_of_template? hfound)
    · cases h
  · split at h <;> cases h

/-- The templates of whatever an abbreviation means are in the tables. -/
theorem steady_parse {limits : Limits} {abbreviation : String} {properties : List Property}
    (h : parse limits abbreviation = .ok properties) : ∀ p ∈ properties, p.Steady := by
  intro property hproperty
  have hplain := plain_parse h property hproperty
  obtain ⟨written, hwritten, hproperties⟩ := bind_eq_ok.mp h
  obtain ⟨p, _, hresolve⟩ := exists_resolve_eq_ok hproperties property hproperty
  cases property with
  | template name source => exact steady_resolve hresolve
  | declaration name values important definition =>
      intro d hd
      exact steady_table d (hplain.2.2 d hd)

namespace Css

/-! ## Tab-stops of a template -/

/-- Newlines and tabs of the output that are no part of a tab-stop. -/
structure PlainLayout (o : Options) : Prop where
  newline : Plain o.newline.toList
  indent : Plain o.indent.toList

variable {o : Options} {stops : Stops}

theorem layOut_eq (o : Options) (source : String) :
    layOut o source = source.toList.flatMap fun c =>
      (if c = '\n' then o.newline.toList else [c]).flatMap fun d =>
        if d = '\t' then o.indent.toList else [d] :=
  List.flatMap_assoc

/-- The newlines and tabs of the output leave the tab-stops of a template as they are. -/
theorem fieldIndices_layOut (ho : PlainLayout o) {source : String} (h : Steady source) :
    Value.fieldIndices (Value.read (layOut o source)) = (Value.ofString source).fieldIndices := by
  have hindent : ∀ c, isMark c = false → Plain (if c = '\t' then o.indent.toList else [c]) := by
    intro c hc
    split
    · exact ho.indent
    · exact plain_cons.mpr ⟨hc, rfl⟩
  rw [layOut_eq, ← h.verbatim]
  refine Token.fieldIndices_flatMap_verbatim h.tokens ?_ ?_
  · intro c hc
    have hnewline : Plain (if c = '\n' then o.newline.toList else [c]) := by
      split
      · exact ho.newline
      · exact plain_cons.mpr ⟨hc, rfl⟩
    exact plain_flatMap hindent hnewline
  · intro c hnewline htab
    simp [hnewline, htab]

theorem filterMap_index?_field (index : Nat) (placeholder : Option String)
    (segments : List Segment) :
    (.field index placeholder :: segments).filterMap Segment.index? =
      index :: segments.filterMap Segment.index? :=
  rfl

/-- The fields of a template are its tab-stops, counted from `base`. -/
theorem filterMap_index?_writeToken (base : Nat) (v : Value) :
    (v.map (writeToken base)).filterMap Segment.index? =
      v.fieldIndices.map fun index => if index = 0 then 0 else base + index := by
  induction v with
  | nil => rfl
  | cons t v ih =>
      rw [List.map_cons, List.filterMap_cons, ih]
      cases t with
      | text s => rfl
      | field index placeholder => rfl
      | number n => rfl

/-- Tab-stops that are numbered from one on go on from `base`. -/
theorem filter_map_base {indices : List Nat} {n : Nat}
    (h : indices.filter (· ≠ 0) = List.range' 1 n) (base : Nat) :
    (indices.map fun index => if index = 0 then 0 else base + index).filter (· ≠ 0) =
      List.range' (base + 1) n := by
  have hsame : ((fun index => decide (index ≠ 0)) ∘ fun index =>
      if index = 0 then 0 else base + index) = fun index => decide (index ≠ 0) := by
    funext index
    by_cases hzero : index = 0 <;> simp [hzero]
  have hshift : ∀ index ∈ List.range' 1 n,
      (if index = 0 then 0 else base + index) = base + index := by
    intro index hindex
    obtain ⟨hpos, _⟩ := List.mem_range'_1.mp hindex
    exact if_neg (by omega)
  rw [List.filter_map, hsame, h, List.map_congr_left hshift, List.map_add_range']

/-- The last number after segments that number on. -/
theorem last_foldl_after {segments : List Segment} {n : Nat}
    (h : (segments.filterMap Segment.index?).filter (· ≠ 0) = List.range' (stops.last + 1) n) :
    (segments.foldl Stops.after stops).last = stops.last + n := by
  induction segments generalizing stops n with
  | nil =>
      have hn : n = 0 := by simpa using h
      simp [hn]
  | cons segment segments ih =>
      rw [List.foldl_cons]
      cases segment with
      | literal s => exact ih h
      | field index placeholder =>
          rw [filterMap_index?_field] at h
          cases index with
          | zero =>
              have hlast : (stops.after (.field 0 placeholder)).last = stops.last :=
                Nat.max_eq_left (Nat.zero_le _)
              rw [ih (by rwa [hlast]), hlast]
          | succ index =>
              -- the numbers left are those behind the one of this segment
              rw [List.filter_cons_of_pos (by simp)] at h
              obtain ⟨k, rfl⟩ : ∃ k, n = k + 1 := Nat.exists_eq_succ_of_ne_zero (by
                rintro rfl
                cases h)
              rw [List.range'_succ, List.cons.injEq] at h
              have hlast :
                  (stops.after (.field (index + 1) placeholder)).last = stops.last + 1 := by
                simp only [Stops.after, h.1]
                omega
              rw [ih (by rw [hlast]; exact h.2), hlast]
              omega

theorem final_foldl_after (segments : List Segment) (stops : Stops) :
    (segments.foldl Stops.after stops).final = true ↔
      stops.final = true ∨ 0 ∈ segments.filterMap Segment.index? := by
  induction segments generalizing stops with
  | nil => simp
  | cons segment segments ih =>
      rw [List.foldl_cons, ih]
      cases segment with
      | literal s => exact Iff.rfl
      | field index placeholder =>
          rw [filterMap_index?_field, Stops.after, Bool.or_eq_true, decide_eq_true_iff, or_assoc,
            List.mem_cons, @eq_comm Nat 0 index]

/-! ## Tab-stops of an output -/

/-- What is written for the tab-stops `asked` after `stops`: they have the next numbers, and the
final one is placed if it is asked for. -/
structure Continues (stops : Stops) (asked : List Nat) (written : List Segment × Stops) : Prop where
  numbers : (written.1.filterMap Segment.index?).filter (· ≠ 0) =
    List.range' (stops.last + 1) (asked.countP (· ≠ 0))
  final : 0 ∈ written.1.filterMap Segment.index? ↔ 0 ∈ asked
  last : written.2.last = stops.last + asked.countP (· ≠ 0)
  placed : written.2.final = true ↔ stops.final = true ∨ 0 ∈ asked

namespace Continues

/-- A text has no tab-stops. -/
theorem literal (s : String) : Continues stops [] ([.literal s], stops) where
  numbers := rfl
  final := Iff.rfl
  last := rfl
  placed := by simp

theorem append {middle last : Stops} {asked asked' : List Nat} {first second : List Segment}
    (hfirst : Continues stops asked (first, middle))
    (hsecond : Continues middle asked' (second, last)) :
    Continues stops (asked ++ asked') (first ++ second, last) where
  numbers := by
    have hmiddle : middle.last + 1 = stops.last + 1 + asked.countP (· ≠ 0) := by
      rw [hfirst.last]
      omega
    rw [List.filterMap_append, List.filter_append, hfirst.numbers, hsecond.numbers, hmiddle,
      List.range'_append_1, List.countP_append]
  final := by
    rw [List.filterMap_append, List.mem_append, List.mem_append, hfirst.final, hsecond.final]
  last := by
    rw [hsecond.last, hfirst.last, List.countP_append, Nat.add_assoc]
  placed := by
    rw [hsecond.placed, hfirst.placed, or_assoc, List.mem_append]

end Continues

theorem continues_writeTemplate (ho : PlainLayout o) (stops : Stops) {source : String}
    (h : Steady source) :
    Continues stops (Value.ofString source).fieldIndices (writeTemplate o stops source) := by
  have hindices : (writeTemplate o stops source).1.filterMap Segment.index? =
      (Value.ofString source).fieldIndices.map fun index =>
        if index = 0 then 0 else stops.last + index := by
    rw [writeTemplate, filterMap_index?_writeToken, fieldIndices_layOut ho h]
  have hnumbers : ((writeTemplate o stops source).1.filterMap Segment.index?).filter (· ≠ 0) =
      List.range' (stops.last + 1) ((Value.ofString source).fieldIndices.countP (· ≠ 0)) := by
    rw [hindices, filter_map_base h.consecutive]
  have hfinal : 0 ∈ (writeTemplate o stops source).1.filterMap Segment.index? ↔
      0 ∈ (Value.ofString source).fieldIndices := by
    rw [hindices, List.mem_map]
    constructor
    · rintro ⟨index, hindex, hzero⟩
      obtain rfl : index = 0 := by grind
      exact hindex
    · intro hzero
      exact ⟨0, hzero, rfl⟩
  refine ⟨hnumbers, hfinal, last_foldl_after hnumbers, ?_⟩
  rw [← hfinal]
  exact final_foldl_after _ stops

theorem continues_writeOffer (ho : PlainLayout o) (stops : Stops) {definition : Option Definition}
    (h : ∀ d ∈ definition, ∀ source ∈ d.template, Steady source) :
    Continues stops (Definition.asked definition) (writeOffer o stops definition) := by
  cases htemplate : definition.bind (·.template) with
  | some source =>
      rw [writeOffer, Definition.asked, htemplate]
      obtain ⟨d, hd, hsource⟩ := Option.bind_eq_some_iff.mp htemplate
      exact continues_writeTemplate ho stops (h d hd source hsource)
  | none =>
      rw [writeOffer, Definition.asked, htemplate]
      exact { numbers := rfl, final := by simp [Segment.index?], last := rfl, placed := by simp }

theorem continues_writeProperty (ho : PlainLayout o) (stops : Stops) {p : Property}
    (h : p.Steady) : Continues stops p.asked (writeProperty o stops p) := by
  cases p with
  | template name source => exact continues_writeTemplate ho stops h
  | declaration name values important definition =>
      have hvalue : Continues stops (Property.declaration name values important definition).asked
          (if values.isEmpty then writeOffer o stops definition
            else ([.literal (String.intercalate " " (values.map CssValue.text))], stops)) := by
        rw [Property.asked]
        split
        · exact continues_writeOffer ho stops h
        · exact Continues.literal _
      have hline := ((Continues.literal (name ++ ": ")).append hvalue).append
        (Continues.literal (if important then " !important;" else ";"))
      rwa [List.nil_append, List.append_nil] at hline

/-- The lines of a list of properties have the tab-stops of all of them, one after the other. -/
theorem continues_writeProperties (ho : PlainLayout o) (stops : Stops) {properties : List Property}
    (h : ∀ p ∈ properties, p.Steady) :
    Continues stops (properties.flatMap Property.asked) (writeProperties o stops properties) := by
  fun_induction writeProperties o stops properties with
  | case1 stops => exact { numbers := rfl, final := Iff.rfl, last := rfl, placed := by simp }
  | case2 stops p =>
    rw [List.flatMap_singleton]
    exact continues_writeProperty ho stops (h p List.mem_cons_self)
  | case3 stops p rest _ first others ih =>
    obtain ⟨hp, hrest⟩ := List.forall_mem_cons.mp h
    have hfirst := (continues_writeProperty ho stops hp).append (Continues.literal o.newline)
    rw [List.append_nil] at hfirst
    have hlines := hfirst.append (ih hrest)
    rwa [List.append_assoc, List.singleton_append] at hlines

end Css

/-- **Tab-stops are numbered without gaps**: with newlines and indentation that have no dollar and
no backslash, the fields of a stylesheet have the numbers from one to as many as its properties ask
for, in order. There is a final one among them, and it is put at the end if and only if no template
has placed it. -/
theorem tabStops_consecutive {o : Options} {abbreviation : String} {properties : List Property}
    (h : parse o.limits abbreviation = .ok properties)
    (hdollar : '$' ∉ o.newline.toList ++ o.indent.toList)
    (hslash : '\\' ∉ o.newline.toList ++ o.indent.toList) :
    let asked := properties.flatMap Property.asked
    let indices := (Css.segments o properties).filterMap Segment.index?
    indices.filter (· ≠ 0) = List.range' 1 (asked.countP (· ≠ 0)) ∧
      0 ∈ indices ∧
      Css.segments o properties = (Css.writeProperties o {} properties).1 ++
        if 0 ∈ asked then [] else [.field 0 none] := by
  have ho : Css.PlainLayout o := by
    have hplain : Plain (o.newline.toList ++ o.indent.toList) := by
      rw [plain_iff]
      intro c hc
      have hmark : c ≠ '$' ∧ c ≠ '\\' :=
        ⟨ne_of_mem_of_not_mem hc hdollar, ne_of_mem_of_not_mem hc hslash⟩
      simp [isMark, hmark]
    exact ⟨(plain_append.mp hplain).1, (plain_append.mp hplain).2⟩
  have hwritten := Css.continues_writeProperties ho {} (steady_parse h)
  have hplaced : (Css.writeProperties o {} properties).2.final = true ↔
      0 ∈ properties.flatMap Property.asked := by simpa using hwritten.placed
  have hsegments : Css.segments o properties = (Css.writeProperties o {} properties).1 ++
      if 0 ∈ properties.flatMap Property.asked then [] else [.field 0 none] := by
    simp only [Css.segments, hplaced]
  refine ⟨?_, ?_, hsegments⟩
  · rw [hsegments, List.filterMap_append, List.filter_append, hwritten.numbers]
    split
    · exact List.append_nil _
    · exact List.append_nil _
  · rw [hsegments, List.filterMap_append, List.mem_append, hwritten.final]
    by_cases hasked : 0 ∈ properties.flatMap Property.asked
    · exact .inl hasked
    · rw [if_neg hasked]
      exact .inr List.mem_cons_self

/-- Newlines and indentation that look like parts of a tab-stop. -/
def bracedLayout : Options := { newline := "\x7b1\x7d", indent := ":" }

/-- A template of three tab-stops, one with the final tab-stop, and a value that is left open. -/
theorem tabStops_consecutive_media :
    ∃ properties, parse bracedLayout.limits "bd++@m+m10+p" = .ok properties ∧
      properties.flatMap Property.asked = [1, 2, 3, 1, 0, 1] ∧
      ((Css.segments bracedLayout properties).filterMap Segment.index?).filter (· ≠ 0) =
        [1, 2, 3, 4, 5] ∧
      0 ∈ (Css.segments bracedLayout properties).filterMap Segment.index? ∧
      Css.segments bracedLayout properties =
        (Css.writeProperties bracedLayout {} properties).1 := by
  have hparsed : (parse bracedLayout.limits "bd++@m+m10+p").map (·.flatMap Property.asked) =
      .ok [1, 2, 3, 1, 0, 1] := by decide +kernel
  cases h : parse bracedLayout.limits "bd++@m+m10+p" with
  | error e =>
      rw [h] at hparsed
      cases hparsed
  | ok properties =>
      rw [h] at hparsed
      have hasked : properties.flatMap Property.asked = [1, 2, 3, 1, 0, 1] :=
        Except.ok.inj hparsed
      have hstops := tabStops_consecutive h (by decide) (by decide)
      rw [hasked] at hstops
      refine ⟨properties, rfl, hasked, hstops.1, hstops.2.1, ?_⟩
      exact hstops.2.2.trans (List.append_nil _)

end Stylesheet

end Shorthand
