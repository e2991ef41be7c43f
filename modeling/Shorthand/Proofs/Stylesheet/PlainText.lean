import Shorthand.Proofs.Editor.SnippetText
import Shorthand.Stylesheet.Css

/-!
# PlainText — stylesheets have no dollars of their own

The names and values of a stylesheet abbreviation are letters, digits and a few signs, and so are
the known names and keywords. So the only dollars in the output are those of tab-stops, and it has
no backslash at all: whatever is expanded, its segments are plain (`plain_segments`).
-/

namespace Shorthand.Stylesheet

open Text SnippetText

/-! ## What is read -/

theorem isMark_eq_false {p : Char → Bool} (hdollar : p '$' = false) (hslash : p '\\' = false)
    {c : Char} (hc : p c = true) : isMark c = false := by
  rw [Bool.eq_false_iff]
  intro hmark
  simp only [isMark, Bool.or_eq_true, beq_iff_eq] at hmark
  rcases hmark with rfl | rfl
  · exact Bool.false_ne_true (hdollar.symm.trans hc)
  · exact Bool.false_ne_true (hslash.symm.trans hc)

/-- A run of characters of a class without marks. -/
theorem plain_ofClass {p : Char → Bool} (hdollar : p '$' = false) (hslash : p '\\' = false)
    (s : List Char) : Plain (Span.ofClass p s).read := by
  have hclass : (Span.ofClass p s).read.all p = true := List.all_takeWhile
  exact plain_iff.mpr fun c hc => isMark_eq_false hdollar hslash (List.all_eq_true.mp hclass c hc)

theorem plain_scanNameTail (started : Bool) (s : List Char) :
    Plain (scanNameTail started s).read := by
  fun_induction scanNameTail started s with
  | case1 => rfl
  | case2 => rfl
  | case3 => rfl
  | case4 started s _ ih => exact plain_cons.mpr ⟨rfl, ih⟩
  | case5 => rfl
  | case6 started c s _ _ halpha ih => exact plain_cons.mpr ⟨isMark_eq_false rfl rfl halpha, ih⟩
  | case7 => rfl

theorem plain_scanPropertyName (s : List Char) : Plain (scanPropertyName s).read := by
  fun_cases scanPropertyName s with
  | case1 s _ => exact plain_cons.mpr ⟨rfl, plain_scanNameTail true s⟩
  | case2 => rfl
  | case3 s _ => exact plain_scanNameTail false s

theorem plain_scanDigits (s : List Char) : Plain (scanDigits s).read := plain_ofClass rfl rfl s

theorem plain_scanNumeral (s : List Char) : Plain (scanNumeral s).read := by
  have hfraction : ∀ s, Plain (scanFraction s).read := by
    intro s
    fun_cases scanFraction s with
    | case1 d s _ => exact plain_cons.mpr ⟨rfl, plain_scanDigits _⟩
    | case2 => rfl
    | case3 => rfl
  have hunsigned : ∀ s, Plain (scanUnsigned s).read := fun s =>
    plain_append.mpr ⟨plain_scanDigits s, hfraction _⟩
  fun_cases scanNumeral s with
  | case1 s => exact plain_cons.mpr ⟨rfl, hunsigned s⟩
  | case2 s _ => exact hunsigned s

/-- A value that is written without marks. -/
def RawValue.Plain : RawValue → Prop
  | .number digits unit => SnippetText.Plain digits.toList ∧ ∀ u ∈ unit, SnippetText.Plain u.toList
  | .color hex => SnippetText.Plain hex.toList
  | .keyword name => SnippetText.Plain name.toList

theorem plain_readNumber (s : List Char) : (readNumber s).1.Plain := by
  simp only [readNumber, RawValue.Plain, String.toList_ofList]
  refine ⟨plain_scanNumeral s, ?_⟩
  split
  · simp
  · rintro u ⟨rfl⟩
    rw [String.toList_ofList]
    exact plain_ofClass rfl rfl _

theorem plain_readValue? {signed : Bool} {s rest : List Char} {v : RawValue}
    (h : readValue? signed s = some (v, rest)) : v.Plain := by
  fun_cases readValue? signed s with
  | case1 => cases h
  | case2 s ok =>
    simp only [readValue?, ok, if_true, Option.some.injEq] at h
    have plain := plain_readNumber ('-' :: s)
    rw [h] at plain
    exact plain
  | case3 s no =>
    simp only [readValue?, no] at h
    cases h
  | case4 s hex =>
    cases h
    rw [RawValue.Plain, String.toList_ofList]
    exact plain_ofClass rfl rfl s
  | case5 c s _ _ number =>
    simp only [readValue?, number, if_true, Option.some.injEq] at h
    have plain := plain_readNumber (c :: s)
    rw [h] at plain
    exact plain
  | case6 c s _ _ notNumber alpha =>
    simp only [readValue?, notNumber, alpha, if_true, Bool.false_eq_true, if_false] at h
    cases h
    rw [RawValue.Plain, String.toList_ofList]
    exact plain_ofClass rfl rfl _
  | case7 c s _ _ notNumber notAlpha =>
    simp only [readValue?, notNumber, notAlpha, Bool.false_eq_true, if_false] at h
    cases h

theorem plain_readValues {empty signed : Bool} {s rest : List Char} {values : List RawValue}
    (h : readValues empty signed s = .ok (values, rest)) : ∀ v ∈ values, v.Plain := by
  fun_induction readValues empty signed s generalizing values rest with
  | case1 empty signed s value tail found ih =>
    obtain ⟨⟨others, left⟩, hothers, h⟩ := bind_eq_ok.mp h
    cases h
    exact List.forall_mem_cons.mpr ⟨plain_readValue? found, ih hothers⟩
  | case2 => cases h
  | case3 _ _ s _ dash _ ih => exact ih h
  | case4 =>
    cases h
    exact List.forall_mem_nil _

/-- A property that is written without marks. -/
def RawProperty.Plain (p : RawProperty) : Prop :=
  SnippetText.Plain p.name.toList ∧ ∀ v ∈ p.values, v.Plain

theorem plain_readProperty {s rest : List Char} {p : RawProperty}
    (h : readProperty s = .ok (p, rest)) : p.Plain := by
  simp only [readProperty] at h
  split at h
  · split at h
    · cases h
    · split at h <;> cases h
  · split at h
    · cases h
    · next values tail hvalues =>
      cases h
      refine ⟨?_, plain_readValues hvalues⟩
      rw [String.toList_ofList]
      exact plain_scanPropertyName s

theorem plain_readProperties {s : List Char} {properties : List RawProperty}
    (h : readProperties s = .ok properties) : ∀ p ∈ properties, p.Plain := by
  fun_induction readProperties s generalizing properties with
  | case1 => cases h
  | case2 s property found =>
    cases h
    exact List.forall_mem_singleton.mpr (plain_readProperty found)
  | case3 s property rest found ih =>
    obtain ⟨others, hothers, h⟩ := bind_eq_ok.mp h
    cases h
    exact List.forall_mem_cons.mpr ⟨plain_readProperty found, ih hothers⟩
  | case4 => cases h

/-- Whatever can be read is written without marks. -/
theorem plain_read {limits : Limits} {abbreviation : String} {properties : List RawProperty}
    (h : read limits abbreviation = .ok properties) : ∀ p ∈ properties, p.Plain := by
  rw [read, readChars] at h
  split at h
  · cases hread : readProperties abbreviation.toList with
    | error f =>
        rw [hread] at h
        cases h
    | ok read =>
        rw [hread] at h
        cases h
        exact plain_readProperties hread
  · cases h

/-! ## What it is resolved to -/

theorem isMark_toLower {c : Char} (h : isMark c = false) : isMark c.toLower = false := by
  delta Char.toLower
  split
  · -- the code point of a capital letter moves to that of the small one, above both marks
    rw [Bool.eq_false_iff]
    intro hmark
    simp only [isMark, Bool.or_eq_true, beq_iff_eq, Char.ext_iff] at hmark
    grind
  · exact h

theorem plain_lower {s : String} (h : Plain s.toList) : Plain (lower s).toList := by
  rw [lower, String.toList_ofList, plain_iff]
  intro c hc
  obtain ⟨d, hd, rfl⟩ := List.mem_map.mp hc
  exact isMark_toLower (plain_iff.mp h d hd)

theorem plain_resolveColor {hex : String} (h : Plain hex.toList) :
    Plain (resolveColor hex).toList := by
  have hlower := plain_lower h
  have hhash : isMark '#' = false := rfl
  rw [resolveColor]
  split
  · decide
  · simp_all
  · split <;> simp_all
  · split <;> simp_all
  · simpa [hhash] using hlower

theorem plain_resolveUnit {unit : String} (h : Plain unit.toList) :
    Plain (resolveUnit unit).toList := by
  unfold resolveUnit
  split
  · decide
  · decide
  · decide
  · decide
  · exact h

theorem plain_resolveNumber (unitless : Bool) {digits : String} {unit : Option String}
    (hdigits : Plain digits.toList) (hunit : ∀ u ∈ unit, Plain u.toList) :
    Plain (resolveNumber unitless digits unit).toList := by
  cases unit with
  | some unit =>
      rw [resolveNumber, String.toList_append, plain_append]
      exact ⟨hdigits, plain_resolveUnit (hunit unit rfl)⟩
  | none =>
      rw [resolveNumber]
      split
      · exact hdigits
      split
      · rw [String.toList_append, plain_append]
        exact ⟨hdigits, by decide⟩
      split
      · decide
      · rw [String.toList_append, plain_append]
        exact ⟨hdigits, by decide⟩

/-- A token of a template that comes out plain. -/
def PlainToken : Token → Prop
  | .text s => Plain s.toList
  | .field _ placeholder => Inert (placeholder.getD "").toList
  | .number _ => False

instance : DecidablePred PlainToken
  | .text s => inferInstanceAs (Decidable (Plain s.toList))
  | .field _ placeholder => inferInstanceAs (Decidable (Inert (placeholder.getD "").toList))
  | .number _ => isFalse id

/-- A template that comes out plain with the usual newlines and tabs. -/
def PlainTemplate (source : String) : Prop := ∀ t ∈ Value.read (Css.layOut {} source), PlainToken t

instance (source : String) : Decidable (PlainTemplate source) :=
  inferInstanceAs (Decidable (∀ t ∈ _, _))

/-- What is known about a property is plain. -/
structure Definition.Plain (d : Definition) : Prop where
  name : SnippetText.Plain d.name.toList
  keywords : ∀ k ∈ d.keywords, Inert k.toList
  template : ∀ source ∈ d.template, PlainTemplate source

instance (d : Definition) : Decidable d.Plain :=
  decidable_of_iff (_ ∧ _ ∧ _) ⟨fun h => ⟨h.1, h.2.1, h.2.2⟩, fun h => ⟨h.1, h.2, h.3⟩⟩

theorem plain_table : ∀ d ∈ Definition.table, d.Plain := by decide +kernel

theorem plain_templates : ∀ entry ∈ templates, PlainTemplate entry.2 := by decide +kernel

theorem plain_globalKeywords : ∀ k ∈ Definition.globalKeywords, Plain k.toList := by decide

theorem mem_of_findKeyword? {keywords : List String} {written k : String}
    (h : findKeyword? keywords written = some k) : k ∈ keywords := by
  rw [findKeyword?] at h
  split at h
  · cases h
  · simp only [Option.or_eq_some_iff] at h
    rcases h with h | ⟨_, h | ⟨_, h⟩⟩
    · exact List.mem_of_find?_eq_some h
    · exact List.mem_of_find?_eq_some h
    · exact List.mem_of_find?_eq_some h

theorem plain_keyword? {d : Definition} (hd : d ∈ Definition.table) {written k : String}
    (h : d.keyword? written = some k) : Plain k.toList := by
  rw [Definition.keyword?, Option.or_eq_some_iff] at h
  rcases h with h | ⟨_, h⟩
  · exact ((plain_table d hd).keywords k (mem_of_findKeyword? h)).plain
  · exact plain_globalKeywords k (mem_of_findKeyword? h)

theorem plain_resolveKeyword {definition : Option Definition}
    (hdefinition : ∀ d ∈ definition, d ∈ Definition.table) {written : String}
    (h : Plain written.toList) : Plain (resolveKeyword definition written).toList := by
  cases hfound : (definition.bind (·.keyword? written)).or
      (findKeyword? Definition.globalKeywords written) with
  | none => rwa [resolveKeyword, hfound]
  | some k =>
      rw [resolveKeyword, hfound, Option.getD_some]
      rw [Option.or_eq_some_iff] at hfound
      rcases hfound with hown | ⟨_, hglobal⟩
      · obtain ⟨d, hd, hkeyword⟩ := Option.bind_eq_some_iff.mp hown
        exact plain_keyword? (hdefinition d hd) hkeyword
      · exact plain_globalKeywords k (mem_of_findKeyword? hglobal)

/-- A resolved name without marks, of a property in the table if it is known. -/
structure ResolvedName.Plain (r : ResolvedName) : Prop where
  name : SnippetText.Plain r.name.toList
  definition : ∀ d ∈ r.definition, d ∈ Definition.table
  keyword : ∀ k ∈ r.keyword, SnippetText.Plain k.toList

theorem plain_split? {written : String} {n : Nat} {r : ResolvedName}
    (h : ResolvedName.split? written n = some r) : r.Plain := by
  obtain ⟨d, habbreviation, h⟩ := Option.bind_eq_some_iff.mp h
  obtain ⟨k, hkeyword, h⟩ := Option.bind_eq_some_iff.mp h
  have hd : d ∈ Definition.table := List.mem_of_find?_eq_some habbreviation
  cases h
  exact ⟨(plain_table d hd).name, by simpa using hd, by simpa using plain_keyword? hd hkeyword⟩

theorem plain_ofWritten {written : String} (h : Plain written.toList) :
    (ResolvedName.ofWritten written).Plain := by
  rw [ResolvedName.ofWritten]
  split
  · next d hknown =>
    have hd : d ∈ Definition.table := by
      rcases Option.or_eq_some_iff.mp hknown with h | ⟨_, h⟩
      · exact List.mem_of_find?_eq_some h
      · exact List.mem_of_find?_eq_some h
    exact ⟨(plain_table d hd).name, by simpa using hd, by simp⟩
  · dsimp only
    -- an abbreviation with a keyword behind it, or else the name as it is written
    cases hsplit : (List.range' 1 (written.length - 1)).reverse.findSome?
        (ResolvedName.split? written) with
    | none => exact ⟨h, by simp, by simp⟩
    | some r =>
        obtain ⟨n, _, hn⟩ := List.exists_of_findSome?_eq_some hsplit
        exact plain_split? hn

/-- A property that comes out plain. -/
def Property.Plain : Property → Prop
  | .template _ source => PlainTemplate source
  | .declaration name values _ definition =>
    SnippetText.Plain name.toList ∧ (∀ v ∈ values, SnippetText.Plain v.text.toList) ∧
      ∀ d ∈ definition, d ∈ Definition.table

theorem plain_resolveValue {definition : Option Definition}
    (hdefinition : ∀ d ∈ definition, d ∈ Definition.table) {v : RawValue} (h : v.Plain) :
    Plain (v.resolve definition).text.toList := by
  cases v with
  | number digits unit => exact plain_resolveNumber _ h.1 h.2
  | color hex => exact plain_resolveColor h
  | keyword written => exact plain_resolveKeyword hdefinition h

theorem plain_trimPlus {name : String} (h : Plain name.toList) : Plain (trimPlus name).toList := by
  rw [trimPlus, String.toList_ofList, plain_iff]
  intro c hc
  rw [List.mem_reverse] at hc
  exact plain_iff.mp h c (List.mem_reverse.mp ((List.dropWhile_sublist _).subset hc))

theorem mem_templates_of_template? {name source : String} (h : template? name = some source) :
    (name, source) ∈ templates := by
  obtain ⟨before, after, htable, _⟩ := List.lookup_eq_some_iff.mp h
  simp [htable]

theorem plain_resolve {p : RawProperty} (h : p.Plain) {property : Property}
    (hresolve : p.resolve = .ok property) : property.Plain := by
  rw [RawProperty.resolve] at hresolve
  split at hresolve
  · next source hsource =>
    split at hresolve
    · cases hresolve
      exact plain_templates _ (mem_templates_of_template? hsource)
    · cases hresolve
  · split at hresolve
    · cases hresolve
    · have hname : (ResolvedName.ofWritten (trimPlus p.name)).Plain :=
        plain_ofWritten (plain_trimPlus h.1)
      cases hresolve
      refine ⟨hname.name, ?_, hname.definition⟩
      -- the keyword that the name ends in comes first, then the values that are written
      intro v hv
      rcases List.mem_append.mp hv with hv | hv
      · obtain ⟨k, hk, rfl⟩ := List.mem_map.mp hv
        exact hname.keyword k (Option.mem_toList.mp hk)
      · obtain ⟨raw, hraw, rfl⟩ := List.mem_map.mp hv
        exact plain_resolveValue hname.definition (h.2 raw hraw)

/-- Each property of a list is the meaning of one that is written. -/
theorem exists_resolve_eq_ok {written : List RawProperty} {properties : List Property}
    (h : written.mapM RawProperty.resolve = .ok properties) :
    ∀ property ∈ properties, ∃ p ∈ written, p.resolve = .ok property := by
  induction written generalizing properties with
  | nil =>
      cases h
      exact List.forall_mem_nil _
  | cons p written ih =>
      rw [List.mapM_cons] at h
      obtain ⟨first, hfirst, h⟩ := bind_eq_ok.mp h
      obtain ⟨others, hothers, h⟩ := bind_eq_ok.mp h
      cases h
      rw [List.forall_mem_cons]
      refine ⟨⟨p, List.mem_cons_self, hfirst⟩, ?_⟩
      intro property hproperty
      obtain ⟨q, hq, hresolve⟩ := ih hothers property hproperty
      exact ⟨q, List.mem_cons_of_mem p hq, hresolve⟩

/-- Whatever an abbreviation means comes out plain. -/
theorem plain_parse {limits : Limits} {abbreviation : String} {properties : List Property}
    (h : parse limits abbreviation = .ok properties) : ∀ p ∈ properties, p.Plain := by
  obtain ⟨written, hwritten, hproperties⟩ := bind_eq_ok.mp h
  intro property hproperty
  obtain ⟨p, hp, hresolve⟩ := exists_resolve_eq_ok hproperties property hproperty
  exact plain_resolve (plain_read hwritten p hp) hresolve

/-! ## What is written -/

namespace Css

variable {field : FieldFormat}

theorem plain_writeTemplate {stops : Stops} {source : String} (h : PlainTemplate source) :
    ∀ segment ∈ (writeTemplate { field } stops source).1, segment.Plain := by
  intro segment hsegment
  obtain ⟨t, ht, rfl⟩ := List.mem_map.mp hsegment
  have hplain := h t ht
  cases t with
  | text s => exact hplain
  | field index placeholder => exact hplain
  | number n => exact hplain.elim

theorem plain_writeOffer {stops : Stops} {definition : Option Definition}
    (h : ∀ d ∈ definition, d ∈ Definition.table) :
    ∀ segment ∈ (writeOffer { field } stops definition).1, segment.Plain := by
  rw [writeOffer]
  split
  · next source hsource =>
    obtain ⟨d, hd, htemplate⟩ := Option.bind_eq_some_iff.mp hsource
    exact plain_writeTemplate ((plain_table d (h d hd)).template source htemplate)
  · refine List.forall_mem_singleton.mpr ?_
    rw [Segment.Plain]
    cases hkeyword : definition.bind (·.keywords.head?) with
    | none => rfl
    | some k =>
        obtain ⟨d, hd, hhead⟩ := Option.bind_eq_some_iff.mp hkeyword
        exact (plain_table d (h d hd)).keywords k (List.mem_of_head? hhead)

theorem plain_intercalate {texts : List String} (h : ∀ text ∈ texts, Plain text.toList) :
    Plain (String.intercalate " " texts).toList := by
  rw [String.toList_intercalate]
  induction texts with
  | nil => rfl
  | cons text texts ih =>
      rw [List.forall_mem_cons] at h
      cases texts with
      | nil => simpa using h.1
      | cons next texts =>
          rw [List.map_cons, List.map_cons, List.intercalate_cons_cons, plain_append, plain_append]
          exact ⟨⟨h.1, by decide⟩, ih h.2⟩

theorem plain_writeProperty (stops : Stops) {p : Property} (h : p.Plain) :
    ∀ segment ∈ (writeProperty { field } stops p).1, segment.Plain := by
  cases p with
  | template name source => exact plain_writeTemplate h
  | declaration name values important definition =>
      obtain ⟨hname, hvalues, hdefinition⟩ := h
      have hvalue : ∀ segment ∈ (if values.isEmpty then writeOffer { field } stops definition
          else ([.literal (String.intercalate " " (values.map CssValue.text))], stops)).1,
          segment.Plain := by
        split
        · exact plain_writeOffer hdefinition
        · refine List.forall_mem_singleton.mpr (plain_intercalate ?_)
          simpa using hvalues
      simp only [writeProperty, List.cons_append, List.forall_mem_cons, List.forall_mem_append]
      refine ⟨?_, hvalue, ?_, List.forall_mem_nil _⟩
      · rw [Segment.Plain, String.toList_append, plain_append]
        exact ⟨hname, by decide⟩
      · cases important <;> rfl

theorem plain_writeProperties (stops : Stops) {properties : List Property}
    (h : ∀ p ∈ properties, p.Plain) :
    ∀ segment ∈ (writeProperties { field } stops properties).1, segment.Plain := by
  fun_induction writeProperties { field } stops properties with
  | case1 => exact List.forall_mem_nil _
  | case2 stops p => exact plain_writeProperty stops (h p List.mem_cons_self)
  | case3 stops p rest _ first others ih =>
    rw [List.forall_mem_cons] at h
    rw [List.forall_mem_append, List.forall_mem_cons]
    have hnewline : Plain "\n".toList := by decide
    exact ⟨plain_writeProperty stops h.1, hnewline, ih h.2⟩

/-- Whatever is expanded, its segments are plain. -/
theorem plain_segments {limits : Limits} {abbreviation : String} {properties : List Property}
    (h : parse limits abbreviation = .ok properties) :
    ∀ segment ∈ segments { field } properties, segment.Plain := by
  rw [segments, List.forall_mem_append]
  refine ⟨plain_writeProperties {} (plain_parse h), ?_⟩
  split
  · exact List.forall_mem_nil _
  · exact List.forall_mem_singleton.mpr rfl

end Css

end Shorthand.Stylesheet
