import Shorthand.Stylesheet.Reader

/-!
# Canonical — the properties that can be read

The grammar of names and values, stated apart from the scanners: a name is letters with dashes in
front of some of them, a numeral is digits with an optional fraction and sign, and so on. Whatever
the reader returns is written in this grammar (`canonical_readProperties`).

A name that ends in `+` stands alone. The reader takes the `+` into the name only where the property
ends, so there is no place left for values.
-/

namespace Shorthand.Stylesheet

open Text

/-! ## The grammar -/

/-- One or more characters of a class. -/
def IsRun (p : Char → Bool) (s : List Char) : Prop := s ≠ [] ∧ s.all p = true

theorem IsRun.exists_cons {p : Char → Bool} {s : List Char} (h : IsRun p s) :
    ∃ c t, s = c :: t ∧ p c = true := by
  obtain ⟨hne, hall⟩ := h
  obtain ⟨c, t, rfl⟩ := List.exists_cons_of_ne_nil hne
  exact ⟨c, t, rfl, List.all_eq_true.mp hall c List.mem_cons_self⟩

/-- Letters, each with an optional dash before it. -/
inductive Hyphenated : List Char → Prop where
  | nil : Hyphenated []
  | letter {c : Char} {s : List Char} (hc : c.isAlpha = true) (hs : Hyphenated s) :
      Hyphenated (c :: s)
  | dashed {c : Char} {s : List Char} (hc : c.isAlpha = true) (hs : Hyphenated s) :
      Hyphenated ('-' :: c :: s)

/-- A property name: letters with dashes, and maybe `@` before a first letter and `+` at the end. -/
def IsName (name : List Char) : Prop :=
  ∃ sign body plus, name = sign ++ (body ++ plus) ∧ Hyphenated body ∧ body ≠ [] ∧
    (sign = [] ∨ sign = ['@'] ∧ startsLetter body = true) ∧ (plus = [] ∨ plus = ['+'])

/-- A number without sign: digits, digits with a fraction, or a fraction alone. -/
inductive IsUnsigned : List Char → Prop where
  | whole {ds : List Char} (hd : IsRun Char.isDigit ds) : IsUnsigned ds
  | mixed {ds fs : List Char} (hd : IsRun Char.isDigit ds) (hf : IsRun Char.isDigit fs) :
      IsUnsigned (ds ++ '.' :: fs)
  | fraction {fs : List Char} (hf : IsRun Char.isDigit fs) : IsUnsigned ('.' :: fs)

/-- A number with an optional minus. -/
inductive IsNumeral : List Char → Prop where
  | unsigned {s : List Char} (h : IsUnsigned s) : IsNumeral s
  | negative {s : List Char} (h : IsUnsigned s) : IsNumeral ('-' :: s)

def isUnitChar (c : Char) : Bool := c.isAlpha || c == '%'

/-- A value in the form it can be read in. -/
def RawValue.Canonical : RawValue → Prop
  | .number digits unit => IsNumeral digits.toList ∧ ∀ u ∈ unit, IsRun isUnitChar u.toList
  | .color hex => hex.toList.all isHexDigit = true
  | .keyword name => IsRun Char.isAlpha name.toList

/-- Whether a property has the name of a snippet, with a `+` at its end. -/
def RawProperty.isSnippet (p : RawProperty) : Bool := p.name.toList.getLast? == some '+'

/-- A property in the form it can be read in. -/
structure RawProperty.Canonical (p : RawProperty) : Prop where
  name : IsName p.name.toList
  values : ∀ v ∈ p.values, v.Canonical
  bare : p.isSnippet = true → p.values = [] ∧ p.important = false

/-! ## Names -/

theorem Hyphenated.dash {s : List Char} (h : Hyphenated s) (hletter : startsLetter s = true) :
    Hyphenated ('-' :: s) := by
  cases h with
  | nil => cases hletter
  | letter hc hs => exact .dashed hc hs
  | dashed hc hs => cases hletter

theorem plus_not_mem {s : List Char} (h : Hyphenated s) : '+' ∉ s := by
  have hletter : ∀ c : Char, c.isAlpha = true → '+' ≠ c := by
    rintro c hc rfl
    cases hc
  induction h with
  | nil => exact List.not_mem_nil
  | letter hc hs ih =>
      rw [List.mem_cons, not_or]
      exact ⟨hletter _ hc, ih⟩
  | dashed hc hs ih =>
      rw [List.mem_cons, List.mem_cons, not_or, not_or]
      exact ⟨by decide, hletter _ hc, ih⟩

/-- Only the `+` behind the letters of a name can be a `+` at its end. -/
theorem eq_plus_of_getLast? (sign : List Char) {body plus : List Char} (hbody : Hyphenated body)
    (hne : body ≠ []) (hplus : plus = [] ∨ plus = ['+'])
    (hlast : (sign ++ (body ++ plus)).getLast? = some '+') : plus = ['+'] := by
  rcases hplus with rfl | rfl
  · rw [List.append_nil, List.getLast?_append, List.getLast?_eq_some_getLast hne,
      Option.some_or, Option.some.injEq] at hlast
    exact absurd (hlast ▸ List.getLast_mem hne) (plus_not_mem hbody)
  · rfl

theorem startsLetter_of_append {body plus : List Char} (hplus : plus = [] ∨ plus = ['+'])
    (h : startsLetter (body ++ plus) = true) : body ≠ [] ∧ startsLetter body = true := by
  cases body with
  | nil => rcases hplus with rfl | rfl <;> cases h
  | cons c body => exact ⟨List.cons_ne_nil _ _, h⟩

theorem startsLetter_scanNameTail (started : Bool) {s : List Char} (h : startsLetter s = true) :
    startsLetter (scanNameTail started s).read = true := by
  fun_cases scanNameTail started s with
  | case1 => cases h
  | case2 => cases h
  | case3 => cases h
  | case4 => cases h
  | case5 => cases h
  | case6 c s _ _ hc => exact hc
  | case7 c s _ _ hc => exact absurd h hc

/-- What the rest of a name is: letters with dashes, and a `+` only behind a name and in front of
nothing else than another `+`. -/
theorem read_scanNameTail (started : Bool) (s : List Char) :
    ∃ body plus, (scanNameTail started s).read = body ++ plus ∧ Hyphenated body ∧
      (plus = [] ∨ plus = ['+']) ∧
      (plus = ['+'] → (started = true ∨ body ≠ []) ∧
        ∀ c ∈ (scanNameTail started s).rest.head?, c = '+') := by
  fun_induction scanNameTail started s with
  | case1 => exact ⟨[], [], rfl, .nil, .inl rfl, by simp⟩
  | case2 started s ok =>
      rw [Bool.and_eq_true, Bool.or_eq_true, List.isEmpty_iff, beq_iff_eq] at ok
      refine ⟨[], ['+'], rfl, .nil, .inr rfl, fun _ => ⟨.inl ok.1, fun c hc => ?_⟩⟩
      rcases ok.2 with rfl | hplus
      · cases hc
      · rw [hplus] at hc
        exact (Option.some.inj hc).symm
  | case3 => exact ⟨[], [], rfl, .nil, .inl rfl, by simp⟩
  | case4 started s letter ih =>
      obtain ⟨body, plus, hread, hbody, hplus, hnext⟩ := ih
      -- the scan of `s` reads its first letter, so the dash stands before a letter of `body`
      have hfirst := startsLetter_scanNameTail true letter
      rw [hread] at hfirst
      exact ⟨'-' :: body, plus, by rw [Span.read_cons, hread, List.cons_append],
        hbody.dash (startsLetter_of_append hplus hfirst).2, hplus,
        fun h => ⟨.inr (List.cons_ne_nil _ _), (hnext h).2⟩⟩
  | case5 => exact ⟨[], [], rfl, .nil, .inl rfl, by simp⟩
  | case6 started c s _ _ alpha ih =>
      obtain ⟨body, plus, hread, hbody, hplus, hnext⟩ := ih
      exact ⟨c :: body, plus, by rw [Span.read_cons, hread, List.cons_append],
        .letter alpha hbody, hplus, fun h => ⟨.inr (List.cons_ne_nil _ _), (hnext h).2⟩⟩
  | case7 => exact ⟨[], [], rfl, .nil, .inl rfl, by simp⟩

theorem scanPropertyName_of_head {s : List Char} (h : s.head? ≠ some '@') :
    scanPropertyName s = scanNameTail false s := by
  rw [scanPropertyName]
  rintro s rfl
  exact h rfl

theorem scanPropertyName_sign {s : List Char} (h : startsLetter s = true) :
    scanPropertyName ('@' :: s) = (scanNameTail true s).cons '@' := by
  rw [scanPropertyName, if_pos h]

/-- What is read as a name is a name, and nothing but a `+` can follow a `+` at its end. -/
theorem isName_scanPropertyName {s : List Char} (h : (scanPropertyName s).read ≠ []) :
    IsName (scanPropertyName s).read ∧
      ((scanPropertyName s).read.getLast? = some '+' →
        ∀ c ∈ (scanPropertyName s).rest.head?, c = '+') := by
  by_cases hsign : s.head? = some '@'
  · obtain ⟨s, rfl⟩ : ∃ t, s = '@' :: t := List.head?_eq_some_iff.mp hsign
    have letter : startsLetter s = true := by
      rw [scanPropertyName] at h
      split at h
      · assumption
      · exact absurd rfl h
    obtain ⟨body, plus, hread, hbody, hplus, hnext⟩ := read_scanNameTail true s
    have hfirst := startsLetter_scanNameTail true letter
    rw [hread] at hfirst
    obtain ⟨hne, hletter⟩ := startsLetter_of_append hplus hfirst
    rw [scanPropertyName_sign letter, Span.read_cons, Span.rest_cons, hread]
    exact ⟨⟨['@'], body, plus, rfl, hbody, hne, .inr ⟨rfl, hletter⟩, hplus⟩,
      fun hlast => (hnext (eq_plus_of_getLast? ['@'] hbody hne hplus hlast)).2⟩
  · rw [scanPropertyName_of_head hsign] at h ⊢
    obtain ⟨body, plus, hread, hbody, hplus, hnext⟩ := read_scanNameTail false s
    have hne : body ≠ [] := by
      rintro rfl
      rcases hplus with rfl | rfl
      · exact h hread
      · rcases (hnext rfl).1 with hstarted | hbody
        · cases hstarted
        · exact hbody rfl
    rw [hread]
    exact ⟨⟨[], body, plus, rfl, hbody, hne, .inl rfl, hplus⟩,
      fun hlast => (hnext (eq_plus_of_getLast? [] hbody hne hplus hlast)).2⟩

/-! ## Values -/

theorem all_ofClass (p : Char → Bool) (s : List Char) : (Span.ofClass p s).read.all p = true :=
  List.all_takeWhile

theorem isRun_ofClass {p : Char → Bool} {c : Char} (hc : p c = true) (s : List Char) :
    IsRun p (Span.ofClass p (c :: s)).read :=
  ⟨by simp [Span.ofClass, hc], all_ofClass p _⟩

/-- What is read as a fraction: nothing, or a point and digits. -/
theorem read_scanFraction (s : List Char) :
    (scanFraction s).read = [] ∨
      ∃ fs, (scanFraction s).read = '.' :: fs ∧ IsRun Char.isDigit fs := by
  fun_cases scanFraction s with
  | case1 d s hd => exact .inr ⟨_, rfl, isRun_ofClass hd s⟩
  | case2 => exact .inl rfl
  | case3 => exact .inl rfl

theorem startsNumber_cases {s : List Char} (h : startsNumber s = true) :
    (∃ d t, s = d :: t ∧ d.isDigit = true) ∨ ∃ d t, s = '.' :: d :: t ∧ d.isDigit = true := by
  unfold startsNumber at h
  split at h
  · next d t => exact .inr ⟨d, t, rfl, h⟩
  · next c t _ => exact .inl ⟨c, t, rfl, h⟩
  · cases h

theorem isUnsigned_scanUnsigned {s : List Char} (h : startsNumber s = true) :
    IsUnsigned (scanUnsigned s).read := by
  rcases startsNumber_cases h with ⟨d, t, rfl, hd⟩ | ⟨d, t, rfl, hd⟩
  · have hwhole : IsRun Char.isDigit (scanDigits (d :: t)).read := isRun_ofClass hd t
    rcases read_scanFraction (scanDigits (d :: t)).rest with hnone | ⟨fs, hfs, hrun⟩
    · rw [scanUnsigned, hnone, List.append_nil]
      exact .whole hwhole
    · rw [scanUnsigned, hfs]
      exact .mixed hwhole hrun
  · have hwhole : scanDigits ('.' :: d :: t) = ⟨[], '.' :: d :: t⟩ := by
      simp [scanDigits, Span.ofClass]
    have hfraction : (scanFraction ('.' :: d :: t)).read = '.' :: (scanDigits (d :: t)).read := by
      simp [scanFraction, hd]
    simp only [scanUnsigned, hwhole, hfraction, List.nil_append]
    exact .fraction (isRun_ofClass hd t)

theorem canonical_readNumber {s : List Char} (h : IsNumeral (scanNumeral s).read) :
    (readNumber s).1.Canonical := by
  simp only [readNumber, RawValue.Canonical, String.toList_ofList]
  refine ⟨h, ?_⟩
  split
  · simp
  · next hunit =>
    rintro u ⟨rfl⟩
    rw [String.toList_ofList]
    exact ⟨by simpa using hunit, all_ofClass isUnitChar _⟩

theorem scanNumeral_of_head {s : List Char} (h : s.head? ≠ some '-') :
    scanNumeral s = scanUnsigned s := by
  fun_cases scanNumeral s with
  | case1 s => exact absurd rfl h
  | case2 s _ => rfl

theorem head?_ne_dash_of_startsNumber {s : List Char} (h : startsNumber s = true) :
    s.head? ≠ some '-' := by
  rcases startsNumber_cases h with ⟨d, t, rfl, hd⟩ | ⟨d, t, rfl, hd⟩
  · rintro ⟨⟩
    cases hd
  · rintro ⟨⟩

/-- Every value that is read is canonical. -/
theorem canonical_readValue? {signed : Bool} {s rest : List Char} {v : RawValue}
    (h : readValue? signed s = some (v, rest)) : v.Canonical := by
  fun_cases readValue? signed s with
  | case1 => cases h
  | case2 s ok =>
    simp only [readValue?, ok, if_true, Option.some.injEq] at h
    rw [Bool.and_eq_true] at ok
    have hvalue : (readNumber ('-' :: s)).1.Canonical :=
      canonical_readNumber (.negative (isUnsigned_scanUnsigned ok.2))
    rw [h] at hvalue
    exact hvalue
  | case3 s no =>
    simp only [readValue?, no] at h
    cases h
  | case4 s hex =>
    cases h
    rw [RawValue.Canonical, String.toList_ofList]
    exact all_ofClass isHexDigit s
  | case5 c s _ _ number =>
    simp only [readValue?, number, if_true, Option.some.injEq] at h
    have hvalue : (readNumber (c :: s)).1.Canonical := by
      apply canonical_readNumber
      rw [scanNumeral_of_head (head?_ne_dash_of_startsNumber number)]
      exact .unsigned (isUnsigned_scanUnsigned number)
    rw [h] at hvalue
    exact hvalue
  | case6 c s _ _ notNumber alpha =>
    simp only [readValue?, notNumber, alpha, if_true, Bool.false_eq_true, if_false] at h
    cases h
    rw [RawValue.Canonical, String.toList_ofList]
    exact isRun_ofClass alpha s
  | case7 c s _ _ notNumber notAlpha =>
    simp only [readValue?, notNumber, notAlpha, Bool.false_eq_true, if_false] at h
    cases h

theorem canonical_readValues {empty signed : Bool} {s rest : List Char} {values : List RawValue}
    (h : readValues empty signed s = .ok (values, rest)) : ∀ v ∈ values, v.Canonical := by
  fun_induction readValues empty signed s generalizing values rest with
  | case1 empty signed s value tail found ih =>
    obtain ⟨⟨others, left⟩, hothers, h⟩ := bind_eq_ok.mp h
    cases h
    exact List.forall_mem_cons.mpr ⟨canonical_readValue? found, ih hothers⟩
  | case2 => cases h
  | case3 _ _ s _ dash _ ih => exact ih h
  | case4 =>
    cases h
    exact List.forall_mem_nil _

/-! ## Properties -/

/-- What ends the values of a property: the end of the abbreviation, a `+` or a `!`. -/
def EndsValues (rest : List Char) : Prop := ∀ c ∈ rest.head?, c = '+' ∨ c = '!'

theorem readValues_of_none {empty signed : Bool} {s : List Char}
    (hnone : readValue? signed s = none) (hdash : s.head? ≠ some '-') :
    readValues empty signed s = .ok ([], s) := by
  rw [readValues]
  split
  · next hsome => cases hnone.symm.trans hsome
  · rw [dif_neg hdash]

theorem readValues_of_end {empty signed : Bool} {rest : List Char} (h : EndsValues rest) :
    readValues empty signed rest = .ok ([], rest) := by
  have hnone : readValue? signed rest = none ∧ rest.head? ≠ some '-' := by
    cases rest with
    | nil => exact ⟨rfl, by simp⟩
    | cons c rest => rcases h c rfl with rfl | rfl <;> exact ⟨rfl, by simp⟩
  exact readValues_of_none hnone.1 hnone.2

theorem dropChar_of_head {c : Char} {s : List Char} (h : s.head? ≠ some c) : dropChar c s = s := by
  rw [dropChar, if_neg (by simpa using h)]

theorem canonical_readProperty {s rest : List Char} {p : RawProperty}
    (h : readProperty s = .ok (p, rest)) : p.Canonical := by
  simp only [readProperty] at h
  split at h
  · split at h
    · cases h
    · split at h <;> cases h
  · next named =>
    obtain ⟨hname, hplus⟩ := isName_scanPropertyName (s := s) (by simpa using named)
    split at h
    · cases h
    · next values tail hvalues =>
      cases h
      refine ⟨by rwa [String.toList_ofList], canonical_readValues hvalues, fun hsnippet => ?_⟩
      -- behind a `+` that ends the name there is no value to be read
      rw [RawProperty.isSnippet, String.toList_ofList, beq_iff_eq] at hsnippet
      have hnext := hplus hsnippet
      have hne : ∀ c, c ≠ '+' → (scanPropertyName s).rest.head? ≠ some c :=
        fun c hc heq => hc (hnext c heq)
      rw [dropChar_of_head (hne ':' (by decide)),
        readValues_of_end fun c hc => .inl (hnext c hc)] at hvalues
      cases hvalues
      exact ⟨rfl, by simpa using hne '!' (by decide)⟩

/-- **Whatever is read is canonical**, and it is at least one property. -/
theorem canonical_readProperties {s : List Char} {properties : List RawProperty}
    (h : readProperties s = .ok properties) :
    properties ≠ [] ∧ ∀ p ∈ properties, p.Canonical := by
  fun_induction readProperties s generalizing properties with
  | case1 => cases h
  | case2 s property found =>
    cases h
    exact ⟨List.cons_ne_nil _ _, List.forall_mem_singleton.mpr (canonical_readProperty found)⟩
  | case3 s property rest found ih =>
    obtain ⟨others, hothers, h⟩ := bind_eq_ok.mp h
    cases h
    exact ⟨List.cons_ne_nil _ _,
      List.forall_mem_cons.mpr ⟨canonical_readProperty found, (ih hothers).2⟩⟩
  | case4 => cases h

end Shorthand.Stylesheet
