import Shorthand.Proofs.Stylesheet.Canonical

/-!
# RoundTrip — reading undoes printing

A property is printed with a colon behind its name and a dash between its values, so nothing that is
printed runs into what follows it: a dash, a `+`, a `!` and the end of the abbreviation all end a
value, and a dash in front of a number is its sign only behind another dash or a colon.

Each scanner reads back what was printed for it, whatever may follow, and
`read_print_and_canonical` puts them together: the printed form of every list of canonical
properties is read as that list, and no other list is ever read.
-/

namespace Shorthand.Stylesheet

open Text

/-! ## The printer -/

def RawValue.print : RawValue → List Char
  | .number digits unit => digits.toList ++ (unit.getD "").toList
  | .color hex => '#' :: hex.toList
  | .keyword name => name.toList

/-- Values with dashes between them. -/
def printValues : List RawValue → List Char
  | [] => []
  | [v] => v.print
  | v :: w :: rest => v.print ++ '-' :: printValues (w :: rest)

/-- A property: the name of a snippet alone, or a name, a colon, the values and an optional `!`. -/
def RawProperty.print (p : RawProperty) : List Char :=
  p.name.toList ++
    if p.isSnippet then [] else ':' :: (printValues p.values ++ if p.important then ['!'] else [])

/-- Properties with `+` between them. -/
def printProperties : List RawProperty → List Char
  | [] => []
  | [p] => p.print
  | p :: q :: rest => p.print ++ '+' :: printProperties (q :: rest)

/-! ## Numbers -/

theorem ofClass_of_all {p : Char → Bool} {s rest : List Char} (hs : s.all p = true)
    (hrest : ∀ c ∈ rest.head?, p c = false) : Span.ofClass p (s ++ rest) = ⟨s, rest⟩ :=
  Span.ofClass_append (List.all_eq_true.mp hs) hrest

/-- What ends a number, as long as a unit may still follow it. -/
def EndsNumber (rest : List Char) : Prop := ∀ c ∈ rest.head?, c.isDigit = false ∧ c ≠ '.'

theorem EndsNumber.isDigit {rest : List Char} (h : EndsNumber rest) :
    ∀ c ∈ rest.head?, c.isDigit = false := fun c hc => (h c hc).1

theorem EndsNumber.scanFraction {rest : List Char} (h : EndsNumber rest) :
    scanFraction rest = ⟨[], rest⟩ := by
  fun_cases Stylesheet.scanFraction rest with
  | case1 d s _ => exact absurd rfl (h '.' rfl).2
  | case2 => rfl
  | case3 => rfl

theorem scanFraction_append {fs rest : List Char} (hf : IsRun Char.isDigit fs)
    (hrest : EndsNumber rest) : scanFraction ('.' :: (fs ++ rest)) = ⟨'.' :: fs, rest⟩ := by
  have hdigits : scanDigits (fs ++ rest) = ⟨fs, rest⟩ := ofClass_of_all hf.2 hrest.isDigit
  obtain ⟨d, t, rfl, hd⟩ := hf.exists_cons
  rw [List.cons_append] at hdigits ⊢
  rw [scanFraction, if_pos hd, hdigits]
  rfl

theorem scanUnsigned_append {s rest : List Char} (h : IsUnsigned s) (hrest : EndsNumber rest) :
    scanUnsigned (s ++ rest) = ⟨s, rest⟩ := by
  have hpoint : ∀ t : List Char, ∀ c ∈ ('.' :: t).head?, c.isDigit = false := by
    rintro t c ⟨rfl⟩
    rfl
  cases h with
  | whole hd =>
      have hwhole : scanDigits (s ++ rest) = ⟨s, rest⟩ := ofClass_of_all hd.2 hrest.isDigit
      simp only [scanUnsigned, hwhole, hrest.scanFraction, List.append_nil]
  | @mixed ds fs hd hf =>
      have hwhole : scanDigits (ds ++ '.' :: (fs ++ rest)) = ⟨ds, '.' :: (fs ++ rest)⟩ :=
        ofClass_of_all hd.2 (hpoint _)
      rw [List.append_assoc, List.cons_append]
      simp only [scanUnsigned, hwhole, scanFraction_append hf hrest]
  | @fraction fs hf =>
      have hwhole : scanDigits ('.' :: (fs ++ rest)) = ⟨[], '.' :: (fs ++ rest)⟩ :=
        ofClass_of_all (s := []) rfl (hpoint _)
      rw [List.cons_append]
      simp only [scanUnsigned, hwhole, scanFraction_append hf hrest, List.nil_append]

theorem startsNumber_append {s : List Char} (h : IsUnsigned s) (rest : List Char) :
    startsNumber (s ++ rest) = true := by
  have hdigit : ∀ ds : List Char, IsRun Char.isDigit ds →
      ∃ d t, ds = d :: t ∧ d.isDigit = true ∧ d ≠ '.' := by
    intro ds hrun
    obtain ⟨d, t, rfl, hd⟩ := hrun.exists_cons
    exact ⟨d, t, rfl, hd, by rintro rfl; cases hd⟩
  cases h with
  | whole hd =>
      obtain ⟨d, t, rfl, hd, hne⟩ := hdigit _ hd
      simp [startsNumber, hd, hne]
  | mixed hd hf =>
      obtain ⟨d, t, rfl, hd, hne⟩ := hdigit _ hd
      simp [startsNumber, hd, hne]
  | fraction hf =>
      obtain ⟨d, t, rfl, hd, -⟩ := hdigit _ hf
      simpa [startsNumber] using hd

theorem scanNumeral_append {s rest : List Char} (h : IsNumeral s) (hrest : EndsNumber rest) :
    scanNumeral (s ++ rest) = ⟨s, rest⟩ := by
  cases h with
  | unsigned h =>
      rw [scanNumeral_of_head (head?_ne_dash_of_startsNumber (startsNumber_append h rest)),
        scanUnsigned_append h hrest]
  | negative h =>
      rw [List.cons_append, scanNumeral, scanUnsigned_append h hrest]
      rfl

/-! ## Values -/

/-- What can follow a value. -/
def FollowsValue (rest : List Char) : Prop := ∀ c ∈ rest.head?, c = '-' ∨ c = '+' ∨ c = '!'

theorem EndsValues.followsValue {rest : List Char} (h : EndsValues rest) : FollowsValue rest :=
  fun c hc => .inr (h c hc)

/-- A class without the three characters that can follow a value ends there. -/
theorem FollowsValue.notIn {rest : List Char} (h : FollowsValue rest) {p : Char → Bool}
    (hp : p '-' = false ∧ p '+' = false ∧ p '!' = false) : ∀ c ∈ rest.head?, p c = false := by
  intro c hc
  rcases h c hc with rfl | rfl | rfl
  · exact hp.1
  · exact hp.2.1
  · exact hp.2.2

theorem isDigit_of_isUnitChar {c : Char} (h : isUnitChar c = true) :
    c.isDigit = false ∧ c ≠ '.' := by
  rw [isUnitChar, Bool.or_eq_true, beq_iff_eq] at h
  rcases h with h | rfl
  · refine ⟨?_, by rintro rfl; cases h⟩
    delta Char.isAlpha Char.isUpper Char.isLower at h
    grind [Char.isDigit]
  · exact ⟨rfl, by decide⟩

theorem readNumber_append {digits rest : List Char} {unit : Option String}
    (hdigits : IsNumeral digits) (hunit : ∀ u ∈ unit, IsRun isUnitChar u.toList)
    (hrest : FollowsValue rest) :
    readNumber (digits ++ ((unit.getD "").toList ++ rest)) =
      (.number (String.ofList digits) unit, rest) := by
  have hrest' : ∀ c ∈ rest.head?, isUnitChar c = false := hrest.notIn ⟨rfl, rfl, rfl⟩
  cases unit with
  | none =>
      have hends : EndsNumber rest := fun c hc =>
        ⟨hrest.notIn (p := Char.isDigit) ⟨rfl, rfl, rfl⟩ c hc,
          by rcases hrest c hc with rfl | rfl | rfl <;> decide⟩
      have hspan : Span.ofClass isUnitChar rest = ⟨[], rest⟩ := ofClass_of_all (s := []) rfl hrest'
      simp only [Option.getD_none, String.toList_empty, List.nil_append, readNumber,
        scanNumeral_append hdigits hends]
      rw [show (fun c : Char => c.isAlpha || c == '%') = isUnitChar from rfl, hspan]
      rfl
  | some u =>
      have hrun := hunit u rfl
      have hends : EndsNumber (u.toList ++ rest) := by
        obtain ⟨c, t, hu, hc⟩ := hrun.exists_cons
        rw [hu]
        rintro d ⟨rfl⟩
        exact isDigit_of_isUnitChar hc
      have hspan : Span.ofClass isUnitChar (u.toList ++ rest) = ⟨u.toList, rest⟩ :=
        ofClass_of_all hrun.2 hrest'
      simp only [Option.getD_some, readNumber, scanNumeral_append hdigits hends]
      rw [show (fun c : Char => c.isAlpha || c == '%') = isUnitChar from rfl, hspan]
      simp [hrun.1]

/-- A value is read back where a sign may stand, whatever follows it. -/
theorem readValue?_print {v : RawValue} (hv : v.Canonical) {rest : List Char}
    (hrest : FollowsValue rest) : readValue? true (v.print ++ rest) = some (v, rest) := by
  cases v with
  | number digits unit =>
      obtain ⟨hdigits, hunit⟩ := hv
      have hread := readNumber_append hdigits hunit hrest
      rw [String.ofList_toList] at hread
      rw [RawValue.print, List.append_assoc]
      generalize digits.toList = s at hdigits hread ⊢
      cases hdigits with
      | negative h =>
          rw [List.cons_append] at hread ⊢
          rw [readValue?, startsNumber_append h, hread]
          rfl
      | unsigned h =>
          have hstart := startsNumber_append h ((unit.getD "").toList ++ rest)
          rcases startsNumber_cases hstart with ⟨d, t, heq, hd⟩ | ⟨d, t, heq, hd⟩
          · rw [heq] at hread hstart ⊢
            rw [readValue?, if_pos hstart, hread]
            · rintro rfl
              cases hd
            · rintro rfl
              cases hd
          · rw [heq] at hread hstart ⊢
            rw [readValue?, if_pos hstart, hread]
            · decide
            · decide
  | color hex =>
      have hspan : Span.ofClass isHexDigit (hex.toList ++ rest) = ⟨hex.toList, rest⟩ :=
        ofClass_of_all hv (hrest.notIn ⟨rfl, rfl, rfl⟩)
      rw [RawValue.print, List.cons_append, readValue?, hspan, String.ofList_toList]
  | keyword name =>
      have hrun : IsRun Char.isAlpha name.toList := hv
      have hspan : Span.ofClass Char.isAlpha (name.toList ++ rest) = ⟨name.toList, rest⟩ :=
        ofClass_of_all hrun.2 (hrest.notIn ⟨rfl, rfl, rfl⟩)
      obtain ⟨c, t, hname, hc⟩ := hrun.exists_cons
      have hother : c ≠ '-' ∧ c ≠ '#' := by
        constructor <;> (rintro rfl; cases hc)
      obtain ⟨hdigit, hpoint⟩ := isDigit_of_isUnitChar (c := c) (by simp [isUnitChar, hc])
      have hnumber : startsNumber (c :: (t ++ rest)) = false := by
        simp [startsNumber, hdigit, hpoint]
      rw [RawValue.print]
      rw [hname, List.cons_append] at hspan ⊢
      rw [readValue?, hnumber, if_neg Bool.false_ne_true, if_pos hc, hspan]
      · simp only [← hname, String.ofList_toList]
      · exact hother.1
      · exact hother.2

theorem readValues_of_some {empty signed : Bool} {s rest : List Char} {v : RawValue}
    (h : readValue? signed s = some (v, rest)) :
    readValues empty signed s = (do
      let (values, left) ← readValues false false rest
      return (v :: values, left)) := by
  rw [readValues]
  split
  · next heq =>
    cases h.symm.trans heq
    rfl
  · next heq => cases h.symm.trans heq

theorem readValues_of_dash {empty signed : Bool} {s : List Char}
    (hnone : readValue? signed s = none) (hdash : s.head? = some '-')
    (hmore : (empty && s.tail.isEmpty) = false) :
    readValues empty signed s = readValues empty true s.tail := by
  rw [readValues]
  split
  · next hsome => cases hnone.symm.trans hsome
  · rw [dif_pos hdash, hmore, if_neg Bool.false_ne_true]

/-- Behind a value, a dash is a separator. -/
theorem readValues_dash (s : List Char) :
    readValues false false ('-' :: s) = readValues false true s :=
  readValues_of_dash rfl rfl rfl

/-- Values are read back, up to what ends them. -/
theorem readValues_print {values : List RawValue} (hvalues : ∀ v ∈ values, v.Canonical)
    (empty : Bool) {rest : List Char} (hrest : EndsValues rest) :
    readValues empty true (printValues values ++ rest) = .ok (values, rest) := by
  fun_induction printValues values generalizing empty with
  | case1 => exact readValues_of_end hrest
  | case2 v =>
      have hv := hvalues v List.mem_cons_self
      rw [readValues_of_some (readValue?_print hv hrest.followsValue), readValues_of_end hrest]
      rfl
  | case3 v w others ih =>
      obtain ⟨hv, hothers⟩ := List.forall_mem_cons.mp hvalues
      have hdash : FollowsValue ('-' :: (printValues (w :: others) ++ rest)) := by
        rintro c ⟨rfl⟩
        exact .inl rfl
      rw [List.append_assoc, List.cons_append, readValues_of_some (readValue?_print hv hdash),
        readValues_dash, ih hothers]
      rfl

/-! ## Names -/

theorem scanNameTail_letter (started : Bool) {c : Char} (hc : c.isAlpha = true) (s : List Char) :
    scanNameTail started (c :: s) = (scanNameTail true s).cons c := by
  rw [scanNameTail, if_pos hc]
  · rintro rfl
    cases hc
  · rintro rfl
    cases hc

/-- Letters with dashes are read whole, and the scan goes on behind them. -/
theorem scanNameTail_append {body : List Char} (hbody : Hyphenated body) (started : Bool)
    (rest : List Char) :
    scanNameTail started (body ++ rest) =
      ⟨body ++ (scanNameTail (started || !body.isEmpty) rest).read,
        (scanNameTail (started || !body.isEmpty) rest).rest⟩ := by
  induction hbody generalizing started with
  | nil => simp
  | letter hc hs ih =>
      rw [List.cons_append, scanNameTail_letter started hc, ih]
      simp [Span.cons]
  | @dashed c s hc hs ih =>
      have hletter : startsLetter (c :: (s ++ rest)) = true := hc
      rw [List.cons_append, List.cons_append, scanNameTail, if_pos hletter,
        scanNameTail_letter true hc, ih]
      simp [Span.cons]

/-- What can follow the `+` at the end of a name. -/
def EndsProperty (rest : List Char) : Prop := ∀ c ∈ rest.head?, c = '+'

theorem scanNameTail_plus {rest : List Char} (h : EndsProperty rest) :
    scanNameTail true ('+' :: rest) = ⟨['+'], rest⟩ := by
  rw [scanNameTail, if_pos]
  cases rest with
  | nil => rfl
  | cons c rest =>
      rw [h c rfl]
      rfl

/-- A name is read whole in front of a colon, and with its `+` in front of what ends a property. -/
theorem scanPropertyName_append {name rest : List Char} (hname : IsName name)
    (hrest : if name.getLast? = some '+' then EndsProperty rest else ∃ t, rest = ':' :: t) :
    scanPropertyName (name ++ rest) = ⟨name, rest⟩ := by
  obtain ⟨sign, body, plus, rfl, hbody, hne, hsign, hplus⟩ := hname
  have hfull : (!body.isEmpty) = true := by simpa using hne
  -- what follows the letters is read the same way, whether or not there is an `@` before them
  have htail : ∀ started, scanNameTail started (body ++ (plus ++ rest)) = ⟨body ++ plus, rest⟩ := by
    intro started
    rw [scanNameTail_append hbody, hfull, Bool.or_true]
    rcases hplus with rfl | rfl
    · rw [if_neg fun hlast => by cases eq_plus_of_getLast? _ hbody hne (.inl rfl) hlast] at hrest
      obtain ⟨t, rfl⟩ := hrest
      simp [scanNameTail]
    · rw [if_pos (by simp)] at hrest
      rw [List.cons_append, List.nil_append, scanNameTail_plus hrest]
  rw [List.append_assoc, List.append_assoc]
  rcases hsign with rfl | ⟨rfl, hletter⟩
  · rw [List.nil_append, scanPropertyName_of_head, htail, List.nil_append]
    cases hbody with
    | nil => exact absurd rfl hne
    | letter hc hs =>
        rintro ⟨⟩
        cases hc
    | dashed hc hs => rintro ⟨⟩
  · rw [List.cons_append, List.nil_append, scanPropertyName_sign, htail]
    · rfl
    · cases body with
      | nil => exact absurd rfl hne
      | cons c body => exact hletter

/-! ## Properties -/

/-- A property is read back in front of what ends it. -/
theorem readProperty_print {p : RawProperty} (hp : p.Canonical) (rest : List Char)
    (hrest : EndsProperty rest) : readProperty (p.print ++ rest) = .ok (p, rest) := by
  obtain ⟨name, values, important⟩ := p
  have hne : ∀ c, c ≠ '+' → rest.head? ≠ some c := fun c hc heq => hc (hrest c heq)
  have hends : EndsValues rest := fun c hc => .inl (hrest c hc)
  have hempty : name.toList.isEmpty = false := by
    obtain ⟨sign, body, plus, hname, -, hbody, -⟩ := hp.name
    simp [hname, hbody]
  cases hsnippet : RawProperty.isSnippet ⟨name, values, important⟩ with
  | true =>
      obtain ⟨rfl, rfl⟩ := hp.bare hsnippet
      rw [RawProperty.isSnippet, beq_iff_eq] at hsnippet
      have hscan : scanPropertyName (name.toList ++ rest) = ⟨name.toList, rest⟩ :=
        scanPropertyName_append hp.name (by rwa [if_pos hsnippet])
      have hbang : (rest.head? == some '!') = false := by simpa using hne '!' (by decide)
      simp only [RawProperty.print, RawProperty.isSnippet, hsnippet, beq_self_eq_true, if_true,
        List.append_nil, readProperty, hscan, hempty, Bool.false_eq_true, if_false,
        dropChar_of_head (hne ':' (by decide)), dropChar_of_head (hne '!' (by decide)),
        readValues_of_end hends, hbang, String.ofList_toList]
  | false =>
      have hlast : name.toList.getLast? ≠ some '+' := by
        simpa [RawProperty.isSnippet] using hsnippet
      have hscan : ∀ t, scanPropertyName (name.toList ++ ':' :: t) = ⟨name.toList, ':' :: t⟩ :=
        fun t => scanPropertyName_append hp.name (by rw [if_neg hlast]; exact ⟨t, rfl⟩)
      have hcolon : ∀ t, dropChar ':' (':' :: t) = t := fun _ => rfl
      rw [RawProperty.print, hsnippet, if_neg Bool.false_ne_true, List.append_assoc,
        List.cons_append, List.append_assoc]
      cases important with
      | true =>
          have hbang : EndsValues ('!' :: rest) := by
            rintro c ⟨rfl⟩
            exact .inr rfl
          simp only [if_true, List.cons_append, List.nil_append, readProperty, hscan, hempty,
            Bool.false_eq_true, if_false, hcolon, readValues_print hp.values true hbang,
            String.ofList_toList]
          rfl
      | false =>
          have hbang : (rest.head? == some '!') = false := by simpa using hne '!' (by decide)
          simp only [Bool.false_eq_true, if_false, List.nil_append, readProperty, hscan, hempty,
            hcolon, readValues_print hp.values true hends, hbang,
            dropChar_of_head (hne '!' (by decide)), String.ofList_toList]

theorem readProperties_of_last {s : List Char} {p : RawProperty}
    (h : readProperty s = .ok (p, [])) : readProperties s = .ok [p] := by
  unfold readProperties
  split
  · next heq => cases h.symm.trans heq
  · next heq =>
    cases h.symm.trans heq
    rfl
  · next heq => cases h.symm.trans heq

theorem readProperties_of_plus {s rest : List Char} {p : RawProperty}
    (h : readProperty s = .ok (p, '+' :: rest)) :
    readProperties s = (do
      let others ← readProperties rest
      return p :: others) := by
  rw [readProperties]
  split
  · next heq => cases h.symm.trans heq
  · next heq => cases h.symm.trans heq
  · next heq =>
    cases h.symm.trans heq
    rw [if_pos rfl]

/-- Properties are read back. -/
theorem readProperties_print {properties : List RawProperty} (hne : properties ≠ [])
    (hproperties : ∀ p ∈ properties, p.Canonical) :
    readProperties (printProperties properties) = .ok properties := by
  fun_induction printProperties properties with
  | case1 => exact absurd rfl hne
  | case2 p =>
      have hread := readProperty_print (hproperties p List.mem_cons_self) [] (by rintro c ⟨⟩)
      rw [List.append_nil] at hread
      exact readProperties_of_last hread
  | case3 p q others ih =>
      obtain ⟨hp, hothers⟩ := List.forall_mem_cons.mp hproperties
      have hread := readProperty_print hp ('+' :: printProperties (q :: others))
        (by rintro c ⟨rfl⟩; rfl)
      rw [readProperties_of_plus hread, ih (List.cons_ne_nil _ _) hothers]
      rfl

theorem read_eq_ok_iff {limits : Limits} {abbreviation : String} {properties : List RawProperty} :
    read limits abbreviation = .ok properties ↔
      abbreviation.toList.length ≤ limits.abbreviationLength ∧
        readProperties abbreviation.toList = .ok properties := by
  rw [read, readChars]
  split
  · next hfits =>
    cases readProperties abbreviation.toList with
    | error f => exact ⟨nofun, fun h => nomatch h.2⟩
    | ok ps => exact ⟨fun h => by cases h; exact ⟨hfits, rfl⟩, fun h => by cases h.2; rfl⟩
  · next hlong => exact ⟨nofun, fun h => absurd h.1 hlong⟩

/-- **Reading undoes printing, on exactly what can be read.** The printed form of a list of canonical
properties is read as that list, if it is not too long; and a list that is read, from whatever
abbreviation, is one of canonical properties, and not empty. -/
theorem read_print_and_canonical (limits : Limits) :
    (∀ properties : List RawProperty, properties ≠ [] → (∀ p ∈ properties, p.Canonical) →
      (printProperties properties).length ≤ limits.abbreviationLength →
      read limits (String.ofList (printProperties properties)) = .ok properties) ∧
    ∀ (abbreviation : String) (properties : List RawProperty),
      read limits abbreviation = .ok properties →
      properties ≠ [] ∧ ∀ p ∈ properties, p.Canonical := by
  refine ⟨fun properties hne hproperties hfits => ?_, fun abbreviation properties h => ?_⟩
  · rw [read_eq_ok_iff, String.toList_ofList]
    exact ⟨hfits, readProperties_print hne hproperties⟩
  · exact canonical_readProperties (read_eq_ok_iff.mp h).2

/-- A name with a dash in front, a value of each kind next to a signed number, an at-rule and the
name of a snippet. -/
def mixedProperties : List RawProperty :=
  [⟨"-m-t", [.number "-1.5" (some "p%"), .color "", .number "-.5" none, .keyword "a"], true⟩,
    ⟨"@f", [], false⟩, ⟨"bg+", [], false⟩, ⟨"p", [.number "10" none], false⟩]

theorem read_print_and_canonical_mixed :
    printProperties mixedProperties = "-m-t:-1.5p%-#--.5-a!+@f:+bg++p:10".toList ∧
      mixedProperties ≠ [] ∧ (∀ p ∈ mixedProperties, p.Canonical) ∧
      read {} (String.ofList (printProperties mixedProperties)) = .ok mixedProperties := by
  have hone : IsRun Char.isDigit ['1'] := ⟨by decide, rfl⟩
  have hfive : IsRun Char.isDigit ['5'] := ⟨by decide, rfl⟩
  have hmargin : RawProperty.Canonical
      ⟨"-m-t", [.number "-1.5" (some "p%"), .color "", .number "-.5" none, .keyword "a"], true⟩ := by
    refine ⟨⟨[], ['-', 'm', '-', 't'], [], rfl, .dashed rfl (.dashed rfl .nil), by decide,
      .inl rfl, .inl rfl⟩, ?_, by decide⟩
    have hunit : ∀ u ∈ some "p%", IsRun isUnitChar u.toList := by
      rintro u ⟨rfl⟩
      exact ⟨by decide, rfl⟩
    simp only [List.forall_mem_cons, RawValue.Canonical]
    exact ⟨⟨.negative (.mixed hone hfive), hunit⟩, rfl,
      ⟨.negative (.fraction hfive), by simp⟩, ⟨by decide, rfl⟩, by simp⟩
  have hrule : RawProperty.Canonical ⟨"@f", [], false⟩ :=
    ⟨⟨['@'], ['f'], [], rfl, .letter rfl .nil, by decide, .inr ⟨rfl, rfl⟩, .inl rfl⟩, by simp,
      fun _ => ⟨rfl, rfl⟩⟩
  have hsnippet : RawProperty.Canonical ⟨"bg+", [], false⟩ :=
    ⟨⟨[], ['b', 'g'], ['+'], rfl, .letter rfl (.letter rfl .nil), by decide, .inl rfl, .inr rfl⟩,
      by simp, fun _ => ⟨rfl, rfl⟩⟩
  have hpadding : RawProperty.Canonical ⟨"p", [.number "10" none], false⟩ := by
    refine ⟨⟨[], ['p'], [], rfl, .letter rfl .nil, by decide, .inl rfl, .inl rfl⟩, ?_, by decide⟩
    simp only [List.forall_mem_singleton, RawValue.Canonical]
    exact ⟨.unsigned (.whole ⟨by decide, rfl⟩), by simp⟩
  have hall : ∀ p ∈ mixedProperties, p.Canonical := by
    simp only [mixedProperties, List.forall_mem_cons]
    exact ⟨hmargin, hrule, hsnippet, hpadding, List.forall_mem_nil _⟩
  exact ⟨by decide, by decide, hall,
    (read_print_and_canonical {}).1 mixedProperties (by decide) hall (by decide)⟩

end Shorthand.Stylesheet
