import Shorthand.Proofs.Markup.Printing

/-!
# Reading a printed element

Four scanners have to agree with the printer before an element is read back from its printout: the
one for names, the ones that look for the end of a quoted value and of a text in braces, and the one
that splits a value into tokens (`read_print`). This module takes them one by one and puts them
together in `readElement_print`.

What is read depends on what follows: a `+` can belong to a name, and a digit to a count.
`FollowsElement` and `FollowsNode` list what the printer puts there.
-/

namespace Shorthand

open Text

/-! ## Braces of a printed token -/

theorem braceDepth?_append (depth : Nat) (s t : List Char) :
    braceDepth? depth (s ++ t) = (braceDepth? depth s).bind (braceDepth? · t) := by
  fun_induction braceDepth? depth s with
  | case1 depth => rfl
  | case2 depth s ih => simpa [braceDepth?] using ih
  | case3 s => simp [braceDepth?]
  | case4 s _ depth ih => simpa [braceDepth?] using ih
  | case5 depth c s hopen hclose ih => simpa [braceDepth?, hopen, hclose] using ih

theorem braceDepth?_of_not_mem {s : List Char} (hopen : '{' ∉ s) (hclose : '}' ∉ s) (depth : Nat) :
    braceDepth? depth s = some depth := by
  induction s with
  | nil => rfl
  | cons c s ih =>
      rw [List.mem_cons, not_or] at hopen hclose
      rw [braceDepth?_other (Ne.symm hopen.1) (Ne.symm hclose.1), ih hopen.2 hclose.2]

/-- Braces that are open around a text stay open. -/
theorem braceDepth?_add {depth after : Nat} {s : List Char} (h : braceDepth? depth s = some after)
    (outer : Nat) : braceDepth? (depth + outer) s = some (after + outer) := by
  fun_induction braceDepth? depth s with
  | case1 depth =>
      cases h
      rfl
  | case2 depth s ih =>
      rw [braceDepth?_open, Nat.add_right_comm]
      exact ih h
  | case3 s => cases h
  | case4 s depth _ ih =>
      rw [Nat.succ_add, braceDepth?_close]
      exact ih h
  | case5 depth c s hopen hclose ih =>
      rw [braceDepth?_other hopen hclose]
      exact ih h

theorem not_mem_toDigits {c : Char} (hc : c.isDigit = false) (n : Nat) : c ∉ Nat.toDigits 10 n := by
  intro hmem
  have := Nat.isDigit_of_mem_toDigits (by decide) (by decide) hmem
  rw [hc] at this
  cases this

/-- A tab-stop or a numbering closes the braces that it opens. -/
theorem braceDepth?_print {t : Token} (ht : t.Canonical) (htext : t.isText = false) (depth : Nat) :
    braceDepth? depth t.print = some depth := by
  have hdigits : ∀ depth n, braceDepth? depth (Nat.toDigits 10 n) = some depth := fun depth n =>
    braceDepth?_of_not_mem (not_mem_toDigits (by decide) n) (not_mem_toDigits (by decide) n) depth
  cases t with
  | text s => cases htext
  | field index placeholder =>
      cases placeholder with
      | none => simp [Token.print, braceDepth?, braceDepth?_append, hdigits]
      | some p =>
          have hp : braceDepth? (depth + 1) p.toList = some (depth + 1) := by
            simpa [Nat.add_comm] using braceDepth?_add (ht.2 p rfl) (depth + 1)
          simp [Token.print, braceDepth?, braceDepth?_append, hdigits, hp]
  | number n =>
      have hdollars : braceDepth? depth (List.replicate n.size '$') = some depth :=
        braceDepth?_of_not_mem (by simp) (by simp) depth
      cases hreverse : n.reverse <;>
        simp [Token.print, hreverse, braceDepth?, braceDepth?_append, hdigits, hdollars]

/-- A tab-stop or a numbering is written without quotes and backslashes. -/
theorem Token.Quotable.plain_print {t : Token} (ht : t.Quotable) (htext : t.isText = false) :
    ∀ c ∈ t.print, c ≠ '\\' ∧ c ≠ '"' := by
  have hdigits : ∀ n, ∀ c ∈ Nat.toDigits 10 n, c ≠ '\\' ∧ c ≠ '"' := by
    intro n c hc
    constructor
    · rintro rfl
      exact not_mem_toDigits (by decide) n hc
    · rintro rfl
      exact not_mem_toDigits (by decide) n hc
  intro c hc
  cases t with
  | text s => cases htext
  | field index placeholder =>
      cases placeholder with
      | none =>
          simp only [Token.print, List.mem_cons, List.mem_append, List.not_mem_nil, or_false] at hc
          rcases hc with rfl | rfl | hc | rfl
          · decide
          · decide
          · exact hdigits index c hc
          · decide
      | some p =>
          simp only [Token.print, List.mem_cons, List.mem_append, List.not_mem_nil, or_false] at hc
          rcases hc with rfl | rfl | hc | rfl | hc | rfl
          · decide
          · decide
          · exact hdigits index c hc
          · decide
          · obtain ⟨hescape, hquote⟩ := ht p rfl
            exact ⟨fun h => hescape (h ▸ hc), fun h => hquote (h ▸ hc)⟩
          · decide
  | number n =>
      simp only [Token.print, List.mem_cons, List.mem_append, List.mem_replicate] at hc
      rcases hc with ⟨_, rfl⟩ | rfl | hc | hc
      · decide
      · decide
      · split at hc
        · rw [List.mem_singleton.mp hc]
          decide
        · cases hc
      · exact hdigits n.base c hc

namespace Markup

/-! ## Values between quotes and braces

The scanners do not split a value into tokens, they only look for its end. So each of them has to
pass over every token of a printed value. -/

theorem scanQuoted_escape {quote : Char} {s : List Char} {span : Span}
    (h : scanQuoted quote s = some span) (text : List Char) :
    scanQuoted quote (escape text ++ s) = some ⟨escape text ++ span.read, span.rest⟩ := by
  induction text with
  | nil => exact h
  | cons c text ih => simp [scanQuoted, ih, Span.cons]

theorem scanQuoted_plain {quote : Char} {s : List Char} {span : Span}
    (h : scanQuoted quote s = some span) {text : List Char}
    (htext : ∀ c ∈ text, c ≠ '\\' ∧ c ≠ quote) :
    scanQuoted quote (text ++ s) = some ⟨text ++ span.read, span.rest⟩ := by
  induction text with
  | nil => exact h
  | cons c text ih =>
      obtain ⟨⟨hescape, hquote⟩, htext⟩ := List.forall_mem_cons.mp htext
      rw [List.cons_append, scanQuoted, if_neg hquote, ih htext]
      · rfl
      · exact fun hc _ => hescape hc
      · exact fun _ _ hc _ => hescape hc

theorem scanQuoted_token {t : Token} (ht : t.Quotable) {s : List Char} {span : Span}
    (h : scanQuoted '"' s = some span) :
    scanQuoted '"' (t.print ++ s) = some ⟨t.print ++ span.read, span.rest⟩ := by
  by_cases htext : t.isText = true
  · cases t with
    | text text => exact scanQuoted_escape h text.toList
    | field index placeholder => cases htext
    | number n => cases htext
  · exact scanQuoted_plain h (ht.plain_print (Bool.eq_false_iff.mpr htext))

/-- A printed value ends at the quote after it. -/
theorem scanQuoted_print {v : Value} (hv : ∀ t ∈ v, t.Quotable) (rest : List Char) :
    scanQuoted '"' (v.print ++ '"' :: rest) = some ⟨v.print, rest⟩ := by
  induction v with
  | nil => simp [scanQuoted]
  | cons t v ih =>
      obtain ⟨ht, hv⟩ := List.forall_mem_cons.mp hv
      rw [Value.print_cons, List.append_assoc, scanQuoted_token ht (ih hv)]

theorem scanBraced_escape {depth : Nat} {s : List Char} {span : Span}
    (h : scanBraced depth s = some span) (text : List Char) :
    scanBraced depth (escape text ++ s) = some ⟨escape text ++ span.read, span.rest⟩ := by
  induction text with
  | nil => exact h
  | cons c text ih => simp [scanBraced, ih, Span.cons]

theorem scanBraced_open (depth : Nat) (s : List Char) :
    scanBraced depth ('{' :: s) = (scanBraced (depth + 1) s).map (Span.cons '{') := by
  cases depth <;> simp [scanBraced]

theorem scanBraced_close (depth : Nat) (s : List Char) :
    scanBraced (depth + 1) ('}' :: s) = (scanBraced depth s).map (Span.cons '}') := by
  simp [scanBraced]

theorem scanBraced_other {c : Char} (hescape : c ≠ '\\') (hopen : c ≠ '{') (hclose : c ≠ '}')
    (depth : Nat) (s : List Char) :
    scanBraced depth (c :: s) = (scanBraced depth s).map (Span.cons c) := by
  cases depth <;> simp [scanBraced, hescape, hopen, hclose]

theorem scanBraced_plain {depth after : Nat} {text s : List Char} {span : Span}
    (hdepth : braceDepth? depth text = some after) (htext : ∀ c ∈ text, c ≠ '\\')
    (h : scanBraced after s = some span) :
    scanBraced depth (text ++ s) = some ⟨text ++ span.read, span.rest⟩ := by
  fun_induction braceDepth? depth text with
  | case1 depth =>
      cases hdepth
      exact h
  | case2 depth text ih =>
      rw [List.cons_append, scanBraced_open, ih hdepth (List.forall_mem_cons.mp htext).2]
      rfl
  | case3 text => cases hdepth
  | case4 text depth _ ih =>
      rw [List.cons_append, scanBraced_close, ih hdepth (List.forall_mem_cons.mp htext).2]
      rfl
  | case5 depth c text hopen hclose ih =>
      obtain ⟨hescape, htext⟩ := List.forall_mem_cons.mp htext
      rw [List.cons_append, scanBraced_other hescape hopen hclose, ih hdepth htext]
      rfl

theorem scanBraced_token {t : Token} (hcanonical : t.Canonical) (ht : t.Quotable) {s : List Char}
    {span : Span} (h : scanBraced 0 s = some span) :
    scanBraced 0 (t.print ++ s) = some ⟨t.print ++ span.read, span.rest⟩ := by
  by_cases htext : t.isText = true
  · cases t with
    | text text => exact scanBraced_escape h text.toList
    | field index placeholder => cases htext
    | number n => cases htext
  · have htext := Bool.eq_false_iff.mpr htext
    exact scanBraced_plain (braceDepth?_print hcanonical htext 0)
      (fun c hc => (ht.plain_print htext c hc).1) h

/-- A printed value ends at the brace after it. -/
theorem scanBraced_print {v : Value} (hv : v.Quotable) (rest : List Char) :
    scanBraced 0 (v.print ++ '}' :: rest) = some ⟨v.print, rest⟩ := by
  induction v with
  | nil => simp [scanBraced]
  | cons t v ih =>
      obtain ⟨⟨ht, _, hcanonical⟩, hquotable⟩ := hv
      obtain ⟨htq, hquotable⟩ := List.forall_mem_cons.mp hquotable
      rw [Value.print_cons, List.append_assoc, scanBraced_token ht htq (ih ⟨hcanonical, hquotable⟩)]

/-! ## Names -/

/-- What can follow a node: the end of the input, or an operator that stays clear of the name before
it. -/
inductive FollowsNode : List Char → Prop
  | nil : FollowsNode []
  | child (s : List Char) : FollowsNode ('>' :: s)
  | climb (s : List Char) : FollowsNode ('^' :: s)
  | close (s : List Char) : FollowsNode (')' :: s)
  | sibling {s : List Char} (h : endsLevel s = false) : FollowsNode ('+' :: s)

/-- What can follow an element: a repeat count, or what can follow a node. -/
inductive FollowsElement : List Char → Prop
  | times (s : List Char) : FollowsElement ('*' :: s)
  | node {s : List Char} (h : FollowsNode s) : FollowsElement s

/-- A name ends here, whether or not a name character was read before. -/
def EndsName (s : List Char) : Prop := ∀ afterChar, scanName true afterChar s = ([], s)

theorem endsName_cons {c : Char} {s : List Char} (hname : isNameChar c = false) (hdollar : c ≠ '$')
    (hplus : c = '+' → endsLevel s = false) : EndsName (c :: s) := by
  intro afterChar
  rw [scanName]
  · by_cases hc : c = '+'
    · simp [hname, hplus hc]
    · simp [hname, hc]
  · exact hdollar

theorem FollowsElement.endsName {s : List Char} (h : FollowsElement s) : EndsName s := by
  rcases h with s | h
  · exact endsName_cons (by decide) (by decide) (by simp)
  · rcases h with _ | s | s | s | h
    · exact fun _ => by rw [scanName]
    · exact endsName_cons (by decide) (by decide) (by simp)
    · exact endsName_cons (by decide) (by decide) (by simp)
    · exact endsName_cons (by decide) (by decide) (by simp)
    · exact endsName_cons (by decide) (by decide) (fun _ => h)

theorem scanName_append {name rest : List Char} (hname : ∀ c ∈ name, isNameChar c = true)
    (hrest : EndsName rest) (afterChar : Bool) :
    scanName true afterChar (name ++ rest) = (name.foldr Value.consChar [], rest) := by
  induction name generalizing afterChar with
  | nil => exact hrest afterChar
  | cons c name ih =>
      obtain ⟨hc, hname⟩ := List.forall_mem_cons.mp hname
      rw [List.cons_append, scanName, if_pos hc, ih hname]
      · rfl
      · rintro rfl
        exact absurd hc (by decide)

/-! ## Attributes -/

theorem isAttributeNameChar_of_canonical {a : Attribute} (h : a.Canonical) :
    ∀ c ∈ a.name.toList, isAttributeNameChar c = true := by
  intro c hc
  obtain ⟨hequals, hbracket, hdouble, hsingle⟩ := h.name_plain
  have hne : ∀ {d : Char}, d ∉ a.name.toList → c ≠ d := fun hd heq => hd (heq ▸ hc)
  have hblank := List.any_eq_false.mp h.name_word c hc
  simp [isAttributeNameChar, hblank, hne hequals, hne hbracket, hne hdouble, hne hsingle]

theorem readAttributeValue_print {v : Value} (hv : v.Quotable) (rest : List Char) :
    readAttributeValue ('"' :: (v.print ++ '"' :: rest)) = .ok (v, rest) := by
  rw [readAttributeValue, readQuoted, scanQuoted_print hv.2]
  simp only [read_print hv.1]

theorem readAttribute_print {a : Attribute} (h : a.Canonical) (rest : List Char) :
    readAttribute (a.name.toList ++ (printAssigned a.value ++ ']' :: rest)) =
      .ok (a, ']' :: rest) := by
  -- an `=` or the closing bracket ends the name
  have hstop : ∀ c ∈ (printAssigned a.value ++ ']' :: rest).head?,
      isAttributeNameChar c = false := by
    cases a.value with
    | none => simp [printAssigned, isAttributeNameChar]
    | some v => simp [printAssigned, isAttributeNameChar]
  have hname := Span.ofClass_append (isAttributeNameChar_of_canonical h) hstop
  have hne : a.name.toList.isEmpty = false := by
    simpa [String.toList_eq_nil_iff] using h.name_ne
  simp only [readAttribute, hname, hne, Bool.false_eq_true, if_false, String.ofList_toList]
  obtain ⟨name, value⟩ := a
  cases value with
  | none => rfl
  | some v =>
      have hvalue := readAttributeValue_print (h.value v rfl) (']' :: rest)
      simp only [printAssigned, List.cons_append, List.append_assoc, List.nil_append, hvalue]
      rfl

theorem readAttributes_close (opened : List Char) (e : Element) (rest : List Char) :
    readAttributes opened e (']' :: rest) = .ok (e, rest) := by
  have hblank : (']' :: rest).dropWhile isBlank = ']' :: rest :=
    List.dropWhile_cons_of_neg (by decide)
  rw [readAttributes]
  split
  · next h => rw [hblank] at h; cases h
  · next h => rw [hblank] at h; cases h; rfl
  · next h => exact absurd hblank (h rest)

/-- A set of one attribute adds that attribute. -/
theorem readAttributes_print {a : Attribute} (h : a.Canonical) (opened : List Char) (e : Element)
    (rest : List Char) :
    readAttributes opened e (a.name.toList ++ (printAssigned a.value ++ ']' :: rest)) =
      .ok ({ e with attributes := a.putLast e.attributes }, rest) := by
  have hread := readAttribute_print h rest
  obtain ⟨c, name, hc⟩ := List.exists_cons_of_ne_nil
    (fun hnil => h.name_ne (String.toList_eq_nil_iff.mp hnil))
  have hblank := List.any_eq_false.mp h.name_word c (hc ▸ List.mem_cons_self)
  have hbracket : c ≠ ']' := fun heq => h.name_plain.2.1 (heq ▸ hc ▸ List.mem_cons_self)
  rw [hc, List.cons_append] at hread ⊢
  -- no blank stands before the name, so the attribute starts right here
  have hstart := List.dropWhile_cons_of_neg (l := name ++ (printAssigned a.value ++ ']' :: rest))
    hblank
  rw [readAttributes]
  split
  · next hnil => rw [hstart] at hnil; cases hnil
  · next hclose => rw [hstart] at hclose; exact absurd (List.cons.inj hclose).1 hbracket
  · rw [hstart]
    split
    · next hfault => rw [hread] at hfault; cases hfault
    · next hok =>
      rw [hread] at hok
      cases hok
      exact readAttributes_close opened _ rest

theorem Attribute.addClass_of_not_mem {as : List Attribute} (h : "class" ∉ as.map Attribute.name)
    (classes : Value) : addClass classes as = as ++ [⟨"class", some classes⟩] := by
  induction as with
  | nil => rfl
  | cons a as ih =>
      rw [List.map_cons, List.mem_cons, not_or] at h
      rw [addClass, if_neg (Ne.symm h.1), ih h.2, List.cons_append]

/-- An attribute with a new name goes to the end. -/
theorem Attribute.putLast_of_not_mem {a : Attribute} {as : List Attribute} (ha : a.Canonical)
    (h : a.name ∉ as.map Attribute.name) : a.putLast as = as ++ [a] := by
  by_cases hclass : a.name = "class"
  · obtain ⟨classes, hclasses⟩ := Option.ne_none_iff_exists'.mp (ha.assigned hclass)
    obtain ⟨name, value⟩ := a
    cases hclass
    cases hclasses
    exact addClass_of_not_mem h classes
  · have hkeep : as.filter (·.name != a.name) = as := by
      rw [List.filter_eq_self]
      intro b hb
      rw [bne_iff_ne]
      intro heq
      exact h (List.mem_map.mpr ⟨b, hb, heq⟩)
    rw [putLast, if_neg hclass, hkeep]

/-! ## Elements -/

theorem readModifiers_attribute {a : Attribute} {e : Element} (ha : a.Canonical)
    (hnew : a.name ∉ e.attributes.map Attribute.name) (rest : List Char) :
    readModifiers e (a.print ++ rest) =
      readModifiers { e with attributes := e.attributes ++ [a] } rest := by
  have hprint : a.print ++ rest =
      '[' :: (a.name.toList ++ (printAssigned a.value ++ ']' :: rest)) := by
    simp [Attribute.print]
  rw [hprint, readModifiers]
  split
  · next hfault => rw [readAttributes_print ha] at hfault; cases hfault
  · next hok =>
    rw [readAttributes_print ha, Attribute.putLast_of_not_mem ha hnew] at hok
    cases hok
    rfl

/-- Printed attributes are added one by one. -/
theorem readModifiers_attributes {as : List Attribute} {e : Element} (has : ∀ a ∈ as, a.Canonical)
    (hnew : ((e.attributes ++ as).map Attribute.name).Nodup) (rest : List Char) :
    readModifiers e (as.flatMap Attribute.print ++ rest) =
      readModifiers { e with attributes := e.attributes ++ as } rest := by
  induction as generalizing e with
  | nil => rw [List.append_nil]; rfl
  | cons a as ih =>
      obtain ⟨ha, has⟩ := List.forall_mem_cons.mp has
      have hfresh : a.name ∉ e.attributes.map Attribute.name := by
        rw [List.map_append, List.nodup_append, List.map_cons] at hnew
        intro hmem
        exact hnew.2.2 _ hmem _ List.mem_cons_self rfl
      rw [List.flatMap_cons, List.append_assoc, readModifiers_attribute ha hfresh, ih has]
      · rw [List.append_assoc, List.singleton_append]
      · rw [List.append_assoc, List.singleton_append]
        exact hnew

theorem readModifiers_text {v : Value} (hv : v.Quotable) (e : Element) (rest : List Char) :
    readModifiers e ('{' :: (v.print ++ '}' :: rest)) = readModifiers (e.addText v) rest := by
  rw [readModifiers]
  split
  · next hnone => rw [scanBraced_print hv] at hnone; cases hnone
  · next hsome =>
    rw [scanBraced_print hv] at hsome
    cases hsome
    rw [read_print hv.1]

theorem readModifiers_end {e : Element} {rest : List Char} (h : FollowsElement rest) :
    readModifiers e rest = .ok (e, rest) := by
  rcases h with s | h
  · rw [readModifiers] <;> simp
  · rcases h with _ | s | s | s | h <;> rw [readModifiers] <;> simp

/-- The modifiers of an element, read onto its bare name, give the element. -/
theorem readModifiers_print {e : Element} (he : e.Canonical) {rest : List Char}
    (hrest : FollowsElement rest) :
    readModifiers { name := e.name } (e.printModifiers ++ rest) = .ok (e, rest) := by
  obtain ⟨name, attributes, text, selfClosing⟩ := e
  -- the slash comes last, whatever was read before it
  have hslash : ∀ e : Element, e.selfClosing = false →
      readModifiers e ((if selfClosing then ['/'] else []) ++ rest) =
        .ok ({ e with selfClosing }, rest) := by
    intro e hopen
    cases selfClosing with
    | true => simp [readModifiers]
    | false =>
        obtain ⟨_, _, _, _⟩ := e
        cases hopen
        exact readModifiers_end hrest
  have hattributes := readModifiers_attributes (e := { name := name }) he.attributes he.distinct
  rw [Element.printModifiers, List.append_assoc, hattributes]
  cases text with
  | none => exact hslash _ rfl
  | some v =>
      have hprint : printText (some v) ++ (if selfClosing then ['/'] else []) ++ rest =
          '{' :: (v.print ++ '}' :: ((if selfClosing then ['/'] else []) ++ rest)) := by
        simp [printText]
      rw [hprint, readModifiers_text (he.text v rfl)]
      exact hslash _ rfl

/-- A name ends where the modifiers start. -/
theorem endsName_printModifiers (e : Element) {rest : List Char} (hrest : FollowsElement rest) :
    EndsName (e.printModifiers ++ rest) := by
  obtain ⟨name, attributes, text, selfClosing⟩ := e
  cases attributes with
  | cons a as => exact endsName_cons (by decide) (by decide) (by simp)
  | nil =>
      cases text with
      | some v => exact endsName_cons (by decide) (by decide) (by simp)
      | none =>
          cases selfClosing with
          | true => exact endsName_cons (by decide) (by decide) (by simp)
          | false => exact hrest.endsName

theorem IsPlainName.exists_text {v : Value} (h : IsPlainName v) :
    ∃ s, v = [.text s] ∧ s ≠ "" ∧ ∀ c ∈ s.toList, isNameChar c = true := by
  unfold IsPlainName at h
  split at h
  · next s => exact ⟨s, rfl, h.1, List.all_eq_true.mp h.2⟩
  · exact h.elim

/-- The characters a printed element can start with. -/
def startsElement (c : Char) : Bool := isNameChar c || c == '[' || c == '{' || c == '/'

theorem Element.print_unnamed {e : Element} (h : e.name = none) : e.print = e.printModifiers := by
  rw [Element.print, Element.shownName, h]
  rfl

theorem Element.print_named {e : Element} {s : String} (h : e.name = some [.text s]) :
    e.print = s.toList ++ e.printModifiers := by
  simp [Element.print, Element.shownName, h, Value.shown, Token.shown, String.join]

theorem Element.Canonical.print_eq_cons {e : Element} (he : e.Canonical) :
    ∃ c s, e.print = c :: s ∧ startsElement c = true := by
  cases hname : e.name with
  | some v =>
      obtain ⟨s, rfl, hne, hs⟩ := (he.name v hname).exists_text
      obtain ⟨c, cs, hc⟩ := List.exists_cons_of_ne_nil
        (fun hnil => hne (String.toList_eq_nil_iff.mp hnil))
      have hstart : startsElement c = true := by
        simp [startsElement, hs c (hc ▸ List.mem_cons_self)]
      rw [Element.print_named hname, hc]
      exact ⟨c, _, rfl, hstart⟩
  | none =>
      rw [Element.print_unnamed hname]
      obtain ⟨name, attributes, text, selfClosing⟩ := e
      cases attributes with
      | cons a as => exact ⟨'[', _, rfl, by decide⟩
      | nil =>
          cases text with
          | some v => exact ⟨'{', _, rfl, by decide⟩
          | none =>
              cases selfClosing with
              | true => exact ⟨'/', _, rfl, by decide⟩
              | false =>
                  cases hname
                  exact absurd rfl he.present

theorem scanName_print {e : Element} (he : e.Canonical) {rest : List Char}
    (hrest : FollowsElement rest) :
    scanName true false (e.print ++ rest) = (e.name.getD [], e.printModifiers ++ rest) := by
  have hends := endsName_printModifiers e hrest
  cases hname : e.name with
  | none =>
      rw [Element.print_unnamed hname]
      exact hends false
  | some v =>
      obtain ⟨s, rfl, hne, hs⟩ := (he.name v hname).exists_text
      have hchars : s.toList ≠ [] := fun hnil => hne (String.toList_eq_nil_iff.mp hnil)
      rw [Element.print_named hname, List.append_assoc, scanName_append hs hends,
        foldr_consChar hchars (by simp), String.ofList_toList]
      rfl

/-- **Elements**: a canonical element is read back from its printout. -/
theorem readElement_print {e : Element} (he : e.Canonical) {rest : List Char}
    (hrest : FollowsElement rest) : readElement (e.print ++ rest) = .ok (e, rest) := by
  have hbare : (if (e.name.getD []).isEmpty then none else some (e.name.getD [])) = e.name := by
    cases hname : e.name with
    | none => rfl
    | some v =>
        obtain ⟨s, rfl, _⟩ := (he.name v hname).exists_text
        rfl
  have hlength : rest.length < (e.print ++ rest).length := by
    obtain ⟨c, s, hc, _⟩ := he.print_eq_cons
    rw [hc, List.length_append, List.length_cons]
    omega
  simp only [readElement, scanName_print he hrest, hbare, readModifiers_print he hrest,
    if_pos hlength]

/-! ## Repeat counts -/

theorem FollowsNode.isDigit_head {s : List Char} (h : FollowsNode s) :
    ∀ c ∈ s.head?, c.isDigit = false := by
  rcases h with _ | _ | _ | _ | _ <;> simp

/-- A printed repeat count, or none, is read back. -/
theorem readTimes_print {limits : Limits} {times : Option Nat} (h : RepeatFits limits times)
    {rest : List Char} (hrest : FollowsNode rest) :
    readTimes limits (printTimes times ++ rest) = .ok (times, rest) := by
  cases times with
  | none =>
      rw [printTimes, List.nil_append]
      rcases hrest with _ | _ | _ | _ | _ <;> rw [readTimes] <;> simp
  | some n =>
      obtain ⟨hpos, hcount, hword⟩ := h n rfl
      obtain ⟨k, rfl⟩ := Nat.exists_eq_add_of_le' hpos
      rw [printTimes, List.cons_append, readTimes,
        scanDigits_toDigits_append (k + 1) hrest.isDigit_head]
      simp only [decimal?_toDigits hword, if_pos hcount]

theorem FollowsNode.printTimes {rest : List Char} (h : FollowsNode rest) (times : Option Nat) :
    FollowsElement (printTimes times ++ rest) := by
  cases times with
  | none => exact .node h
  | some n => exact .times _

end Markup

end Shorthand
