import Shorthand.Proofs.Markup.PrintedElement

/-!
# Reading an element inside parentheses

A closing parenthesis ends an element just as the end of the input does. Scanners that look for a
character of their own (a quote, a brace, a bracket) find it in the same place, whatever comes
behind their input. The others stop at the end of a class of characters, in which the parenthesis is
not, and those that look one character ahead treat it as the end.

`readElement_close` and `readTimes_close` are what the steps of the reader need of this.
-/

namespace Shorthand

open Text

/-- A parenthesis behind a text does not make it start with another character. -/
theorem append_close_ne_cons {c : Char} (hc : c ≠ ')') {s : List Char}
    (h : ∀ inner, s = c :: inner → False) (tail rest : List Char) :
    s ++ ')' :: tail = c :: rest → False := by
  intro heq
  cases s with
  | nil => exact hc (List.cons.inj heq).1.symm
  | cons d inner => exact h inner (by rw [(List.cons.inj heq).1])

/-! ## Numberings -/

theorem scanDigits_close (s tail : List Char) :
    scanDigits (s ++ ')' :: tail) = ⟨(scanDigits s).read, (scanDigits s).rest ++ ')' :: tail⟩ :=
  Span.ofClass_append_tail (by simp)

namespace Numbering

theorem scanModifier_close (size : Nat) (s tail : List Char) :
    scanModifier size (s ++ ')' :: tail) =
      ((scanModifier size s).1, (scanModifier size s).2 ++ ')' :: tail) := by
  fun_cases scanModifier size s with
  | case1 digits base => simp only [List.cons_append, scanModifier, scanDigits_close, base]
  | case2 digits hminus base hnone =>
      rw [List.cons_append, scanModifier, scanDigits_close]
      · exact if_pos hnone
      · exact append_close_ne_cons (by decide) hminus tail
  | case3 digits hminus base hsome =>
      rw [List.cons_append, scanModifier, scanDigits_close]
      · exact if_neg hsome
      · exact append_close_ne_cons (by decide) hminus tail
  | case4 s hminus hat =>
      rw [scanModifier]
      · intro rest
        exact append_close_ne_cons (by decide) hat tail _
      · exact append_close_ne_cons (by decide) hat tail

theorem scan_close (s tail : List Char) :
    scan (s ++ ')' :: tail) = ((scan s).1, (scan s).2 ++ ')' :: tail) := by
  rw [scan, Span.ofClass_append_tail (by simp), scanModifier_close, scan]

end Numbering

namespace Markup

/-! ## Names, quotes and braces -/

theorem endsLevel_close (s tail : List Char) : endsLevel (s ++ ')' :: tail) = endsLevel s := by
  cases s <;> rfl

theorem scanName_close (ofElement afterChar : Bool) (s tail : List Char) :
    scanName ofElement afterChar (s ++ ')' :: tail) =
      ((scanName ofElement afterChar s).1, (scanName ofElement afterChar s).2 ++ ')' :: tail) := by
  fun_induction scanName ofElement afterChar s with
  | case1 afterChar =>
      have hname : isNameChar ')' = false := by decide
      rw [List.nil_append, scanName]
      · simp [hname]
      · decide
  | case2 afterChar s inner ih =>
      rw [List.cons_append, scanName, ← List.cons_append, Numbering.scan_close, ih]
  | case3 afterChar c s hdollar hname inner ih =>
      rw [List.cons_append, scanName, if_pos hname, ih]
      exact hdollar
  | case4 afterChar c s hdollar hname hplus =>
      rw [List.cons_append, scanName, if_neg hname, endsLevel_close, if_pos hplus]
      exact hdollar
  | case5 afterChar c s hdollar hname hplus =>
      rw [List.cons_append, scanName, if_neg hname, endsLevel_close, if_neg hplus]
      exact hdollar

/-- A character that the scanners do not take for an escape is no backslash. -/
theorem ne_backslash_of_not_escape {c : Char} {s : List Char} (hlone : c = '\\' → s = [] → False)
    (hescape : ∀ d rest, c = '\\' → s = d :: rest → False) : c ≠ '\\' := by
  rintro rfl
  cases s with
  | nil => exact hlone rfl rfl
  | cons d rest => exact hescape d rest rfl rfl

theorem scanQuoted_other {quote c : Char} (hc : c ≠ '\\') (s : List Char) :
    scanQuoted quote (c :: s) =
      if c = quote then some ⟨[], s⟩ else (scanQuoted quote s).map (Span.cons c) := by
  rw [scanQuoted]
  · exact fun h _ => hc h
  · exact fun _ _ h _ => hc h

/-- The quote that ends a value is found in the same place, whatever comes behind. -/
theorem scanQuoted_append {quote : Char} {s : List Char} {span : Span}
    (h : scanQuoted quote s = some span) (tail : List Char) :
    scanQuoted quote (s ++ tail) = some ⟨span.read, span.rest ++ tail⟩ := by
  fun_induction scanQuoted quote s generalizing span with
  | case1 => cases h
  | case2 => cases h
  | case3 c s ih =>
      obtain ⟨inner, hinner, rfl⟩ := Option.map_eq_some_iff.mp h
      rw [List.cons_append, List.cons_append, scanQuoted, ih hinner]
      rfl
  | case4 s hlone hescape =>
      cases h
      rw [List.cons_append, scanQuoted_other (ne_backslash_of_not_escape hlone hescape), if_pos rfl]
  | case5 c s hlone hescape hquote ih =>
      obtain ⟨inner, hinner, rfl⟩ := Option.map_eq_some_iff.mp h
      rw [List.cons_append, scanQuoted_other (ne_backslash_of_not_escape hlone hescape),
        if_neg hquote, ih hinner]
      rfl

/-- The brace that ends a text is found in the same place, whatever comes behind. -/
theorem scanBraced_append {depth : Nat} {s : List Char} {span : Span}
    (h : scanBraced depth s = some span) (tail : List Char) :
    scanBraced depth (s ++ tail) = some ⟨span.read, span.rest ++ tail⟩ := by
  fun_induction scanBraced depth s generalizing span with
  | case1 => cases h
  | case2 => cases h
  | case3 depth c s ih =>
      obtain ⟨inner, hinner, rfl⟩ := Option.map_eq_some_iff.mp h
      rw [List.cons_append, List.cons_append, scanBraced, ih hinner]
      rfl
  | case4 depth s _ _ ih =>
      obtain ⟨inner, hinner, rfl⟩ := Option.map_eq_some_iff.mp h
      rw [List.cons_append, scanBraced_open, ih hinner]
      rfl
  | case5 s =>
      cases h
      simp [scanBraced]
  | case6 s _ _ _ depth ih =>
      obtain ⟨inner, hinner, rfl⟩ := Option.map_eq_some_iff.mp h
      rw [List.cons_append, scanBraced_close, ih hinner]
      rfl
  | case7 depth c s hlone hescape hopen hclose ih =>
      obtain ⟨inner, hinner, rfl⟩ := Option.map_eq_some_iff.mp h
      rw [List.cons_append,
        scanBraced_other (ne_backslash_of_not_escape hlone hescape) hopen hclose, ih hinner]
      rfl

/-- A bare value that ends before the end of the input ends there whatever comes behind. -/
theorem scanBare_append {depth : Nat} {s : List Char} (h : (scanBare depth s).rest ≠ [])
    (tail : List Char) :
    scanBare depth (s ++ tail) = ⟨(scanBare depth s).read, (scanBare depth s).rest ++ tail⟩ := by
  fun_induction scanBare depth s with
  | case1 => exact absurd rfl h
  | case2 depth c s hstop =>
      rw [List.cons_append, scanBare, if_pos hstop]
  | case3 depth s hstop ih =>
      rw [List.cons_append, scanBare, if_neg hstop, if_pos rfl, ih h]
      rfl
  | case4 depth s hstop hopen ih =>
      rw [List.cons_append, scanBare, if_neg hstop, if_neg hopen, if_pos rfl, ih h]
      rfl
  | case5 depth c s hstop hopen hclose ih =>
      rw [List.cons_append, scanBare, if_neg hstop, if_neg hopen, if_neg hclose, ih h]
      rfl

/-! ## Attributes -/

theorem readQuoted_append {quote : Char} {s rest : List Char} {value : Value}
    (h : readQuoted quote s = .ok (value, rest)) (tail : List Char) :
    readQuoted quote (s ++ tail) = .ok (value, rest ++ tail) := by
  unfold readQuoted at h
  split at h
  · next hspan =>
    cases h
    rw [readQuoted, scanQuoted_append hspan]
  · cases h

theorem readAttributeValue_append {s rest : List Char} {value : Value}
    (h : readAttributeValue s = .ok (value, rest)) (hrest : rest ≠ []) (tail : List Char) :
    readAttributeValue (s ++ tail) = .ok (value, rest ++ tail) := by
  unfold readAttributeValue at h
  split at h
  · exact readQuoted_append h tail
  · exact readQuoted_append h tail
  · next hdouble hsingle =>
    cases h
    cases s with
    | nil => exact absurd rfl hrest
    | cons c s =>
        rw [List.cons_append, readAttributeValue, ← List.cons_append, scanBare_append hrest]
        · rintro inner ⟨rfl, _⟩
          exact hdouble s rfl
        · rintro inner ⟨rfl, _⟩
          exact hsingle s rfl

theorem readAttribute_append {s rest : List Char} {a : Attribute}
    (h : readAttribute s = .ok (a, rest)) (hrest : rest ≠ []) (tail : List Char) :
    readAttribute (s ++ tail) = .ok (a, rest ++ tail) := by
  simp only [readAttribute] at h
  split at h
  · cases h
  · next hname =>
    -- something follows the name in the input itself, so the name is the same
    have hmore : (Span.ofClass isAttributeNameChar s).rest ≠ [] := by
      intro hnil
      rw [hnil] at h
      cases h
      exact hrest rfl
    have hsame : Span.ofClass isAttributeNameChar (s ++ tail) = _ :=
      Span.ofClass_append_tail fun hnil => absurd hnil hmore
    simp only [readAttribute, hsame, if_neg hname]
    split at h
    · next inner hinner =>
      obtain ⟨⟨value, after⟩, hvalue, h⟩ := bind_eq_ok.mp h
      cases h
      rw [hinner, List.cons_append]
      simp only [readAttributeValue_append hvalue hrest]
      rfl
    · next hequals =>
      cases h
      obtain ⟨c, after, hafter⟩ := List.exists_cons_of_ne_nil hmore
      rw [hafter, List.cons_append]
      split
      · next inner hinner =>
        cases hinner
        exact absurd hafter (hequals after)
      · rfl

theorem readAttributes_of_close {s rest : List Char} (h : s.dropWhile isBlank = ']' :: rest)
    (opened : List Char) (e : Element) : readAttributes opened e s = .ok (e, rest) := by
  rw [readAttributes]
  split
  · next hnil => rw [h] at hnil; cases hnil
  · next hclose => rw [h] at hclose; cases hclose; rfl
  · next hclose => exact absurd h (hclose rest)

theorem readAttributes_of_attribute {s start rest : List Char} {a : Attribute}
    (h : s.dropWhile isBlank = start) (hbracket : start.head? ≠ some ']')
    (hread : readAttribute start = .ok (a, rest)) (opened : List Char) (e : Element) :
    readAttributes opened e s =
      readAttributes opened { e with attributes := a.putLast e.attributes } rest := by
  rw [readAttributes]
  split
  · next hnil =>
    rw [← h, hnil] at hread
    cases hread
  · next hclose =>
    rw [← h, hclose] at hbracket
    exact absurd rfl hbracket
  · rw [h]
    split
    · next hfault => rw [hread] at hfault; cases hfault
    · next hok => rw [hread] at hok; cases hok; rfl

theorem readAttributes_append {opened s rest : List Char} {e e' : Element}
    (h : readAttributes opened e s = .ok (e', rest)) (opened' tail : List Char) :
    readAttributes opened' e (s ++ tail) = .ok (e', rest ++ tail) := by
  have hblanks : ∀ s : List Char, s.dropWhile isBlank ≠ [] →
      (s ++ tail).dropWhile isBlank = s.dropWhile isBlank ++ tail := by
    intro s hne
    exact congrArg Span.rest (Span.ofClass_append_tail (p := isBlank) fun hnil => absurd hnil hne)
  fun_induction readAttributes opened e s with
  | case1 => cases h
  | case2 e s inner hclose =>
      cases h
      refine readAttributes_of_close ?_ opened' _
      rw [hblanks s (by simp [hclose]), hclose, List.cons_append]
  | case3 => cases h
  | case4 e s a inner hnil hclose hread ih =>
      have hinner : inner ≠ [] := by
        rintro rfl
        rw [readAttributes] at h
        cases h
      have hstart := hblanks s hnil
      rw [readAttributes_of_attribute hstart ?_ (readAttribute_append hread hinner tail)]
      · exact ih h
      · obtain ⟨c, after, hafter⟩ := List.exists_cons_of_ne_nil hnil
        rw [hafter, List.cons_append, List.head?_cons]
        rintro ⟨rfl⟩
        exact hclose after hafter

/-! ## Elements and repeat counts -/

theorem readModifiers_close {s rest : List Char} {e e' : Element}
    (h : readModifiers e s = .ok (e', rest)) (tail : List Char) :
    readModifiers e (s ++ ')' :: tail) = .ok (e', rest ++ ')' :: tail) := by
  fun_induction readModifiers e s with
  | case1 => cases h
  | case2 e s id hid ih =>
      rw [List.cons_append, readModifiers, scanName_close, if_neg hid]
      exact ih h
  | case3 => cases h
  | case4 e s classes hclasses ih =>
      rw [List.cons_append, readModifiers, scanName_close, if_neg hclasses]
      exact ih h
  | case5 => cases h
  | case6 e s found inner hread ih =>
      rw [List.cons_append, readModifiers]
      have hsame := readAttributes_append hread ('[' :: (s ++ ')' :: tail)) (')' :: tail)
      split
      · next hfault => rw [hsame] at hfault; cases hfault
      · next hok =>
        rw [hsame] at hok
        cases hok
        exact ih h
  | case7 => cases h
  | case8 e s span hspan ih =>
      rw [List.cons_append, readModifiers]
      have hsame := scanBraced_append hspan (')' :: tail)
      split
      · next hnone => rw [hsame] at hnone; cases hnone
      · next hsome =>
        rw [hsame] at hsome
        cases hsome
        exact ih h
  | case9 e s =>
      cases h
      rw [List.cons_append, readModifiers]
  | case10 e s hid hclass hset htext hslash =>
      cases h
      rw [readModifiers]
      · exact append_close_ne_cons (by decide) hid tail
      · exact append_close_ne_cons (by decide) hclass tail
      · exact append_close_ne_cons (by decide) hset tail
      · exact append_close_ne_cons (by decide) htext tail
      · exact append_close_ne_cons (by decide) hslash tail

/-- An element is read up to a closing parenthesis as up to the end of the input. -/
theorem readElement_close {s rest : List Char} {e : Element} (h : readElement s = .ok (e, rest))
    (tail : List Char) : readElement (s ++ ')' :: tail) = .ok (e, rest ++ ')' :: tail) := by
  simp only [readElement] at h
  split at h
  · cases h
  · next hread =>
    split at h
    · next hshorter =>
      cases h
      have hlonger : (rest ++ ')' :: tail).length < (s ++ ')' :: tail).length := by
        rw [List.length_append, List.length_append]
        exact Nat.add_lt_add_right hshorter _
      simp only [readElement, scanName_close, readModifiers_close hread, if_pos hlonger]
    · split at h <;> cases h

/-- No element starts with a parenthesis. -/
theorem readElement_paren_ne_ok (s : List Char) (found : Element × List Char) :
    readElement ('(' :: s) ≠ .ok found := by
  have hname : scanName true false ('(' :: s) = ([], '(' :: s) :=
    endsName_cons (by decide) (by decide) (by simp) false
  have hmodifiers : ∀ e, readModifiers e ('(' :: s) = .ok (e, '(' :: s) := by
    intro e
    rw [readModifiers] <;> simp
  simp [readElement, hname, hmodifiers]

/-- A repeat count is read up to a closing parenthesis as up to the end of the input. -/
theorem readTimes_close {limits : Limits} {s rest : List Char} {times : Option Nat}
    (h : readTimes limits s = .ok (times, rest)) (tail : List Char) :
    readTimes limits (s ++ ')' :: tail) = .ok (times, rest ++ ')' :: tail) := by
  unfold readTimes at h
  split at h
  · next s =>
    split at h
    · cases h
    · cases h
    · next count hzero hcount =>
      split at h
      · next hfits =>
        cases h
        obtain ⟨k, rfl⟩ := Nat.exists_eq_succ_of_ne_zero hzero
        rw [List.cons_append, readTimes, scanDigits_close]
        simp only [hcount, if_pos hfits]
      · cases h
  · next hstar =>
    cases h
    rw [readTimes]
    exact append_close_ne_cons (by decide) hstar tail

end Markup

end Shorthand
