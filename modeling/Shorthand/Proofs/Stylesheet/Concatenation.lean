import Mathlib.Control.Monad.Basic
import Shorthand.Proofs.Stylesheet.RoundTrip

/-!
# Concatenation — abbreviations with a `+` between them

A `+` stands between two properties, or at the end of a name such as `bg+`. Which of the two it is
depends on what follows it: behind a name, a `+` at the end of the abbreviation is part of the name,
and so is one in front of another `+`.

So what is read before a separating `+` is what is read before the end. Scanners that stop at the
end of a class of characters stop at a `+` as well, since it is in none of the classes, and those
that look ahead see no letter and no digit there either. What follows is read as if it were alone.
-/

namespace Shorthand.Stylesheet

open Text

/-! ## Values in front of a `+` -/

theorem ofClass_append_plus {p : Char → Bool} (hp : p '+' = false) (s tail : List Char) :
    Span.ofClass p (s ++ '+' :: tail) =
      ⟨(Span.ofClass p s).read, (Span.ofClass p s).rest ++ '+' :: tail⟩ := by
  refine Span.ofClass_append_tail fun _ => ?_
  rintro c ⟨rfl⟩
  exact hp

theorem scanFraction_append_plus (s tail : List Char) :
    scanFraction (s ++ '+' :: tail) =
      ⟨(scanFraction s).read, (scanFraction s).rest ++ '+' :: tail⟩ := by
  fun_cases scanFraction s with
  | case1 d s hd =>
      have hdigits := ofClass_append_plus (p := Char.isDigit) rfl (d :: s) tail
      rw [List.cons_append] at hdigits
      rw [List.cons_append, List.cons_append, scanFraction, if_pos hd, scanDigits, hdigits]
      rfl
  | case2 d s hd => rw [List.cons_append, List.cons_append, scanFraction, if_neg hd]
  | case3 s hpoint =>
      -- a point that was the last character is now in front of the `+`
      cases s with
      | nil => rfl
      | cons c s =>
          by_cases hc : c = '.'
          · subst hc
            cases s with
            | nil => rfl
            | cons d s => exact absurd rfl (hpoint d s)
          · simp [scanFraction, hc]

theorem scanUnsigned_append_plus (s tail : List Char) :
    scanUnsigned (s ++ '+' :: tail) =
      ⟨(scanUnsigned s).read, (scanUnsigned s).rest ++ '+' :: tail⟩ := by
  simp only [scanUnsigned, scanDigits, ofClass_append_plus (p := Char.isDigit) rfl,
    scanFraction_append_plus]

theorem scanNumeral_append_plus (s tail : List Char) :
    scanNumeral (s ++ '+' :: tail) =
      ⟨(scanNumeral s).read, (scanNumeral s).rest ++ '+' :: tail⟩ := by
  by_cases hdash : s.head? = some '-'
  · obtain ⟨s, rfl⟩ := List.head?_eq_some_iff.mp hdash
    rw [List.cons_append, scanNumeral, scanNumeral, scanUnsigned_append_plus]
    rfl
  · have hdash' : (s ++ '+' :: tail).head? ≠ some '-' := by
      cases s with
      | nil => simp
      | cons c s => simpa using hdash
    rw [scanNumeral_of_head hdash, scanNumeral_of_head hdash', scanUnsigned_append_plus]

theorem readNumber_append_plus (s tail : List Char) :
    readNumber (s ++ '+' :: tail) = ((readNumber s).1, (readNumber s).2 ++ '+' :: tail) := by
  simp only [readNumber, scanNumeral_append_plus,
    ofClass_append_plus (p := fun c => c.isAlpha || c == '%') rfl]

theorem startsNumber_append_plus (s tail : List Char) :
    startsNumber (s ++ '+' :: tail) = startsNumber s := by
  cases s with
  | nil => rfl
  | cons c s =>
      by_cases hc : c = '.'
      · subst hc
        cases s <;> rfl
      · simp [startsNumber, hc]

/-- A value is the same in front of a `+` as at the end. -/
theorem readValue?_append_plus (signed : Bool) (s tail : List Char) :
    readValue? signed (s ++ '+' :: tail) =
      (readValue? signed s).map fun found => (found.1, found.2 ++ '+' :: tail) := by
  fun_cases readValue? signed s with
  | case1 => rfl
  | case2 s ok =>
      rw [← startsNumber_append_plus s tail] at ok
      rw [List.cons_append, readValue?, if_pos ok, ← List.cons_append, readNumber_append_plus]
      rfl
  | case3 s no =>
      rw [← startsNumber_append_plus s tail] at no
      rw [List.cons_append, readValue?, if_neg no]
      rfl
  | case4 s hex =>
      rw [List.cons_append, readValue?, ofClass_append_plus rfl]
      rfl
  | case5 c s hdash hhash number =>
      have number' := (startsNumber_append_plus (c :: s) tail).trans number
      rw [List.cons_append] at number' ⊢
      rw [readValue?, if_pos number', ← List.cons_append, readNumber_append_plus]
      · rfl
      · exact hdash
      · exact hhash
  | case6 c s hdash hhash notNumber alpha word =>
      have notNumber' := fun h => notNumber ((startsNumber_append_plus (c :: s) tail).symm.trans h)
      rw [List.cons_append] at notNumber' ⊢
      rw [readValue?, if_neg notNumber', if_pos alpha, ← List.cons_append,
        ofClass_append_plus rfl]
      · rfl
      · exact hdash
      · exact hhash
  | case7 c s hdash hhash notNumber notAlpha =>
      have notNumber' := fun h => notNumber ((startsNumber_append_plus (c :: s) tail).symm.trans h)
      rw [List.cons_append] at notNumber' ⊢
      rw [readValue?, if_neg notNumber', if_neg notAlpha]
      · rfl
      · exact hdash
      · exact hhash

theorem head?_append_plus {c : Char} (hc : c ≠ '+') (s tail : List Char) :
    (s ++ '+' :: tail).head? = some c ↔ s.head? = some c := by
  cases s with
  | nil => simpa using hc.symm
  | cons d s => simp

/-- Values that can be read are the same in front of a `+`. A dash that nothing follows is an error
only at the end. -/
theorem readValues_append_plus {empty signed : Bool} {s rest : List Char} {values : List RawValue}
    (h : readValues empty signed s = .ok (values, rest)) (tail : List Char) :
    readValues empty signed (s ++ '+' :: tail) = .ok (values, rest ++ '+' :: tail) := by
  have hread : ∀ {signed : Bool} {s : List Char}, readValue? signed s = none →
      readValue? signed (s ++ '+' :: tail) = none := by
    intro signed s hnone
    rw [readValue?_append_plus, hnone, Option.map_none]
  fun_induction readValues empty signed s generalizing values rest with
  | case1 empty signed s value left found ih =>
      obtain ⟨⟨others, last⟩, hothers, h⟩ := bind_eq_ok.mp h
      cases h
      have found' : readValue? signed (s ++ '+' :: tail) = some (value, left ++ '+' :: tail) := by
        rw [readValue?_append_plus, found, Option.map_some]
      rw [readValues_of_some found', ih hothers]
      rfl
  | case2 => cases h
  | case3 empty signed s hnone hdash hmore ih =>
      obtain ⟨s, rfl⟩ := List.head?_eq_some_iff.mp hdash
      have hmore' : (empty && (s ++ '+' :: tail).isEmpty) = false := by simp
      rw [readValues_of_dash (hread hnone) rfl hmore']
      exact ih h
  | case4 empty signed s hnone hdash =>
      cases h
      exact readValues_of_none (hread hnone)
        (fun hhead => hdash ((head?_append_plus (by decide) s tail).mp hhead))

/-! ## Names in front of a `+` -/

theorem startsLetter_append_plus (s tail : List Char) :
    startsLetter (s ++ '+' :: tail) = startsLetter s := by
  cases s <;> rfl

/-- A `+` belongs to the name before it if nothing follows or another `+`. So it does not matter to
it whether it is the last character or the last one before another `+`. -/
theorem endsName_append_plus (s tail : List Char) :
    ((s ++ '+' :: tail).isEmpty || (s ++ '+' :: tail).head? == some '+') =
      (s.isEmpty || s.head? == some '+') := by
  cases s <;> rfl

/-- What can follow the `+` between two properties: not nothing, and not another `+`. -/
def StartsProperty (s : List Char) : Prop := (s.isEmpty || s.head? == some '+') = false

section

variable {tail : List Char} (htail : StartsProperty tail)
include htail

theorem scanNameTail_append_plus (started : Bool) (s : List Char) :
    scanNameTail started (s ++ '+' :: tail) =
      ⟨(scanNameTail started s).read, (scanNameTail started s).rest ++ '+' :: tail⟩ := by
  fun_induction scanNameTail started s with
  | case1 started =>
      have hends : (tail.isEmpty || tail.head? == some '+') = false := htail
      rw [List.nil_append, scanNameTail, hends, Bool.and_false, if_neg Bool.false_ne_true]
  | case2 started s ends =>
      rw [List.cons_append, scanNameTail, endsName_append_plus, if_pos ends]
  | case3 started s goesOn =>
      rw [List.cons_append, scanNameTail, endsName_append_plus, if_neg goesOn]
  | case4 started s letter ih =>
      rw [List.cons_append, scanNameTail, startsLetter_append_plus, if_pos letter, ih]
      rfl
  | case5 started s letter =>
      rw [List.cons_append, scanNameTail, startsLetter_append_plus, if_neg letter]
  | case6 started c s _ _ alpha ih =>
      rw [List.cons_append, scanNameTail_letter started alpha, ih]
      rfl
  | case7 started c s hplus hdash alpha =>
      rw [List.cons_append, scanNameTail, if_neg alpha]
      · exact hplus
      · exact hdash

theorem scanPropertyName_append_plus (s : List Char) :
    scanPropertyName (s ++ '+' :: tail) =
      ⟨(scanPropertyName s).read, (scanPropertyName s).rest ++ '+' :: tail⟩ := by
  fun_cases scanPropertyName s with
  | case1 s letter =>
      have letter' := (startsLetter_append_plus s tail).trans letter
      rw [List.cons_append, scanPropertyName_sign letter', scanNameTail_append_plus htail]
      rfl
  | case2 s letter =>
      rw [List.cons_append, scanPropertyName, startsLetter_append_plus, if_neg letter]
  | case3 s hsign =>
      have hhead : s.head? ≠ some '@' := by
        intro hhead
        obtain ⟨s, rfl⟩ := List.head?_eq_some_iff.mp hhead
        exact hsign s rfl
      rw [scanPropertyName_of_head, scanNameTail_append_plus htail]
      exact fun h => hhead ((head?_append_plus (by decide) s tail).mp h)

/-! ## Properties in front of a `+` -/

omit htail in
theorem dropChar_append_plus {c : Char} (hc : c ≠ '+') (s tail : List Char) :
    dropChar c (s ++ '+' :: tail) = dropChar c s ++ '+' :: tail := by
  by_cases hhead : s.head? = some c
  · obtain ⟨s, rfl⟩ := List.head?_eq_some_iff.mp hhead
    simp [dropChar]
  · rw [dropChar_of_head hhead,
      dropChar_of_head fun h => hhead ((head?_append_plus hc s tail).mp h)]

theorem readProperty_append_plus {s rest : List Char} {p : RawProperty}
    (h : readProperty s = .ok (p, rest)) :
    readProperty (s ++ '+' :: tail) = .ok (p, rest ++ '+' :: tail) := by
  simp only [readProperty] at h
  split at h
  · split at h
    · cases h
    · split at h <;> cases h
  · next named =>
    split at h
    · cases h
    · next values left hvalues =>
      cases h
      have hvalues' := readValues_append_plus hvalues tail
      rw [← dropChar_append_plus (by decide)] at hvalues'
      have hbang : ((left ++ '+' :: tail).head? == some '!') = (left.head? == some '!') := by
        cases left <;> rfl
      simp only [readProperty, scanPropertyName_append_plus htail, if_neg named, hvalues', hbang,
        dropChar_append_plus (show '!' ≠ '+' by decide)]

theorem readProperties_append_plus {s : List Char} {xs ys : List RawProperty}
    (h : readProperties s = .ok xs) (hys : readProperties tail = .ok ys) :
    readProperties (s ++ '+' :: tail) = .ok (xs ++ ys) := by
  fun_induction readProperties s generalizing xs with
  | case1 => cases h
  | case2 s p hread =>
      cases h
      rw [readProperties_of_plus (readProperty_append_plus htail hread), hys]
      rfl
  | case3 s p rest hread ih =>
      obtain ⟨others, hothers, h⟩ := bind_eq_ok.mp h
      cases h
      have hread' : readProperty (s ++ '+' :: tail) = .ok (p, '+' :: (rest ++ '+' :: tail)) :=
        readProperty_append_plus htail hread
      rw [readProperties_of_plus hread', ih hothers]
      rfl
  | case4 => cases h

end

/-- An abbreviation that can be read starts with a property. -/
theorem startsProperty_of_readProperties {s : List Char} {properties : List RawProperty}
    (h : readProperties s = .ok properties) : StartsProperty s := by
  have hread : ∀ f, readProperty s ≠ .error f := by
    intro f hf
    rw [readProperties] at h
    split at h
    · cases h
    · next hok => cases hf.symm.trans hok
    · next hok => cases hf.symm.trans hok
  cases s with
  | nil => exact absurd rfl (hread _)
  | cons c s =>
      have hc : c ≠ '+' := by
        rintro rfl
        exact absurd rfl (hread _)
      simpa [StartsProperty] using hc

/-- **A `+` joins stylesheet abbreviations.** Two that can be read can be read with a `+` between
them, if that is not too long, and mean the properties of the first and then those of the second. -/
theorem read_append_plus {limits : Limits} {a b : String} {xs ys : List RawProperty}
    (ha : read limits a = .ok xs) (hb : read limits b = .ok ys)
    (hfits : (a ++ "+" ++ b).length ≤ limits.abbreviationLength) :
    read limits (a ++ "+" ++ b) = .ok (xs ++ ys) := by
  have hxs := (read_eq_ok_iff.mp ha).2
  have hys := (read_eq_ok_iff.mp hb).2
  have hchars : (a ++ "+" ++ b).toList = a.toList ++ '+' :: b.toList := by
    simp [String.toList_append]
  refine read_eq_ok_iff.mpr ⟨by rwa [String.length_toList], ?_⟩
  rw [hchars]
  exact readProperties_append_plus (startsProperty_of_readProperties hys) hxs hys

/-- The first one ends in the name of a snippet, after a dash that nothing follows and a property
without values. -/
theorem read_append_plus_snippet :
    read {} "p10-+m!+bg+" = .ok
        [⟨"p", [.number "10" none], false⟩, ⟨"m", [], true⟩, ⟨"bg+", [], false⟩] ∧
      read {} "@f++c#" = .ok [⟨"@f+", [], false⟩, ⟨"c", [.color ""], false⟩] ∧
      read {} ("p10-+m!+bg+" ++ "+" ++ "@f++c#") = .ok
        [⟨"p", [.number "10" none], false⟩, ⟨"m", [], true⟩, ⟨"bg+", [], false⟩,
          ⟨"@f+", [], false⟩, ⟨"c", [.color ""], false⟩] := by
  have ha : read {} "p10-+m!+bg+" = .ok
      [⟨"p", [.number "10" none], false⟩, ⟨"m", [], true⟩, ⟨"bg+", [], false⟩] := by
    decide +kernel
  have hb : read {} "@f++c#" = .ok [⟨"@f+", [], false⟩, ⟨"c", [.color ""], false⟩] := by
    decide +kernel
  exact ⟨ha, hb, read_append_plus ha hb (by decide)⟩

end Shorthand.Stylesheet
