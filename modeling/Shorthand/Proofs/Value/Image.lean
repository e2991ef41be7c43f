import Shorthand.Proofs.Value.Printing

/-!
# Image — the values that the reader gives

Fields, numberings and escapes share the dollar and the backslash, and what is not well-formed falls
back to text. Whatever the input, the tokens that come out are canonical (`canonical_read`): the
reader has a case for each kind of token, and each of them is looked at here with the scanner that
it uses. Together with `read_print` this says which values there are: the canonical ones, and
printing finds a text for each of them.
-/

namespace Shorthand

open Text

/-! ## Numbers -/

theorem le_wordMax_of_decimal? {digits : List Char} {n : Nat} (h : decimal? digits = some n) :
    n ≤ wordMax := by
  simp only [decimal?] at h
  split at h
  · cases h
  · split at h
    · cases h
      assumption
    · cases h

theorem one_le_wordMax : 1 ≤ wordMax := by decide

/-- The base of a numbering fits, also where the digits do not and one stands in. -/
theorem getD_decimal?_le (digits : List Char) : (decimal? digits).getD 1 ≤ wordMax := by
  cases h : decimal? digits with
  | none => exact one_le_wordMax
  | some n => exact le_wordMax_of_decimal? h

namespace Numbering

theorem size_scanModifier (size : Nat) (s : List Char) : (scanModifier size s).1.size = size := by
  fun_cases scanModifier size s <;> rfl

theorem base_scanModifier_le (size : Nat) (s : List Char) :
    (scanModifier size s).1.base ≤ wordMax := by
  fun_cases scanModifier size s with
  | case1 tail base => exact getD_decimal?_le base.read
  | case2 => exact one_le_wordMax
  | case3 tail _ base hdigits => exact getD_decimal?_le base.read
  | case4 => exact one_le_wordMax

theorem canonical_scan (s : List Char) : (Token.number (scan ('$' :: s)).1).Canonical := by
  refine ⟨?_, base_scanModifier_le _ _⟩
  rw [scan, size_scanModifier]
  simp [Span.ofClass]

end Numbering

/-! ## Tab-stops -/

/-- A placeholder ends where its braces have closed. -/
theorem braceDepth?_scanPlaceholder {depth : Nat} {s : List Char} {span : Span}
    (h : Token.scanPlaceholder depth s = some span) : braceDepth? depth span.read = some 0 := by
  fun_induction Token.scanPlaceholder depth s generalizing span with
  | case1 => cases h
  | case2 depth s ih =>
    obtain ⟨inner, hinner, rfl⟩ := Option.map_eq_some_iff.1 h
    rw [Span.read_cons, braceDepth?_open]
    exact ih hinner
  | case3 s =>
    cases h
    rfl
  | case4 s _ depth ih =>
    obtain ⟨inner, hinner, rfl⟩ := Option.map_eq_some_iff.1 h
    rw [Span.read_cons, braceDepth?_close]
    exact ih hinner
  | case5 depth c s hopen hclose ih =>
    obtain ⟨inner, hinner, rfl⟩ := Option.map_eq_some_iff.1 h
    rw [Span.read_cons, braceDepth?_other hopen hclose]
    exact ih hinner

/-- A tab-stop that is read is canonical, and no text. -/
theorem canonical_scanField {s rest : List Char} {t : Token}
    (h : Token.scanField s = some (t, rest)) : t.Canonical ∧ t.isText = false := by
  unfold Token.scanField at h
  split at h
  · next hindex _ =>
    cases h
    exact ⟨⟨le_wordMax_of_decimal? hindex, by simp⟩, rfl⟩
  · next hindex _ =>
    obtain ⟨span, hspan, he⟩ := Option.map_eq_some_iff.1 h
    cases he
    refine ⟨⟨le_wordMax_of_decimal? hindex, ?_⟩, rfl⟩
    rintro _ ⟨rfl⟩
    rw [String.toList_ofList]
    exact braceDepth?_scanPlaceholder hspan
  · cases h

/-! ## Values -/

namespace Value

/-- A token that is no text can stand before any value. -/
theorem Canonical.cons {t : Token} {v : Value} (ht : t.Canonical) (htext : t.isText = false)
    (hv : v.Canonical) : Value.Canonical (t :: v) :=
  ⟨ht, fun h => absurd h (by rw [htext]; exact Bool.false_ne_true), hv⟩

/-- A character in front makes a text longer, or a text of its own where none is there. -/
theorem Canonical.consChar {v : Value} (hv : v.Canonical) (c : Char) :
    (consChar c v).Canonical := by
  have hsingle : (Token.text (String.singleton c)).Canonical := String.singleton_ne_empty
  cases v with
  | nil => exact ⟨hsingle, by simp, trivial⟩
  | cons t v =>
      cases t with
      | text s =>
          have hlonger : String.singleton c ++ s ≠ "" := by simp
          exact ⟨hlonger, hv.2⟩
      | field index placeholder =>
          refine ⟨hsingle, ?_, hv⟩
          rintro _ _ ⟨rfl⟩
          rfl
      | number n =>
          refine ⟨hsingle, ?_, hv⟩
          rintro _ _ ⟨rfl⟩
          rfl

/-- **Whatever is read is canonical.** -/
theorem canonical_read (s : List Char) : (read s).Canonical := by
  fun_induction read s with
  | case1 => trivial
  | case2 c s ih => exact ih.consChar c
  | case3 s token rest hfound ih =>
    obtain ⟨htoken, htext⟩ := canonical_scanField hfound
    exact ih.cons htoken htext
  | case4 s _ ih => exact ih.consChar '$'
  | case5 s _ ih => exact ih.cons (Numbering.canonical_scan s) rfl
  | case6 c s _ _ _ ih => exact ih.consChar c

/-- **Reading values can be undone on its image.** A string always gives a canonical value: its
texts are not empty and not next to each other, its placeholders are balanced, its runs of dollars
are not empty and its numbers fit. And every canonical value is what its printout gives. -/
theorem ofString_canonical_and_print :
    (∀ s : String, (ofString s).Canonical) ∧
      ∀ v : Value, v.Canonical → ofString (String.ofList v.print) = v := by
  refine ⟨fun s => canonical_read s.toList, fun v hv => ?_⟩
  rw [ofString, String.toList_ofList]
  exact read_print hv

/-- Tokens that would run into each other if they were written carelessly: text that looks like a
field or like the base of the numbering before it, and two numberings side by side. -/
def crowded : Value :=
  [.text "$\x7b1\x7d\\", .field 1 (some "a\x7bb\x7d"), .number { size := 2 }, .text "5",
    .number { size := 1, reverse := true, base := 0 }, .number { size := 3, base := 18 },
    .field 0 none]

theorem ofString_print_crowded :
    crowded.Canonical ∧ ofString (String.ofList crowded.print) = crowded := by
  have hcrowded : crowded.Canonical := by decide
  exact ⟨hcrowded, ofString_canonical_and_print.2 crowded hcrowded⟩

end Value

end Shorthand
