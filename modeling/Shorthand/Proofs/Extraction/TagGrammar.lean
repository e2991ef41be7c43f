import Shorthand.Proofs.Extraction.Recovery

/-!
# TagGrammar — what counts as the end of a tag

`IsTag` says what a tag looks like, from left to right: a name, attributes behind blanks, and the
closing bracket. The check for a tag goes from right to left and never sees more of the tag than
what is left of it, so it has to know from the last characters which construct they end.

They always tell: a quote ends a value, `=` stands before a value without quotes, a blank before an
attribute, and `<` or `</` before the name. `ending_eq_opening_iff` and `ending_eq_attribute_iff`
say this of one round of the check, and `endsInTag_iff` of the whole loop.
-/

namespace Shorthand.Extraction

open Text

/-! ## The grammar -/

/-- ASCII letters and digits, and the marks that can stand in a name. -/
def IsIdentifierChar (c : Char) : Prop :=
  ('a' ≤ c ∧ c ≤ 'z') ∨ ('A' ≤ c ∧ c ≤ 'Z') ∨ ('0' ≤ c ∧ c ≤ '9') ∨ c ∈ ['-', '_', ':', '.']

def IsIdentifier (s : List Char) : Prop := s ≠ [] ∧ ∀ c ∈ s, IsIdentifierChar c

/-- An attribute: a name alone, or with a value that is an identifier or stands in quotes. -/
inductive IsAttribute : List Char → Prop
  | name {name : List Char} (hname : IsIdentifier name) : IsAttribute name
  | bare {name value : List Char} (hname : IsIdentifier name) (hvalue : IsIdentifier value) :
      IsAttribute (name ++ '=' :: value)
  | quoted {name value : List Char} {quote : Char} (hname : IsIdentifier name)
      (hquote : quote = '"' ∨ quote = '\'') (hvalue : quote ∉ value) :
      IsAttribute (name ++ '=' :: quote :: (value ++ [quote]))

/-- A slash, or nothing. -/
def OptionalSlash (s : List Char) : Prop := s = [] ∨ s = ['/']

/-- Any number of blanks. -/
def Blanks (s : List Char) : Prop := ∀ c ∈ s, isBlank c = true

/-- A tag up to the end of its name or of its last attribute. -/
inductive TagStart : List Char → Prop
  | opening {slash name : List Char} (hslash : OptionalSlash slash) (hname : IsIdentifier name) :
      TagStart ('<' :: (slash ++ name))
  | further {start blanks last : List Char} (hstart : TagStart start) (hsome : blanks ≠ [])
      (hblanks : Blanks blanks) (hlast : IsAttribute last) : TagStart (start ++ blanks ++ last)

/-- A whole tag. -/
def IsTag (s : List Char) : Prop :=
  ∃ start blanks slash, TagStart start ∧ Blanks blanks ∧ OptionalSlash slash ∧
    s = start ++ blanks ++ slash ++ ['>']

/-! ## Characters -/

theorem isIdentChar_iff {c : Char} : isIdentChar c = true ↔ IsIdentifierChar c := by
  delta isIdentChar IsIdentifierChar Char.isAlphanum Char.isAlpha Char.isUpper Char.isLower
    Char.isDigit
  simp only [Bool.or_eq_true, Bool.and_eq_true, decide_eq_true_eq, beq_iff_eq, List.mem_cons,
    List.not_mem_nil, or_false, Char.le_def, ge_iff_le]
  grind

theorem isIdentifier_iff {s : List Char} :
    IsIdentifier s ↔ s ≠ [] ∧ ∀ c ∈ s, isIdentChar c = true := by
  simp only [IsIdentifier, isIdentChar_iff]

/-- The characters of identifiers lie between the minus and the small letters. -/
theorem toNat_of_isIdentChar {c : Char} (h : isIdentChar c = true) :
    0x2D ≤ c.toNat ∧ c.toNat ≤ 0x7A := by
  rw [isIdentChar_iff] at h
  simp only [IsIdentifierChar, Char.le_def, UInt32.le_iff_toNat_le, List.mem_cons,
    List.not_mem_nil, or_false] at h
  rcases h with ⟨hlow, hhigh⟩ | ⟨hlow, hhigh⟩ | ⟨hlow, hhigh⟩ | rfl | rfl | rfl | rfl
  · exact ⟨Nat.le_trans (by decide) hlow, hhigh⟩
  · exact ⟨Nat.le_trans (by decide) hlow, Nat.le_trans hhigh (by decide)⟩
  · exact ⟨Nat.le_trans (by decide) hlow, Nat.le_trans hhigh (by decide)⟩
  all_goals decide

theorem isBlank_eq_false_of_isIdentChar {c : Char} (h : isIdentChar c = true) :
    isBlank c = false := by
  obtain ⟨hlow, hhigh⟩ := toNat_of_isIdentChar h
  simp only [isBlank, Bool.or_eq_false_iff, Bool.and_eq_false_iff, decide_eq_false_iff_not,
    beq_eq_false_iff_ne]
  omega

theorem isQuote_iff {c : Char} : isQuote c = true ↔ c = '"' ∨ c = '\'' := by
  simp only [isQuote, Bool.or_eq_true, beq_iff_eq]

theorem isQuote_eq_false_of_isIdentChar {c : Char} (h : isIdentChar c = true) :
    isQuote c = false := by
  obtain ⟨hlow, _⟩ := toNat_of_isIdentChar h
  simp only [isQuote, Bool.or_eq_false_iff, beq_eq_false_iff_ne]
  constructor <;>
  · rintro rfl
    exact absurd hlow (by decide)

/-! ## Scanners -/

/-- A text that starts with a blank. -/
def StartsBlank (s : List Char) : Prop := ∃ c rest, s = c :: rest ∧ isBlank c = true

theorem StartsBlank.not_ident {s : List Char} (h : StartsBlank s) :
    ∀ c ∈ s.head?, isIdentChar c = false := by
  obtain ⟨c, rest, rfl, hc⟩ := h
  rintro _ ⟨rfl⟩
  cases hident : isIdentChar c with
  | false => rfl
  | true => exact absurd hc (by rw [isBlank_eq_false_of_isIdentChar hident]; decide)

/-- A run of a class is passed, as far as it goes. -/
theorem dropWhile_append {p : Char → Bool} {s rest : List Char} (hs : ∀ c ∈ s, p c = true)
    (hrest : ∀ c ∈ rest.head?, p c = false) : (s ++ rest).dropWhile p = rest :=
  congrArg Span.rest (Span.ofClass_append hs hrest)

theorem eq_false_of_head_dropWhile {p : Char → Bool} {s : List Char} :
    ∀ c ∈ (s.dropWhile p).head?, p c = false := by
  intro c hc
  have hstop := List.head?_dropWhile_not p s
  rw [Option.mem_def.mp hc] at hstop
  simpa using hstop

theorem beforeIdent?_eq_some_iff {s rest : List Char} :
    beforeIdent? s = some rest ↔
      ∃ name, IsIdentifier name ∧ (∀ c ∈ rest.head?, isIdentChar c = false) ∧
        s = name.reverse ++ rest := by
  constructor
  · intro h
    unfold beforeIdent? at h
    split at h
    · next hshort =>
      cases h
      refine ⟨(s.takeWhile isIdentChar).reverse, isIdentifier_iff.mpr ⟨?_, ?_⟩,
        eq_false_of_head_dropWhile, ?_⟩
      · intro hnil
        have hsplit := congrArg List.length (List.takeWhile_append_dropWhile (p := isIdentChar)
          (l := s))
        rw [List.reverse_eq_nil_iff.mp hnil] at hsplit
        simp only [List.nil_append] at hsplit
        omega
      · intro c hc
        exact List.all_eq_true.mp List.all_takeWhile c (List.mem_reverse.mp hc)
      · rw [List.reverse_reverse, List.takeWhile_append_dropWhile]
    · cases h
  · rintro ⟨name, hname, hrest, rfl⟩
    obtain ⟨hne, hchars⟩ := isIdentifier_iff.mp hname
    have hdrop : (name.reverse ++ rest).dropWhile isIdentChar = rest :=
      dropWhile_append (fun c hc => hchars c (List.mem_reverse.mp hc)) hrest
    have hpos := List.length_pos_iff.mpr hne
    rw [beforeIdent?, hdrop, if_pos (by simp; omega)]

theorem beforeAttributeName?_eq_some_iff {s rest : List Char} :
    beforeAttributeName? s = some rest ↔
      ∃ name, IsIdentifier name ∧ StartsBlank rest ∧ s = name.reverse ++ rest := by
  constructor
  · intro h
    unfold beforeAttributeName? at h
    split at h
    · next c tail hident =>
      split at h
      · next hc =>
        cases h
        obtain ⟨name, hname, _, hs⟩ := beforeIdent?_eq_some_iff.mp hident
        exact ⟨name, hname, ⟨c, tail, rfl, hc⟩, hs⟩
      · cases h
    · cases h
  · rintro ⟨name, hname, ⟨c, tail, rfl, hc⟩, rfl⟩
    have hident : beforeIdent? (name.reverse ++ c :: tail) = some (c :: tail) := by
      refine beforeIdent?_eq_some_iff.mpr ⟨name, hname, ?_, rfl⟩
      exact StartsBlank.not_ident ⟨c, tail, rfl, hc⟩
    simp only [beforeAttributeName?, hident, hc, if_true]

theorem beforeQuoted?_eq_some_iff {quote : Char} {s rest : List Char} :
    beforeQuoted? quote s = some rest ↔
      ∃ value : List Char, quote ∉ value ∧ s = value.reverse ++ quote :: '=' :: rest := by
  constructor
  · intro h
    unfold beforeQuoted? at h
    split at h
    · next first _ hdrop =>
      cases h
      have hfirst : first = quote := by
        have := eq_false_of_head_dropWhile (p := (· != quote)) (s := s) first (by rw [hdrop]; rfl)
        simpa using this
      refine ⟨(s.takeWhile (· != quote)).reverse, ?_, ?_⟩
      · intro hmem
        have := List.all_eq_true.mp List.all_takeWhile _ (List.mem_reverse.mp hmem)
        simp at this
      · rw [List.reverse_reverse, ← hfirst, ← hdrop, hfirst, List.takeWhile_append_dropWhile]
    · cases h
  · rintro ⟨value, hvalue, rfl⟩
    have hdrop : (value.reverse ++ quote :: '=' :: rest).dropWhile (· != quote) =
        quote :: '=' :: rest := by
      refine dropWhile_append (fun c hc => ?_) (by simp)
      have hne : c ≠ quote := fun h => hvalue (h ▸ List.mem_reverse.mp hc)
      simpa using hne
    simp only [beforeQuoted?, hdrop]

/-! ## One round of the check -/

/-- What is looked at where the text ends with an identifier: what stands before it. -/
theorem ending_ident {name : List Char} (hname : IsIdentifier name) (rest : List Char)
    (hrest : ∀ c ∈ rest.head?, isIdentChar c = false) :
    ∃ c tail, name.reverse ++ rest = c :: tail ∧ isQuote c = false ∧
      beforeIdent? (c :: tail) = some rest := by
  obtain ⟨hne, hchars⟩ := isIdentifier_iff.mp hname
  obtain ⟨c, chars, hc⟩ := List.exists_cons_of_ne_nil (mt List.reverse_eq_nil_iff.mp hne)
  refine ⟨c, chars ++ rest, by rw [hc, List.cons_append], ?_, ?_⟩
  · exact isQuote_eq_false_of_isIdentChar
      (hchars c (List.mem_reverse.mp (hc ▸ List.mem_cons_self)))
  · exact beforeIdent?_eq_some_iff.mpr ⟨name, hname, hrest, by rw [hc, List.cons_append]⟩

/-- The text ends with the name of a tag that opens there. -/
theorem ending_eq_opening_iff {s : List Char} :
    ending s = .opening ↔
      ∃ slash name rest, OptionalSlash slash ∧ IsIdentifier name ∧
        s = ('<' :: (slash ++ name)).reverse ++ rest := by
  constructor
  · intro h
    unfold ending at h
    split at h
    · cases h
    · split at h
      · split at h <;> cases h
      · split at h
        · next rest hident =>
          obtain ⟨name, hname, _, hs⟩ := beforeIdent?_eq_some_iff.mp hident
          exact ⟨[], name, rest, .inl rfl, hname, by simpa using hs⟩
        · next rest hident =>
          obtain ⟨name, hname, _, hs⟩ := beforeIdent?_eq_some_iff.mp hident
          exact ⟨['/'], name, rest, .inr rfl, hname, by simpa using hs⟩
        · split at h <;> cases h
        · split at h <;> cases h
        · cases h
  · rintro ⟨slash, name, rest, rfl | rfl, hname, rfl⟩
    · obtain ⟨c, tail, heq, hquote, hident⟩ :=
        ending_ident hname ('<' :: rest) (by rintro _ ⟨rfl⟩; rfl)
      have hs : ('<' :: ([] ++ name)).reverse ++ rest = c :: tail := by simpa using heq
      simp only [hs, ending, hquote, hident, Bool.false_eq_true, if_false]
    · obtain ⟨c, tail, heq, hquote, hident⟩ :=
        ending_ident hname ('/' :: '<' :: rest) (by rintro _ ⟨rfl⟩; rfl)
      have hs : ('<' :: (['/'] ++ name)).reverse ++ rest = c :: tail := by simpa using heq
      simp only [hs, ending, hquote, hident, Bool.false_eq_true, if_false]

/-- The text ends with an attribute, and a blank before it. -/
theorem ending_eq_attribute_iff {s before : List Char} :
    ending s = .attribute before ↔
      ∃ last, IsAttribute last ∧ StartsBlank before ∧ s = last.reverse ++ before := by
  constructor
  · intro h
    unfold ending at h
    split at h
    · cases h
    · next c tail =>
      split at h
      · next hquote =>
        split at h
        · next hbind =>
          cases h
          obtain ⟨rest, hquoted, hnamed⟩ := Option.bind_eq_some_iff.mp hbind
          obtain ⟨value, hvalue, rfl⟩ := beforeQuoted?_eq_some_iff.mp hquoted
          obtain ⟨name, hname, hblank, rfl⟩ := beforeAttributeName?_eq_some_iff.mp hnamed
          exact ⟨_, .quoted hname (isQuote_iff.mp hquote) hvalue, hblank, by simp⟩
        · cases h
      · split at h
        · cases h
        · cases h
        · next hident =>
          obtain ⟨value, hvalue, _, hs⟩ := beforeIdent?_eq_some_iff.mp hident
          split at h
          · next hnamed =>
            cases h
            obtain ⟨name, hname, hblank, rfl⟩ := beforeAttributeName?_eq_some_iff.mp hnamed
            exact ⟨_, .bare hname hvalue, hblank, by simpa using hs⟩
          · cases h
        · next b rest _ _ _ hident =>
          obtain ⟨name, hname, _, hs⟩ := beforeIdent?_eq_some_iff.mp hident
          split at h
          · next hblank =>
            cases h
            exact ⟨name, .name hname, ⟨b, rest, rfl, hblank⟩, hs⟩
          · cases h
        · cases h
  · rintro ⟨last, hlast, hblank, rfl⟩
    cases hlast with
    | name hname =>
      obtain ⟨c, tail, heq, hquote, hident⟩ := ending_ident hname before hblank.not_ident
      obtain ⟨b, rest, rfl, hb⟩ := hblank
      simp only [heq, ending, hquote, hident, Bool.false_eq_true, if_false]
      -- a blank is none of the characters that tell another ending
      split
      · next h => cases h; exact absurd hb (by decide)
      · next h => cases h; exact absurd hb (by decide)
      · next h => cases h; exact absurd hb (by decide)
      · next h =>
        cases h
        rw [if_pos hb]
      · next h => exact absurd rfl (h _ _)
    | @bare name value hname hvalue =>
      have hbefore : beforeAttributeName? (name.reverse ++ before) = some before :=
        beforeAttributeName?_eq_some_iff.mpr ⟨name, hname, hblank, rfl⟩
      obtain ⟨c, tail, heq, hquote, hident⟩ :=
        ending_ident hvalue ('=' :: (name.reverse ++ before)) (by rintro _ ⟨rfl⟩; rfl)
      have hs : (name ++ '=' :: value).reverse ++ before = c :: tail := by simpa using heq
      simp only [hs, ending, hquote, hident, hbefore, Bool.false_eq_true, if_false]
    | @quoted name value quote hname hquote hvalue =>
      have hbefore : (beforeQuoted? quote
          (value.reverse ++ quote :: '=' :: (name.reverse ++ before))).bind beforeAttributeName? =
          some before := by
        rw [beforeQuoted?_eq_some_iff.mpr ⟨value, hvalue, rfl⟩]
        exact beforeAttributeName?_eq_some_iff.mpr ⟨name, hname, hblank, rfl⟩
      have hs : (name ++ '=' :: quote :: (value ++ [quote])).reverse ++ before =
          quote :: (value.reverse ++ quote :: '=' :: (name.reverse ++ before)) := by simp
      simp only [hs, ending, isQuote_iff.mpr hquote, hbefore, if_true]

/-! ## The loop -/

/-- A text whose last character is not blank. -/
def EndsSolid (s : List Char) : Prop := ∃ front c, s = front ++ [c] ∧ isBlank c = false

theorem EndsSolid.append {s : List Char} (h : EndsSolid s) (front : List Char) :
    EndsSolid (front ++ s) := by
  obtain ⟨inner, c, rfl, hc⟩ := h
  exact ⟨front ++ inner, c, (List.append_assoc ..).symm, hc⟩

theorem IsIdentifier.endsSolid {s : List Char} (h : IsIdentifier s) : EndsSolid s := by
  obtain ⟨hne, hchars⟩ := isIdentifier_iff.mp h
  exact ⟨s.dropLast, s.getLast hne, (List.dropLast_concat_getLast hne).symm,
    isBlank_eq_false_of_isIdentChar (hchars _ (List.getLast_mem hne))⟩

theorem IsAttribute.endsSolid {s : List Char} (h : IsAttribute s) : EndsSolid s := by
  cases h with
  | name hname => exact hname.endsSolid
  | @bare name value _ hvalue => exact hvalue.endsSolid.append ['='] |>.append name
  | @quoted name value quote _ hquote =>
    refine ⟨name ++ '=' :: quote :: value, quote, by simp, ?_⟩
    rcases hquote with rfl | rfl <;> decide

theorem TagStart.endsSolid {s : List Char} (h : TagStart s) : EndsSolid s := by
  cases h with
  | @opening slash name _ hname => exact hname.endsSolid.append ('<' :: slash)
  | @further start blanks last _ _ _ hlast => exact hlast.endsSolid.append (start ++ blanks)

/-- Blanks behind such a text are passed, and nothing of the text. -/
theorem EndsSolid.dropWhile_isBlank {s blanks : List Char} (h : EndsSolid s)
    (hblanks : Blanks blanks) (rest : List Char) :
    ((s ++ blanks).reverse ++ rest).dropWhile isBlank = s.reverse ++ rest := by
  obtain ⟨front, c, rfl, hc⟩ := h
  rw [List.reverse_append, List.append_assoc]
  refine dropWhile_append (fun b hb => hblanks b (List.mem_reverse.mp hb)) ?_
  simpa using hc

theorem blanks_takeWhile (s : List Char) : Blanks (s.takeWhile isBlank).reverse :=
  fun c hc => List.all_eq_true.mp List.all_takeWhile c (List.mem_reverse.mp hc)

/-- A text starts with its blanks, and goes on with what is behind them. -/
theorem eq_of_dropWhile_isBlank {s behind : List Char} (h : s.dropWhile isBlank = behind) :
    s = (s.takeWhile isBlank).reverse.reverse ++ behind := by
  rw [List.reverse_reverse, ← h, List.takeWhile_append_dropWhile]

theorem endsInTag_eq (s : List Char) :
    endsInTag s =
      match ending (s.dropWhile isBlank) with
      | .opening => true
      | .attribute before => endsInTag before
      | .other => false := by
  rw [endsInTag]
  split
  · next h => rw [h]
  · next h => rw [h]
  · next h => rw [h]

/-- **The check goes back through attributes to the start of a tag.** -/
theorem endsInTag_iff {s : List Char} :
    endsInTag s = true ↔ ∃ start blanks rest, TagStart start ∧ Blanks blanks ∧
      s = (start ++ blanks).reverse ++ rest := by
  constructor
  · intro h
    fun_induction endsInTag s with
    | case1 s hending =>
      obtain ⟨slash, name, rest, hslash, hname, hs⟩ := ending_eq_opening_iff.mp hending
      refine ⟨_, _, rest, .opening hslash hname, blanks_takeWhile s, ?_⟩
      rw [List.reverse_append, List.append_assoc]
      exact eq_of_dropWhile_isBlank hs
    | case2 s before hending ih =>
      obtain ⟨start, blanks, rest, hstart, hblanks, rfl⟩ := ih h
      obtain ⟨last, hlast, hblank, hs⟩ := ending_eq_attribute_iff.mp hending
      -- the blank before the attribute is not the end of what is before it
      have hsome : blanks ≠ [] := by
        rintro rfl
        obtain ⟨front, c, rfl, hc⟩ := hstart.endsSolid
        obtain ⟨b, tail, heq, hb⟩ := hblank
        rw [List.append_nil, List.reverse_concat, List.cons_append, List.cons.injEq] at heq
        rw [heq.1, hb] at hc
        cases hc
      refine ⟨_, _, rest, .further hstart hsome hblanks hlast, blanks_takeWhile s, ?_⟩
      rw [List.reverse_append, List.append_assoc, List.reverse_append, List.append_assoc]
      exact eq_of_dropWhile_isBlank hs
    | case3 => cases h
  · rintro ⟨start, blanks, rest, hstart, hblanks, rfl⟩
    induction hstart generalizing blanks rest with
    | opening hslash hname =>
      have hsolid := (TagStart.opening hslash hname).endsSolid
      have hending : ending (_ ++ rest) = .opening :=
        ending_eq_opening_iff.mpr ⟨_, _, rest, hslash, hname, rfl⟩
      rw [endsInTag_eq, hsolid.dropWhile_isBlank hblanks, hending]
    | @further start between last hstart hsome hbetween hlast ih =>
      have hsolid := (TagStart.further hstart hsome hbetween hlast).endsSolid
      have hbefore : StartsBlank ((start ++ between).reverse ++ rest) := by
        obtain ⟨front, c, rfl⟩ := List.eq_nil_or_concat between |>.resolve_left hsome
        exact ⟨c, (start ++ front).reverse ++ rest, by simp, hbetween c (by simp)⟩
      have hending : ending (last.reverse ++ ((start ++ between).reverse ++ rest)) =
          .attribute ((start ++ between).reverse ++ rest) :=
        ending_eq_attribute_iff.mpr ⟨last, hlast, hbefore, rfl⟩
      rw [endsInTag_eq, hsolid.dropWhile_isBlank hblanks, List.reverse_append, List.append_assoc,
        hending]
      exact ih between rest hbetween

/-- The rounds of the check, one for each attribute and one for what is before them all, with the
answer in the end. -/
inductive Answers : List Char → (rounds : Nat) → Bool → Prop
  | opening {s : List Char} (h : ending (s.dropWhile isBlank) = .opening) : Answers s 1 true
  | other {s : List Char} (h : ending (s.dropWhile isBlank) = .other) : Answers s 1 false
  | passed {s before : List Char} {rounds : Nat} {answer : Bool}
      (h : ending (s.dropWhile isBlank) = .attribute before)
      (hnext : Answers before rounds answer) : Answers s (rounds + 1) answer

/-- The check comes to an answer: each round but the last takes away a character at least. -/
theorem answers_endsInTag (s : List Char) :
    ∃ rounds, rounds ≤ s.length + 1 ∧ Answers s rounds (endsInTag s) := by
  fun_induction endsInTag s with
  | case1 s hending => exact ⟨1, by omega, .opening hending⟩
  | case2 s before hending ih =>
    obtain ⟨rounds, hrounds, hanswer⟩ := ih
    have hshort := length_of_ending hending
    have hblanks : (s.dropWhile isBlank).length ≤ s.length := (List.dropWhile_suffix _).length_le
    exact ⟨rounds + 1, by omega, .passed hending hanswer⟩
  | case3 s hending => exact ⟨1, by omega, .other hending⟩

/-! ## Whole tags -/

/-- Neither a name nor an attribute ends with a slash. -/
theorem endsInTag_slash (s : List Char) : endsInTag ('/' :: s) = false := by
  have hident : beforeIdent? ('/' :: s) = none := by
    rw [beforeIdent?, List.dropWhile_cons_of_neg (by decide), if_neg (Nat.lt_irrefl _)]
  have hending : ending ('/' :: s) = .other := by
    simp only [ending, hident, show isQuote '/' = false from rfl, Bool.false_eq_true, if_false]
  rw [endsInTag_eq, List.dropWhile_cons_of_neg (by decide), hending]

theorem endsWithTag_iff {s : List Char} :
    endsWithTag s = true ↔ ∃ tag rest, IsTag tag ∧ s = tag.reverse ++ rest := by
  constructor
  · intro h
    unfold endsWithTag at h
    split at h
    · obtain ⟨start, blanks, rest, hstart, hblanks, rfl⟩ := endsInTag_iff.mp h
      exact ⟨_, rest, ⟨start, blanks, ['/'], hstart, hblanks, .inr rfl, rfl⟩, by simp⟩
    · obtain ⟨start, blanks, rest, hstart, hblanks, rfl⟩ := endsInTag_iff.mp h
      exact ⟨_, rest, ⟨start, blanks, [], hstart, hblanks, .inl rfl, rfl⟩, by simp⟩
    · cases h
  · rintro ⟨tag, rest, ⟨start, blanks, slash, hstart, hblanks, hslash, rfl⟩, rfl⟩
    have hinside : endsInTag ((start ++ blanks).reverse ++ rest) = true :=
      endsInTag_iff.mpr ⟨start, blanks, rest, hstart, hblanks, rfl⟩
    rcases hslash with rfl | rfl
    · have hs : (start ++ blanks ++ [] ++ ['>']).reverse ++ rest =
          '>' :: ((start ++ blanks).reverse ++ rest) := by simp
      rw [hs, endsWithTag]
      · exact hinside
      · -- a slash there would be passed, but nothing in a tag so far ends with one
        intro behind hbehind
        rw [hbehind, endsInTag_slash] at hinside
        cases hinside
    · have hs : (start ++ blanks ++ ['/'] ++ ['>']).reverse ++ rest =
          '>' :: '/' :: ((start ++ blanks).reverse ++ rest) := by simp
      rw [hs, endsWithTag]
      exact hinside

theorem IsTag.ne_nil {tag : List Char} (h : IsTag tag) : tag ≠ [] := by
  obtain ⟨start, blanks, slash, _, _, _, rfl⟩ := h
  simp

theorem IsTag.getLast? {tag : List Char} (h : IsTag tag) : tag.getLast? = some '>' := by
  obtain ⟨start, blanks, slash, _, _, _, rfl⟩ := h
  exact List.getLast?_concat

/-- **The check recognizes the ends of tags, and no other place.** At an index of a text it says yes
if and only if the character there is a `>` and some stretch of the text that ends with it is a
tag. It needs no more rounds than there are characters, and one. -/
theorem recognizes_tag_ends :
    (∀ (text : List Char) (index : Fin text.length),
      endsWithTag (text.take (index + 1)).reverse = true ↔
        text.get index = '>' ∧ ∃ start, start ≤ index.val ∧
          IsTag ((text.take (index + 1)).drop start)) ∧
    ∀ before : List Char, ∃ rounds, rounds ≤ before.length + 1 ∧
      Answers before rounds (endsInTag before) := by
  refine ⟨fun text index => ?_, answers_endsInTag⟩
  rw [endsWithTag_iff]
  constructor
  · rintro ⟨tag, rest, htag, heq⟩
    have htake : text.take (index + 1) = rest.reverse ++ tag := by
      rw [← List.reverse_reverse (text.take _), heq, List.reverse_append, List.reverse_reverse]
    have hlength := congrArg List.length htake
    have hpos := List.length_pos_iff.mpr htag.ne_nil
    rw [List.length_take, List.length_append, List.length_reverse] at hlength
    refine ⟨?_, rest.length, by omega, ?_⟩
    · have hlast : (text.take (index + 1)).getLast? = some '>' := by
        rw [htake, List.getLast?_append, htag.getLast?, Option.some_or]
      rw [List.take_succ_eq_append_getElem index.isLt, List.getLast?_concat] at hlast
      exact Option.some.inj hlast
    · rwa [htake, List.drop_left' List.length_reverse]
  · rintro ⟨_, start, _, htag⟩
    refine ⟨_, ((text.take (index + 1)).take start).reverse, htag, ?_⟩
    rw [← List.reverse_append, List.take_append_drop]

end Shorthand.Extraction
