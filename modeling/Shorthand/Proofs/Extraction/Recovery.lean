import Shorthand.Extraction.Basic
import Shorthand.Proofs.Value.Printing

/-!
# Recovery — a well-bracketed abbreviation is extracted whole

What can stand in an abbreviation depends on the brackets around it: between parentheses only what
can stand outside of them, in an attribute set anything with its brackets paired, in a text anything
with its braces paired. `WellBracketed` is that grammar, written from left to right.

The scan goes from right to left and has one stack for all brackets. It passes over each construct
of the grammar and leaves its stack as it was (`scan_balanced`, `scan_paired`,
`scan_wellBracketed`), so it comes to a stop only in front of the abbreviation (`scan_stop`).

The one thing that could stop it inside is a `>` that looks like the end of a tag, and there is no
tag without a `<` (`endsWithTag_eq_false`).
-/

namespace Shorthand.Extraction

/-! ## The grammar -/

/-- A character that opens or closes something in markup. -/
def isBracket (c : Char) : Bool := isOpening .markup c || isClosing .markup c

/-- What an attribute set can hold: any characters, with paired brackets among them. Inside braces
only braces have to be paired. -/
inductive Paired : List Char → Prop
  | nil : Paired []
  | char {c : Char} {rest : List Char} (hc : isBracket c = false) (hrest : Paired rest) :
      Paired (c :: rest)
  | group {inner rest : List Char} (hinner : Paired inner) (hrest : Paired rest) :
      Paired ('(' :: (inner ++ ')' :: rest))
  | attributes {inner rest : List Char} (hinner : Paired inner) (hrest : Paired rest) :
      Paired ('[' :: (inner ++ ']' :: rest))
  | text {inner rest : List Char} (hinner : Shorthand.Balanced inner) (hrest : Paired rest) :
      Paired ('{' :: (inner ++ '}' :: rest))

/-- The texts that are extracted whole: abbreviation characters, groups of such texts, attribute
sets and texts in braces, in any order. -/
inductive WellBracketed : List Char → Prop
  | nil : WellBracketed []
  | char {c : Char} {rest : List Char} (hc : isAbbreviationChar c = true)
      (hrest : WellBracketed rest) : WellBracketed (c :: rest)
  | group {inner rest : List Char} (hinner : WellBracketed inner) (hrest : WellBracketed rest) :
      WellBracketed ('(' :: (inner ++ ')' :: rest))
  | attributes {inner rest : List Char} (hinner : Paired inner) (hrest : WellBracketed rest) :
      WellBracketed ('[' :: (inner ++ ']' :: rest))
  | text {inner rest : List Char} (hinner : Shorthand.Balanced inner)
      (hrest : WellBracketed rest) : WellBracketed ('{' :: (inner ++ '}' :: rest))

theorem isBracket_of_isAbbreviationChar {c : Char} (h : isAbbreviationChar c = true) :
    isBracket c = false := by
  cases hbracket : isBracket c with
  | false => rfl
  | true =>
      simp only [isBracket, isOpening, isClosing, Bool.or_eq_true, beq_iff_eq, Bool.and_eq_true]
        at hbracket
      rcases hbracket with ((rfl | rfl) | ⟨_, rfl⟩) | ((rfl | rfl) | ⟨_, rfl⟩) <;>
        exact absurd h (by decide)

/-! ## No tag without its opening -/

theorem beforeIdent?_suffix {s rest : List Char} (h : beforeIdent? s = some rest) : rest <:+ s := by
  unfold beforeIdent? at h
  split at h
  · cases h
    exact List.dropWhile_suffix _
  · cases h

theorem beforeAttributeName?_suffix {s rest : List Char} (h : beforeAttributeName? s = some rest) :
    rest <:+ s := by
  unfold beforeAttributeName? at h
  split at h
  · next hident =>
    split at h
    · cases h
      exact beforeIdent?_suffix hident
    · cases h
  · cases h

theorem beforeQuoted?_suffix {quote : Char} {s rest : List Char}
    (h : beforeQuoted? quote s = some rest) : rest <:+ s := by
  unfold beforeQuoted? at h
  split at h
  · next heq =>
    cases h
    have hdropped : s.dropWhile (· != quote) <:+ s := List.dropWhile_suffix _
    rw [heq] at hdropped
    exact ((List.suffix_cons _ _).trans (List.suffix_cons _ _)).trans hdropped
  · cases h

/-- What stands before an attribute is a part of the text. -/
theorem ending_suffix {s before : List Char} (h : ending s = .attribute before) : before <:+ s := by
  unfold ending at h
  split at h
  · cases h
  · next c tail =>
    split at h
    · split at h
      · next hbind =>
        cases h
        obtain ⟨value, hvalue, hname⟩ := Option.bind_eq_some_iff.mp hbind
        exact ((beforeAttributeName?_suffix hname).trans (beforeQuoted?_suffix hvalue)).trans
          (List.suffix_cons _ _)
      · cases h
    · split at h
      · cases h
      · cases h
      · next hident =>
        split at h
        · next hname =>
          cases h
          exact ((beforeAttributeName?_suffix hname).trans (List.suffix_cons _ _)).trans
            (beforeIdent?_suffix hident)
        · cases h
      · next hident =>
        split at h
        · cases h
          exact beforeIdent?_suffix hident
        · cases h
      · cases h

/-- Where a tag opens there is a `<`. -/
theorem mem_of_ending_opening {s : List Char} (h : ending s = .opening) : '<' ∈ s := by
  unfold ending at h
  split at h
  · cases h
  · split at h
    · split at h <;> cases h
    · split at h
      · next hident => exact (beforeIdent?_suffix hident).subset List.mem_cons_self
      · next hident =>
        exact (beforeIdent?_suffix hident).subset (List.mem_cons_of_mem _ List.mem_cons_self)
      · split at h <;> cases h
      · split at h <;> cases h
      · cases h

theorem endsInTag_eq_false {s : List Char} (h : '<' ∉ s) : endsInTag s = false := by
  have hblanks : s.dropWhile Text.isBlank <:+ s := List.dropWhile_suffix _
  fun_induction endsInTag s with
  | case1 s hopening => exact absurd (hblanks.subset (mem_of_ending_opening hopening)) h
  | case2 s before hattribute ih =>
      have hbefore := (ending_suffix hattribute).trans hblanks
      exact ih (fun hmem => h (hbefore.subset hmem)) (List.dropWhile_suffix _)
  | case3 => rfl

theorem endsWithTag_eq_false {s : List Char} (h : '<' ∉ s) : endsWithTag s = false := by
  unfold endsWithTag
  split
  · next inner =>
    exact endsInTag_eq_false fun hmem => h (List.mem_cons_of_mem _ (List.mem_cons_of_mem _ hmem))
  · next inner => exact endsInTag_eq_false fun hmem => h (List.mem_cons_of_mem _ hmem)
  · rfl

/-! ## Steps of the scan -/

theorem scan_cons (stack taken : List Char) (c : Char) (before : List Char) :
    scan .markup stack taken (c :: before) =
      if stack.contains '}' && c != '{' then
        scan .markup (if c = '}' then c :: stack else stack) (c :: taken) before
      else if isClosing .markup c then scan .markup (c :: stack) (c :: taken) before
      else if isOpening .markup c then
        match stack with
        | [] => { stack := [], taken }
        | top :: waiting =>
          if top = closingOf c then scan .markup waiting (c :: taken) before
          else { stack := waiting, taken }
      else if stack.contains ']' || stack.contains '}' then
        scan .markup stack (c :: taken) before
      else if endsWithTag (c :: before) || !isAbbreviationChar c then { stack, taken }
      else scan .markup stack (c :: taken) before := by
  cases stack <;> rfl

/-- A closing bracket waits, unless it is inside a text. -/
theorem scan_closing {stack : List Char} (hbrace : '}' ∉ stack) {c : Char}
    (hc : isClosing .markup c = true) (taken before : List Char) :
    scan .markup stack taken (c :: before) = scan .markup (c :: stack) (c :: taken) before := by
  rw [scan_cons, if_neg (by simp [hbrace]), if_pos hc]

/-- An opening bracket ends the wait of its counterpart. -/
theorem scan_opening {stack : List Char} {c : Char} (hbrace : '}' ∉ stack ∨ c = '{')
    (hc : isOpening .markup c = true) (taken before : List Char) :
    scan .markup (closingOf c :: stack) taken (c :: before) =
      scan .markup stack (c :: taken) before := by
  have hskip : ¬((closingOf c :: stack).contains '}' && c != '{') = true := by
    rcases hbrace with hbrace | rfl
    · simp only [isOpening, Bool.or_eq_true, beq_iff_eq, Bool.and_eq_true] at hc
      rcases hc with (rfl | rfl) | ⟨_, rfl⟩ <;> simp [closingOf, hbrace]
    · simp
  have hclosing : ¬isClosing .markup c = true := by
    simp only [isOpening, Bool.or_eq_true, beq_iff_eq, Bool.and_eq_true] at hc
    rcases hc with (rfl | rfl) | ⟨_, rfl⟩ <;> decide
  rw [scan_cons, if_neg hskip, if_neg hclosing, if_pos hc]
  exact if_pos rfl

/-- Inside a text every character but a brace is passed over. -/
theorem scan_inText {stack : List Char} (hbrace : '}' ∈ stack) {c : Char} (hopen : c ≠ '{')
    (hclose : c ≠ '}') (taken before : List Char) :
    scan .markup stack taken (c :: before) = scan .markup stack (c :: taken) before := by
  rw [scan_cons, if_pos (by simp [hbrace, hopen]), if_neg hclose]

/-- Inside an attribute set every character but a bracket is passed over. -/
theorem scan_inAttributes {stack : List Char} (hbrace : '}' ∉ stack) (hbracket : ']' ∈ stack)
    {c : Char} (hc : isBracket c = false) (taken before : List Char) :
    scan .markup stack taken (c :: before) = scan .markup stack (c :: taken) before := by
  rw [isBracket, Bool.or_eq_false_iff] at hc
  rw [scan_cons, if_neg (by simp [hbrace]), if_neg (by simp [hc.2]), if_neg (by simp [hc.1]),
    if_pos (by simp [hbracket])]

/-- Outside of both, abbreviation characters are passed over, if no tag ends there. -/
theorem scan_char {stack : List Char} (hbrace : '}' ∉ stack) (hbracket : ']' ∉ stack) {c : Char}
    (hc : isAbbreviationChar c = true) (taken : List Char) {before : List Char}
    (htag : '<' ∉ c :: before) :
    scan .markup stack taken (c :: before) = scan .markup stack (c :: taken) before := by
  have hno := isBracket_of_isAbbreviationChar hc
  rw [isBracket, Bool.or_eq_false_iff] at hno
  rw [scan_cons, if_neg (by simp [hbrace]), if_neg (by simp [hno.2]), if_neg (by simp [hno.1]),
    if_neg (by simp [hbrace, hbracket]), if_neg (by simp [endsWithTag_eq_false htag, hc])]

/-- A pair of brackets is passed over if what is between them is. -/
theorem scan_pair {stack : List Char} (hbrace : '}' ∉ stack) {c : Char}
    (hc : isOpening .markup c = true) {inner before : List Char}
    (hinner : ∀ taken, scan .markup (closingOf c :: stack) taken (inner.reverse ++ c :: before) =
      scan .markup (closingOf c :: stack) (inner ++ taken) (c :: before)) (taken : List Char) :
    scan .markup stack taken (closingOf c :: (inner.reverse ++ c :: before)) =
      scan .markup stack (c :: (inner ++ closingOf c :: taken)) before := by
  have hclosing : isClosing .markup (closingOf c) = true := by
    simp only [isOpening, Bool.or_eq_true, beq_iff_eq, Bool.and_eq_true] at hc
    rcases hc with (rfl | rfl) | ⟨_, rfl⟩ <;> decide
  rw [scan_closing hbrace hclosing, hinner, scan_opening (.inl hbrace) hc]

/-! ## The constructs of the grammar -/

/-- A text from its end to its start: the braces that it closes but does not open wait at its
start. -/
theorem scan_balanced {stack : List Char} (hbrace : '}' ∈ stack) {t : List Char} {depth : Nat}
    (h : braceDepth? depth t = some 0) (taken before : List Char) :
    scan .markup stack taken (t.reverse ++ before) =
      scan .markup (List.replicate depth '}' ++ stack) (t ++ taken) before := by
  induction t generalizing depth before with
  | nil =>
      cases h
      rfl
  | cons c t ih =>
      have hwaiting : ∀ d, '}' ∈ List.replicate d '}' ++ stack :=
        fun d => List.mem_append_right _ hbrace
      rw [List.reverse_cons, List.append_assoc, List.singleton_append]
      by_cases hopen : c = '{'
      · subst hopen
        rw [braceDepth?_open] at h
        rw [ih h, List.replicate_succ]
        exact scan_opening (.inr rfl) rfl _ _
      · by_cases hclose : c = '}'
        · subst hclose
          cases depth with
          | zero => cases h
          | succ depth =>
              rw [braceDepth?_close] at h
              rw [ih h, scan_cons, if_pos (by simp [hbrace]), if_pos rfl]
              rfl
        · rw [braceDepth?_other hopen hclose] at h
          rw [ih h, scan_inText (hwaiting depth) hopen hclose]
          rfl

/-- A text in braces. -/
theorem scan_text {stack : List Char} (hbrace : '}' ∉ stack) {t : List Char}
    (h : Shorthand.Balanced t) (taken before : List Char) :
    scan .markup stack taken ('}' :: (t.reverse ++ '{' :: before)) =
      scan .markup stack ('{' :: (t ++ '}' :: taken)) before :=
  scan_pair (c := '{') hbrace rfl
    (fun taken => scan_balanced List.mem_cons_self h taken ('{' :: before)) taken

/-- The content of an attribute set. -/
theorem scan_paired {i : List Char} (h : Paired i) {stack : List Char} (hbrace : '}' ∉ stack)
    (hbracket : ']' ∈ stack) (taken before : List Char) :
    scan .markup stack taken (i.reverse ++ before) = scan .markup stack (i ++ taken) before := by
  induction h generalizing stack taken before with
  | nil => rfl
  | char hc hrest ih =>
      rw [List.reverse_cons, List.append_assoc, ih hbrace hbracket]
      exact scan_inAttributes hbrace hbracket hc _ _
  | group hinner hrest ihinner ihrest =>
      simp only [List.reverse_cons, List.reverse_append, List.append_assoc, List.cons_append]
      rw [ihrest hbrace hbracket]
      exact scan_pair (c := '(') hbrace rfl
        (fun taken => ihinner (by simp [closingOf, hbrace]) (by simp [hbracket]) taken _) _
  | attributes hinner hrest ihinner ihrest =>
      simp only [List.reverse_cons, List.reverse_append, List.append_assoc, List.cons_append]
      rw [ihrest hbrace hbracket]
      exact scan_pair (c := '[') hbrace rfl
        (fun taken => ihinner (by simp [closingOf, hbrace]) (by simp [hbracket]) taken _) _
  | text hinner hrest ih =>
      simp only [List.reverse_cons, List.reverse_append, List.append_assoc, List.cons_append]
      rw [ih hbrace hbracket]
      exact scan_text hbrace hinner _ _

/-- An abbreviation, or what is between the parentheses of a group. -/
theorem scan_wellBracketed {s : List Char} (h : WellBracketed s) (hs : '<' ∉ s)
    {stack : List Char} (hbrace : '}' ∉ stack) (hbracket : ']' ∉ stack) (taken : List Char)
    {before : List Char} (hbefore : '<' ∉ before) :
    scan .markup stack taken (s.reverse ++ before) = scan .markup stack (s ++ taken) before := by
  induction h generalizing stack taken before with
  | nil => rfl
  | @char c rest hc hrest ih =>
      rw [List.mem_cons, not_or] at hs
      have htag : '<' ∉ c :: before := by simp [hs.1, hbefore]
      rw [List.reverse_cons, List.append_assoc, List.singleton_append,
        ih hs.2 hbrace hbracket _ htag]
      exact scan_char hbrace hbracket hc _ htag
  | @group inner rest hinner hrest ihinner ihrest =>
      simp only [List.mem_cons, List.mem_append, not_or] at hs
      obtain ⟨_, hin, _, hout⟩ := hs
      simp only [List.reverse_cons, List.reverse_append, List.append_assoc, List.cons_append]
      have hopen : '<' ∉ '(' :: before := by simp [hbefore]
      rw [ihrest hout hbrace hbracket _ (by simp [hin, hbefore])]
      exact scan_pair (c := '(') hbrace rfl
        (fun taken => ihinner hin (by simp [closingOf, hbrace]) (by simp [closingOf, hbracket])
          taken hopen) _
  | @attributes inner rest hinner hrest ih =>
      simp only [List.mem_cons, List.mem_append, not_or] at hs
      obtain ⟨_, hin, _, hout⟩ := hs
      simp only [List.reverse_cons, List.reverse_append, List.append_assoc, List.cons_append]
      rw [ih hout hbrace hbracket _ (by simp [hin, hbefore])]
      exact scan_pair (c := '[') hbrace rfl
        (fun taken => scan_paired hinner (by simp [closingOf, hbrace]) (by simp [closingOf])
          taken _) _
  | @text inner rest hinner hrest ih =>
      simp only [List.mem_cons, List.mem_append, not_or] at hs
      obtain ⟨_, hin, _, hout⟩ := hs
      simp only [List.reverse_cons, List.reverse_append, List.append_assoc, List.cons_append]
      rw [ih hout hbrace hbracket _ (by simp [hin, hbefore])]
      exact scan_text hbrace hinner _ _

/-- Nothing waits and nothing is taken where neither an abbreviation character nor a closing bracket
stands. -/
theorem scan_stop {before : List Char}
    (h : ∀ c ∈ before.head?, isAbbreviationChar c = false ∧ isClosing .markup c = false)
    (taken : List Char) :
    scan .markup [] taken before = { stack := [], taken } := by
  cases before with
  | nil => rfl
  | cons c before =>
      obtain ⟨habbreviation, hclosing⟩ := h c rfl
      rw [scan_cons, if_neg (by simp), if_neg (by simp [hclosing])]
      split
      · rfl
      · rw [if_neg (by simp), if_pos (by simp [habbreviation])]

/-! ## Extractions -/

/-- **A well-bracketed abbreviation is extracted whole**, wherever it stands in its line: behind
nothing, or behind a character that cannot belong to it. -/
theorem ofLine?_wellBracketed {u s w : String} (hs : WellBracketed s.toList) (hne : s ≠ "")
    (hfirst : ∀ c ∈ s.toList.head?, isLeadingOperator c = false)
    (hu : ∀ c ∈ u.toList.getLast?, isAbbreviationChar c = false ∧ isClosing .markup c = false)
    (htag : '<' ∉ u.toList ∧ '<' ∉ s.toList) :
    ofLine? .markup false (u ++ s ++ w) (u.length + s.length) =
      some { abbreviation := s, start := u.length, stop := u.length + s.length } := by
  have hscan : scan .markup [] [] (s.toList.reverse ++ u.toList.reverse) =
      { stack := [], taken := s.toList } := by
    rw [scan_wellBracketed hs htag.2 (by simp) (by simp) [] (by simpa using htag.1),
      List.append_nil, scan_stop (by simpa using hu)]
  have htake : (u ++ s ++ w).toList.take (u.length + s.length) = u.toList ++ s.toList := by
    rw [String.toList_append, String.toList_append, List.take_left']
    rw [List.length_append, String.length_toList, String.length_toList]
  have hdrop : s.toList.dropWhile isLeadingOperator = s.toList := by
    cases hchars : s.toList with
    | nil => rfl
    | cons c rest => exact List.dropWhile_cons_of_neg (by simp [hfirst c (by simp [hchars])])
  have hnil : s.toList ≠ [] := by simpa using hne
  have hcursor : min (u.length + s.length) (u ++ s ++ w).toList.length = u.length + s.length := by
    simp only [String.toList_append, List.length_append, String.length_toList]
    omega
  show ofChars? .markup (u ++ s ++ w).toList
    (min (u.length + s.length) (u ++ s ++ w).toList.length) = _
  rw [hcursor]
  simp only [ofChars?, htake, List.reverse_append, hscan, hdrop]
  simp [hnil, String.length_toList]

/-- Behind an opening bracket: a group with an attribute set in it, a text with a single bracket,
and braces in both. -/
theorem ofLine?_wellBracketed_nested :
    WellBracketed "(p[a=(b {)})]>i){x [ {y}}".toList ∧
    ofLine? .markup false ("if (" ++ "(p[a=(b {)})]>i){x [ {y}}" ++ ") <b>") 29 =
      some { abbreviation := "(p[a=(b {)})]>i){x [ {y}}", start := 4, stop := 29 } := by
  have hset : Paired ['a', '=', '(', 'b', ' ', '{', ')', '}', ')'] :=
    .char rfl (.char rfl (@Paired.group ['b', ' ', '{', ')', '}'] []
      (.char rfl (.char rfl (@Paired.text [')'] [] (by decide) .nil))) .nil))
  have hgroup : WellBracketed
      ['p', '[', 'a', '=', '(', 'b', ' ', '{', ')', '}', ')', ']', '>', 'i'] :=
    .char rfl (@WellBracketed.attributes _ ['>', 'i'] hset (.char rfl (.char rfl .nil)))
  have hall := @WellBracketed.group _ ['{', 'x', ' ', '[', ' ', '{', 'y', '}', '}'] hgroup
    (@WellBracketed.text ['x', ' ', '[', ' ', '{', 'y', '}'] [] (by decide) .nil)
  have htext : "(p[a=(b {)})]>i){x [ {y}}".toList =
      ['(', 'p', '[', 'a', '=', '(', 'b', ' ', '{', ')', '}', ')', ']', '>', 'i', ')', '{', 'x',
        ' ', '[', ' ', '{', 'y', '}', '}'] := by decide +kernel
  have hs : WellBracketed "(p[a=(b {)})]>i){x [ {y}}".toList := htext ▸ hall
  have hfirst : "(p[a=(b {)})]>i){x [ {y}}".toList.head? = some '(' := by decide +kernel
  have hu : "if (".toList.getLast? = some '(' := by decide +kernel
  refine ⟨hs, ofLine?_wellBracketed (u := "if (") (w := ") <b>") hs (by decide +kernel) ?_ ?_
    (by decide +kernel)⟩
  · intro c hc
    rw [hfirst] at hc
    cases hc
    decide
  · intro c hc
    rw [hu] at hc
    cases hc
    decide

end Shorthand.Extraction
