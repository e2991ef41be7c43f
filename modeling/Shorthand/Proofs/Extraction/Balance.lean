import Shorthand.Proofs.Extraction.Reach

/-!
# Balance — the brackets of an extracted abbreviation

Brackets are checked from right to left, as an abbreviation is scanned: a stack holds the closing
brackets that wait for their opening ones (`check?`), and a text is balanced if none is left in the
end.

The scan keeps such a stack itself, and nothing is extracted unless it is empty. But a bracket that
opens something else than what waits last ends the scan *and* takes that one off, so the stack of
the scan can be one short of what its text leaves (`Passed`). `balanced_iff_not_dangling` says that
this is the only way to an abbreviation that is not balanced.
-/

namespace Shorthand.Extraction

/-! ## Checking brackets -/

/-- Checks one character against the closing brackets that wait. A closing bracket goes on the
stack, and an opening one has to match the top, which it takes off. While a brace waits, only braces
count. -/
def check? (grammar : Grammar) (stack : List Char) (c : Char) : Option (List Char) :=
  if '}' ∈ stack ∧ c ≠ '{' ∧ c ≠ '}' then some stack
  else if isClosing grammar c then some (c :: stack)
  else if isOpening grammar c then
    if stack.head? = some (closingOf c) then some stack.tail else none
  else some stack

/-- The closing brackets that wait when a text has been checked from its end to its start; none if
a bracket does not match. -/
def waiting? (grammar : Grammar) (text : List Char) : Option (List Char) :=
  text.reverse.foldlM (check? grammar) []

/-- A text in which every bracket has its counterpart. -/
def Balanced (grammar : Grammar) (text : List Char) : Prop := waiting? grammar text = some []

instance (grammar : Grammar) (text : List Char) : Decidable (Balanced grammar text) :=
  inferInstanceAs (Decidable (_ = _))

/-- An operator that is dropped from the start of an abbreviation is not a bracket. -/
theorem check?_of_isLeadingOperator (grammar : Grammar) (stack : List Char) {c : Char}
    (h : isLeadingOperator c = true) : check? grammar stack c = some stack := by
  have hbracket : isClosing grammar c = false ∧ isOpening grammar c = false := by
    simp only [isLeadingOperator, Bool.or_eq_true, beq_iff_eq] at h
    rcases h with ((rfl | rfl) | rfl) | rfl <;> cases grammar <;> decide
  simp [check?, hbracket]

/-- Leading operators make no difference to what waits. -/
theorem waiting?_dropWhile_isLeadingOperator (grammar : Grammar) (text : List Char) :
    waiting? grammar (text.dropWhile isLeadingOperator) = waiting? grammar text := by
  induction text with
  | nil => rfl
  | cons c text ih =>
      by_cases hc : isLeadingOperator c = true
      · rw [List.dropWhile_cons_of_pos hc, ih]
        simp only [waiting?, List.reverse_cons, List.foldlM_append, List.foldlM_cons,
          List.foldlM_nil, check?_of_isLeadingOperator grammar _ hc]
        simp
      · rw [List.dropWhile_cons_of_neg hc]

/-! ## Checking and scanning -/

/-- An opening bracket right before a text does not match the one that waits last in it. Both lists
start at the text: `left` with what waits last, `before` with the character next to the text. -/
def Mismatch (grammar : Grammar) (left before : List Char) : Prop :=
  ∃ top c, left.head? = some top ∧ before.head? = some c ∧ isOpening grammar c = true ∧
    closingOf c ≠ top

/-- How a scan of `before` has ended that started with `stack` and `taken`: it has passed over
`seen` and stopped before `rest`, with `left` waiting. It says so itself, unless a mismatch has
stopped it. -/
structure Passed (grammar : Grammar) (stack taken before : List Char) (found : Scan)
    (seen rest left : List Char) : Prop where
  split : before = seen ++ rest
  taken : found.taken = seen.reverse ++ taken
  waiting : seen.foldlM (check? grammar) stack = some left
  stack : found.stack = left ∨ found.stack = left.tail ∧ Mismatch grammar left rest

namespace Passed

variable {grammar : Grammar} {stack stack' taken before : List Char} {found : Scan}

/-- A scan that stops at once. -/
theorem stop (grammar : Grammar) (stack taken before : List Char) :
    Passed grammar stack taken before { stack, taken } [] before stack :=
  ⟨rfl, rfl, rfl, .inl rfl⟩

/-- A scan that goes on over one more character. -/
theorem cons {c : Char} (hc : check? grammar stack c = some stack')
    (h : ∃ seen rest left, Passed grammar stack' (c :: taken) before found seen rest left) :
    ∃ seen rest left, Passed grammar stack taken (c :: before) found seen rest left := by
  obtain ⟨seen, rest, left, h⟩ := h
  refine ⟨c :: seen, rest, left, ?_, ?_, ?_, h.stack⟩
  · rw [h.split, List.cons_append]
  · rw [h.taken, List.reverse_cons, List.append_assoc, List.singleton_append]
  · rw [List.foldlM_cons, hc]
    exact h.waiting

end Passed

/-- Where the scan does not skip a character because of a brace, neither does the check. -/
theorem check?_of_not_skip {grammar : Grammar} {stack : List Char} {c : Char}
    (h : ¬(stack.contains '}' && c != '{') = true) :
    check? grammar stack c =
      if isClosing grammar c then some (c :: stack)
      else if isOpening grammar c then
        if stack.head? = some (closingOf c) then some stack.tail else none
      else some stack := by
  rw [check?, if_neg]
  rintro ⟨hbrace, hopen, _⟩
  exact h (by simp [hbrace, hopen])

/-- Each step of a scan is a step of the check. That the check looks at the grammar where the scan
does not is no difference: a brace waits in markup only. -/
theorem passed_scan (grammar : Grammar) (stack taken before : List Char)
    (hbrace : '}' ∈ stack → isClosing grammar '}' = true) :
    ∃ seen rest left,
      Passed grammar stack taken before (scan grammar stack taken before) seen rest left := by
  fun_induction scan grammar stack taken before with
  | case1 stack taken => exact ⟨_, _, _, .stop grammar stack taken []⟩
  | case2 stack taken c before hskip ih =>
      rw [Bool.and_eq_true, List.contains_iff_mem, bne_iff_ne] at hskip
      have hclosing := hbrace hskip.1
      refine Passed.cons ?_ (ih fun _ => hclosing)
      by_cases hc : c = '}'
      · simp [check?, hc, hclosing]
      · simp [check?, hc, hskip]
  | case3 stack taken c before hskip hclosing ih =>
      refine Passed.cons ?_ (ih fun hmem => ?_)
      · rw [check?_of_not_skip hskip, if_pos hclosing]
      · rcases List.mem_cons.mp hmem with hc | hmem
        · rwa [hc]
        · exact hbrace hmem
  | case4 taken c before => exact ⟨_, _, _, .stop grammar [] taken (c :: before)⟩
  | case5 taken c before hclosing hopening waiting hskip ih =>
      refine Passed.cons ?_ (ih fun hmem => hbrace (List.mem_cons_of_mem _ hmem))
      rw [check?_of_not_skip hskip, if_neg hclosing, if_pos hopening]
      exact if_pos rfl
  | case6 taken c before hclosing hopening top waiting htop hskip =>
      -- the stack of the scan is one shorter than what waits
      refine ⟨[], c :: before, top :: waiting, rfl, rfl, rfl, .inr ⟨rfl, top, c, rfl, rfl, ?_⟩⟩
      exact ⟨hopening, Ne.symm htop⟩
  | case7 stack taken c before hskip hclosing hopening hkeep ih =>
      refine Passed.cons ?_ (ih hbrace)
      rw [check?_of_not_skip hskip, if_neg hclosing, if_neg hopening]
  | case8 stack taken c before => exact ⟨_, _, _, .stop grammar stack taken (c :: before)⟩
  | case9 stack taken c before hskip hclosing hopening hkeep hend ih =>
      refine Passed.cons ?_ (ih hbrace)
      rw [check?_of_not_skip hskip, if_neg hclosing, if_neg hopening]

/-! ## Extractions -/

/-- One closing bracket waits in an extracted abbreviation, and the bracket that the scan came to
next, behind the operators that were dropped, opens something else. -/
def Dangling (grammar : Grammar) (line : List Char) (found : Extraction) : Prop :=
  ∃ left, waiting? grammar found.abbreviation.toList = some left ∧ left.length = 1 ∧
    Mismatch grammar left ((line.take found.start).reverse.dropWhile isLeadingOperator)

/-- What a scan stops at is still next when the operators it has passed last are dropped. -/
theorem Mismatch.dropWhile {grammar : Grammar} {left before operators : List Char}
    (h : Mismatch grammar left before) (hop : ∀ c ∈ operators, isLeadingOperator c = true) :
    Mismatch grammar left ((operators ++ before).dropWhile isLeadingOperator) := by
  obtain ⟨top, c, htop, hc, hopening, hne⟩ := h
  have hbracket : isLeadingOperator c ≠ true := by
    intro hc
    simp only [isLeadingOperator, Bool.or_eq_true, beq_iff_eq] at hc
    rcases hc with ((rfl | rfl) | rfl) | rfl <;> cases grammar <;> exact absurd hopening (by decide)
  obtain ⟨rest, rfl⟩ := List.head?_eq_some_iff.mp hc
  rw [List.dropWhile_append_of_pos hop, List.dropWhile_cons_of_neg hbracket]
  exact ⟨top, c, htop, rfl, hopening, hne⟩

/-- The part of a line before a stretch that ends at `stop`. -/
theorem take_of_take_eq_append {line before a : List Char} {stop : Nat} (hstop : stop ≤ line.length)
    (h : line.take stop = before ++ a) : line.take (stop - a.length) = before := by
  have hlength := congrArg List.length h
  rw [List.length_take, Nat.min_eq_left hstop, List.length_append] at hlength
  have hinner : line.take (stop - a.length) = (line.take stop).take (stop - a.length) := by
    rw [List.take_take, Nat.min_eq_left (Nat.sub_le _ _)]
  rw [hinner, h, List.take_left' (by omega)]

theorem balanced_or_dangling {grammar : Grammar} {line : List Char} {stop : Nat}
    {found : Extraction} (hstop : stop ≤ line.length)
    (h : ofChars? grammar line stop = some found) :
    Balanced grammar found.abbreviation.toList ∨ Dangling grammar line found := by
  obtain ⟨seen, rest, left, hpassed⟩ :=
    passed_scan grammar [] [] (line.take stop).reverse (by simp)
  have htaken := hpassed.taken
  rw [List.append_nil] at htaken
  simp only [ofChars?, htaken] at h
  split at h
  · next hok =>
    cases h
    rw [Bool.and_eq_true, List.isEmpty_iff] at hok
    have hwaiting : waiting? grammar (seen.reverse.dropWhile isLeadingOperator) = some left := by
      rw [waiting?_dropWhile_isLeadingOperator, waiting?, List.reverse_reverse]
      exact hpassed.waiting
    rcases hpassed.stack with hleft | ⟨hleft, hmismatch⟩
    · left
      rw [Balanced, String.toList_ofList, hwaiting, ← hleft, hok.1]
    · right
      refine ⟨left, by rw [String.toList_ofList, hwaiting], ?_, ?_⟩
      · obtain ⟨top, _, htop, _⟩ := hmismatch
        obtain ⟨others, rfl⟩ := List.head?_eq_some_iff.mp htop
        have hothers : others = [] := hleft.symm.trans hok.1
        rw [hothers, List.length_singleton]
      · -- before the abbreviation stand the dropped operators, and before them what was not scanned
        have hline : line.take stop = (rest.reverse ++ seen.reverse.takeWhile isLeadingOperator) ++
            seen.reverse.dropWhile isLeadingOperator := by
          rw [List.append_assoc, List.takeWhile_append_dropWhile, ← List.reverse_append,
            ← hpassed.split, List.reverse_reverse]
        show Mismatch grammar left ((line.take (stop - _)).reverse.dropWhile isLeadingOperator)
        rw [take_of_take_eq_append hstop hline, List.reverse_append, List.reverse_reverse]
        refine hmismatch.dropWhile fun c hc => ?_
        exact List.all_eq_true.mp List.all_takeWhile c (List.mem_reverse.mp hc)
  · cases h

/-- **An extracted abbreviation is balanced**, unless the scan for it has come to a bracket that
opens something else than what waits last. Then it leaves exactly one closing bracket behind. -/
theorem balanced_iff_not_dangling {grammar : Grammar} {ahead : Bool} {line : String} {cursor : Nat}
    {found : Extraction} (h : ofLine? grammar ahead line cursor = some found) :
    Balanced grammar found.abbreviation.toList ↔ ¬Dangling grammar line.toList found := by
  constructor
  · rintro hbalanced ⟨left, hleft, hlength, _⟩
    rw [hbalanced] at hleft
    cases hleft
    cases hlength
  · have hahead := lookAhead_le_length grammar (line.toList.drop (min cursor line.toList.length))
    rw [List.length_drop] at hahead
    rw [ofLine?] at h
    have hstop : (if ahead then min cursor line.toList.length +
        lookAhead grammar (line.toList.drop (min cursor line.toList.length))
        else min cursor line.toList.length) ≤ line.toList.length := by
      split <;> omega
    exact (balanced_or_dangling hstop h).resolve_right

/-- Operators are dropped, and text in braces is not looked at. -/
theorem balanced_iff_not_dangling_mixed :
    ofLine? .markup true "x (>p[a=(b)]{:[)}" 16 = some ⟨"p[a=(b)]{:[)}", 4, 17⟩ ∧
      (Balanced .markup "p[a=(b)]{:[)}".toList ↔
        ¬Dangling .markup "x (>p[a=(b)]{:[)}".toList ⟨"p[a=(b)]{:[)}", 4, 17⟩) := by
  have hfound : ofLine? .markup true "x (>p[a=(b)]{:[)}" 16 = some ⟨"p[a=(b)]{:[)}", 4, 17⟩ := by
    decide +kernel
  exact ⟨hfound, balanced_iff_not_dangling hfound⟩

/-- A parenthesis stops the scan for an abbreviation in which a square bracket waits, and nothing is
left to tell. -/
theorem extracts_lone_closing_bracket :
    ofLine? .markup true "(a]" 3 = some ⟨"a]", 1, 3⟩ ∧ ¬Balanced .markup "a]".toList := by
  decide +kernel

end Shorthand.Extraction
