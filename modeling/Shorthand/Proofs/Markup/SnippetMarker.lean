import Shorthand.Proofs.Markup.AttributeNames
import Shorthand.Proofs.Markup.Bounds
import Shorthand.Proofs.Markup.Naming
import Shorthand.Proofs.Markup.SnippetChildren
import Shorthand.Proofs.Markup.SnippetNesting

/-!
# SnippetMarker — what becomes of the `+` at the end of a name

A name may end in a `+`, for the snippets that are called so. Where there is no such snippet, the
`+` is dropped again. But only a name that is plain text is looked up at all, and so the `+` after a
name with a numbering is never dropped: `x$y+` is an element called `x1y+`.

`exists_showsPlus_iff` says that this is the only way: a `+` is left in a name of the result if and
only if one is written after a name with a numbering. No snippet has a name with a `+` in it
(`not_showsPlus_of_read`), and expanding, naming and unrolling lose no element that is not looked
up.
-/

namespace Shorthand

/-! ## Numbers have no `+` -/

/-- Numbering a value neither brings in a `+` nor takes one away. -/
theorem Value.plus_mem_shown_numbered (copy : Copy) (v : Value) :
    '+' ∈ (v.numbered copy).shown.toList ↔ '+' ∈ v.shown.toList := by
  induction v with
  | nil => exact Iff.rfl
  | cons t v ih =>
      cases t with
      | text s =>
          rw [numbered, shown_consText, shown_cons, Token.shown, String.toList_append,
            String.toList_append, List.mem_append, List.mem_append, ih]
      | field index placeholder =>
          rw [numbered, shown_cons, shown_cons, String.toList_append, String.toList_append,
            List.mem_append, List.mem_append, ih]
      | number n =>
          -- neither the digits nor the dollars are a `+`
          have hdigits : '+' ∉ (n.format copy).toList := by
            intro h
            rw [n.toList_format, padded, List.mem_append] at h
            rcases h with h | h
            · exact absurd (List.eq_of_mem_replicate h) (by decide)
            · exact absurd (Nat.isDigit_of_mem_toDigits (by decide) (by decide) h) (by decide)
          have hdollars : '+' ∉ (Token.number n).shown.toList := by
            intro h
            rw [Token.shown, String.toList_ofList] at h
            exact absurd (List.eq_of_mem_replicate h) (by decide)
          rw [numbered, shown_consText, shown_cons, String.toList_append, String.toList_append,
            List.mem_append, List.mem_append, ih, or_iff_right hdigits, or_iff_right hdollars]

namespace Markup

/-! ## Names with a `+` -/

/-- The element has a `+` in its name. -/
def Element.ShowsPlus (e : Element) : Prop := ∃ name ∈ e.name, '+' ∈ name.shown.toList

/-- The element has a numbering in its name. -/
def Element.HasNumbering (e : Element) : Prop := ∃ name ∈ e.name, ∃ n, Token.number n ∈ name

/-- A text as a name can be: with at most one `+`, at the end and after something else. -/
def IsNameText (name : String) : Prop :=
  ∃ body : List Char, body ≠ [] ∧ '+' ∉ body ∧
    (name.toList = body ∨ name.toList = body ++ ['+'])

/-- An element with a name as it is read: a name without a numbering is one text. -/
def Element.WellNamed (e : Element) : Prop :=
  ¬e.HasNumbering → ∀ name ∈ e.name, ∃ text, name = Value.ofText text ∧ IsNameText text

theorem isNameText_singleton_append {c : Char} (hc : c ≠ '+') {text : String}
    (h : text = "" ∨ text = "+" ∨ IsNameText text) : IsNameText (String.singleton c ++ text) := by
  rcases h with rfl | rfl | ⟨body, hne, hbody, htext⟩
  · exact ⟨[c], by simp, by simpa using hc.symm, .inl (by simp)⟩
  · exact ⟨[c], by simp, by simpa using hc.symm, .inr (by simp)⟩
  · refine ⟨c :: body, by simp, by simpa using ⟨hc.symm, hbody⟩, ?_⟩
    rw [String.toList_append, String.toList_singleton]
    rcases htext with htext | htext
    · exact .inl (by rw [htext]; rfl)
    · exact .inr (by rw [htext]; rfl)

theorem number_mem_consText {n : Numbering} {s : String} {v : Value} :
    Token.number n ∈ v.consText s ↔ Token.number n ∈ v := by
  fun_cases Value.consText s v with
  | case1 => simp
  | case2 => simp

/-- What is read as a name is one text, if there is no numbering in it. It is a `+` alone only
behind a character of the name. -/
theorem scanName_eq_text {ofElement afterChar : Bool} {s : List Char}
    (h : ∀ n, Token.number n ∉ (scanName ofElement afterChar s).1) :
    (scanName ofElement afterChar s).1 = [] ∨
      ∃ text, (scanName ofElement afterChar s).1 = Value.ofText text ∧
        (IsNameText text ∨ afterChar = true ∧ text = "+") := by
  fun_induction scanName ofElement afterChar s with
  | case1 => exact .inl rfl
  | case2 afterChar s tail ih => exact absurd List.mem_cons_self (h _)
  | case3 afterChar c s _ hc tail ih =>
      have hplus : c ≠ '+' := by
        rintro rfl
        exact absurd hc (by decide)
      have htail : ∀ n, Token.number n ∉ tail.1 := fun n hn => h n (number_mem_consText.mpr hn)
      right
      rcases ih htail with hnil | ⟨text, htext, hshape⟩
      · refine ⟨String.singleton c ++ "", ?_, .inl (isNameText_singleton_append hplus (.inl rfl))⟩
        rw [hnil, String.append_empty]
        rfl
      · refine ⟨String.singleton c ++ text, by rw [htext]; rfl, .inl ?_⟩
        rcases hshape with hshape | ⟨_, hshape⟩
        · exact isNameText_singleton_append hplus (.inr (.inr hshape))
        · exact isNameText_singleton_append hplus (.inr (.inl hshape))
  | case4 afterChar c s _ _ hplus =>
      simp only [Bool.and_eq_true] at hplus
      exact .inr ⟨"+", rfl, .inr ⟨hplus.1.1.2, rfl⟩⟩
  | case5 => exact .inl rfl

theorem name_readAttributes {opened s rest : List Char} {e e' : Element}
    (h : readAttributes opened e s = .ok (e', rest)) : e'.name = e.name := by
  fun_induction readAttributes opened e s with
  | case1 => cases h
  | case2 e s tail hblanks =>
      cases h
      rfl
  | case3 => cases h
  | case4 e s a tail _ _ hread ih => exact ih h

/-- What follows the name of an element leaves the name as it is. -/
theorem name_readModifiers {e e' : Element} {s rest : List Char}
    (h : readModifiers e s = .ok (e', rest)) : e'.name = e.name := by
  fun_induction readModifiers e s with
  | case1 => cases h
  | case2 e s id hid ih => exact ih h
  | case3 => cases h
  | case4 e s classes hclasses ih => exact ih h
  | case5 => cases h
  | case6 e s found tail hread ih => exact (ih h).trans (name_readAttributes hread)
  | case7 => cases h
  | case8 e s span hspan ih => exact ih h
  | case9 e s =>
      cases h
      rfl
  | case10 e s =>
      cases h
      rfl

theorem wellNamed_readElement {s rest : List Char} {e : Element}
    (h : readElement s = .ok (e, rest)) : e.WellNamed := by
  intro hnumbering name hname
  have hread : name ∈ (if (scanName true false s).1.isEmpty then none
      else some (scanName true false s).1) := by
    simp only [readElement] at h
    split at h
    · cases h
    · next hmodifiers =>
      split at h
      · cases h
        rwa [name_readModifiers hmodifiers] at hname
      · split at h <;> cases h
  obtain ⟨hne, rfl⟩ : ¬(scanName true false s).1.isEmpty = true ∧
      (scanName true false s).1 = name := by
    split at hread
    · cases hread
    · next hne => exact ⟨hne, Option.some.inj hread⟩
  rcases scanName_eq_text fun n hn => hnumbering ⟨_, hname, n, hn⟩ with
    hnil | ⟨text, htext, hshape | ⟨hchar, _⟩⟩
  · exact absurd (List.isEmpty_iff.mpr hnil) hne
  · exact ⟨text, htext, hshape⟩
  · cases hchar

/-! ## Looking up names -/

theorem Element.not_showsPlus_of_name_eq_none {e : Element} (h : e.name = none) :
    ¬e.ShowsPlus := by
  rintro ⟨name, hname, _⟩
  rw [h] at hname
  cases hname

theorem Element.showsPlus_ofText {e : Element} {text : String}
    (h : e.name = some (Value.ofText text)) : e.ShowsPlus ↔ '+' ∈ text.toList := by
  simp [ShowsPlus, h, Value.ofText, Value.shown, Token.shown]

namespace Snippet

variable {e settled : Element} {name : String}

theorem name_of_key? (h : key? e = some name) : e.name = some (Value.ofText name) := by
  rw [key?] at h
  split at h
  · next found hname =>
    cases h
    exact hname
  · cases h

theorem not_hasNumbering_of_key? (h : key? e = some name) : ¬e.HasNumbering := by
  rintro ⟨found, hfound, n, hn⟩
  rw [name_of_key? h] at hfound
  cases hfound
  simp [Value.ofText] at hn

/-- Without a `+` there is nothing to drop. -/
theorem dropMarker_of_not_mem (h : '+' ∉ name.toList) : dropMarker name e = e := by
  rw [dropMarker, if_neg]
  intro hmarker
  rw [Bool.and_eq_true, beq_iff_eq] at hmarker
  exact h (List.mem_of_getLast? hmarker.2)

/-- From a name as it is read, the `+` is dropped. -/
theorem not_showsPlus_dropMarker (hname : e.name = some (Value.ofText name))
    (h : IsNameText name) : ¬(dropMarker name e).ShowsPlus := by
  obtain ⟨body, hne, hbody, htext | htext⟩ := h
  · rw [dropMarker_of_not_mem (htext ▸ hbody), Element.showsPlus_ofText hname, htext]
    exact hbody
  · have hmarker : (1 < name.length && name.toList.getLast? == some '+') = true := by
      have hpos := List.length_pos_iff.mpr hne
      rw [← String.length_toList, htext]
      simp only [List.length_append, List.length_singleton, List.getLast?_concat, beq_self_eq_true,
        Bool.and_true, decide_eq_true_eq]
      omega
    have htrimmed : (name.toList.reverse.dropWhile (· == '+')).reverse = body := by
      obtain ⟨c, before, hreverse⟩ := List.exists_cons_of_ne_nil (mt List.reverse_eq_nil_iff.mp hne)
      have hc : (c == '+') = false := by
        rw [beq_eq_false_iff_ne]
        rintro rfl
        exact hbody (List.mem_reverse.mp (hreverse ▸ List.mem_cons_self))
      rw [htext, List.reverse_append, List.reverse_singleton, List.singleton_append, hreverse,
        List.dropWhile_cons_of_pos (p := (· == '+')) rfl, List.dropWhile_cons_of_neg (by simp [hc]),
        ← hreverse, List.reverse_reverse]
    rw [dropMarker, if_pos hmarker, htrimmed, Element.showsPlus_ofText rfl, String.toList_ofList]
    exact hbody

/-- Of the elements that are no snippets, those keep a `+` that have a numbering. -/
theorem Settles.showsPlus_iff (h : Settles [] e settled) (he : e.WellNamed) :
    settled.ShowsPlus ↔ e.ShowsPlus ∧ e.HasNumbering := by
  cases h with
  | unnamed hkey =>
      refine ⟨fun hplus => ⟨hplus, ?_⟩, And.left⟩
      -- a name that is one text would be looked up
      by_contra hnumbering
      obtain ⟨found, hfound, _⟩ := hplus
      obtain ⟨text, rfl, _⟩ := he hnumbering found hfound
      rw [key?, hfound] at hkey
      cases hkey
  | lorem hkey =>
      exact iff_of_false (Element.not_showsPlus_of_name_eq_none rfl)
        fun h => not_hasNumbering_of_key? hkey h.2
  | inside _ _ hvisited => cases hvisited
  | unknown hkey =>
      have hnumbering := not_hasNumbering_of_key? hkey
      have hname := name_of_key? hkey
      obtain ⟨text, htext, hshape⟩ := he hnumbering _ hname
      cases htext
      exact iff_of_false (not_showsPlus_dropMarker hname hshape) fun h => hnumbering h.2

/-! ## Snippets have no `+` in their names -/

/-- An element without a `+` gets none, wherever it stands. -/
theorem Settles.not_showsPlus {visited : List String} (h : Settles visited e settled)
    (he : ¬e.ShowsPlus) : ¬settled.ShowsPlus := by
  cases h with
  | unnamed => exact he
  | lorem => exact Element.not_showsPlus_of_name_eq_none rfl
  | inside => exact he
  | unknown hkey =>
      rw [Element.showsPlus_ofText (name_of_key? hkey)] at he
      rwa [dropMarker_of_not_mem he, Element.showsPlus_ofText (name_of_key? hkey)]

theorem plain_table : ∀ entry ∈ table, ((parsed? entry.2).all fun parsed =>
    (Forest.preorder parsed).all fun e => e.name.all fun name =>
      !name.shown.toList.contains '+') = true := by
  decide +kernel

theorem not_showsPlus_of_read {limits : Limits} {source : String} {parsed : Forest}
    (hsource : source? name = some source) (h : read limits (withVariables source) = .ok parsed) :
    Forest.Each (¬·.ShowsPlus) parsed := by
  have htable := plain_table _ (mem_table_of_source? hsource)
  rw [parsed?_of_read hsource h, Option.all_some, List.all_eq_true] at htable
  rintro e he ⟨found, hfound, hplus⟩
  have hname := htable e he
  rw [hfound] at hname
  simp [hplus] at hname

theorem Resolved.not_showsPlus {limits : Limits} {budget : Nat} {visited : List String}
    {forest result : Forest} (h : Resolved limits budget visited forest result)
    (hforest : Forest.Each (¬·.ShowsPlus) forest) : Forest.Each (¬·.ShowsPlus) result :=
  h.each Settles.not_showsPlus (fun _ hown => hown) (fun _ _ hown => hown) not_showsPlus_of_read
    hforest

/-- What is under a snippet is still there when it is expanded, and the snippet adds no `+`. -/
theorem each_not_showsPlus_merge (e : Element) (times : Option Nat) (children : Forest)
    {expanded : Forest} (hne : expanded ≠ []) (hfilled : Forest.Filled expanded)
    (h : Forest.Each (¬·.ShowsPlus) expanded) :
    (merge e times children expanded).Each (¬·.ShowsPlus) ↔
      Forest.Each (¬·.ShowsPlus) children := by
  have hown : (merge e times [] expanded).Each (¬·.ShowsPlus) :=
    each_merge (fun hown => hown) (fun _ _ hown => hown) times Forest.each_nil h
  rw [Node.Each, (addedUnderLast_merge e times children hne hfilled).preorder_eq,
    List.forall_mem_append]
  exact and_iff_right hown

/-- Where snippets are expanded, a `+` is left if and only if the name has a numbering. -/
theorem Resolved.each_not_showsPlus_iff {limits : Limits} {budget : Nat} {forest result : Forest}
    (h : Resolved limits budget [] forest result)
    (hforest : Forest.Each Element.WellNamed forest) :
    Forest.Each (¬·.ShowsPlus) result ↔
      Forest.Each (fun e => ¬(e.ShowsPlus ∧ e.HasNumbering)) forest := by
  generalize hvisited : [] = visited at h
  induction h with
  | nil => exact iff_of_true Forest.each_nil Forest.each_nil
  | group _ _ ihchildren ihrest =>
      rw [Forest.each_cons, Node.each_group] at hforest
      rw [Forest.each_cons, Forest.each_cons, Node.each_group, Node.each_group,
        ihchildren hforest.1 hvisited, ihrest hforest.2 hvisited]
  | settled hsettles _ _ ihchildren ihrest =>
      subst hvisited
      rw [Forest.each_cons, Node.each_element] at hforest
      rw [Forest.each_cons, Forest.each_cons, Node.each_element, Node.each_element,
        ihchildren hforest.1.2 rfl, ihrest hforest.2 rfl, hsettles.showsPlus_iff hforest.1.1]
  | snippet hasks hread hexpanded _ _ _ ihchildren ihrest =>
      subst hvisited
      rw [Forest.each_cons, Node.each_element] at hforest
      obtain ⟨hne, hfilled⟩ := ne_nil_and_filled_of_read hread
      have hplain := hexpanded.not_showsPlus (not_showsPlus_of_read hasks.source hread)
      have hnumbering := not_hasNumbering_of_key? hasks.key
      rw [Forest.each_cons, Forest.each_cons, Node.each_element,
        each_not_showsPlus_merge _ _ _ (hexpanded.ne_nil hne) (hexpanded.filled hfilled) hplain,
        ihchildren hforest.1.2 rfl, ihrest hforest.2 rfl, and_iff_right fun h => hnumbering h.2]

end Snippet

/-! ## No element is repeated zero times -/

mutual

theorem Node.counts_updateFirstNamed? {f : Element → Element} : ∀ (node : Node) {result : Node},
    node.updateFirstNamed? f = some result → result.counts = node.counts
  | .element e times children, result, h => by
      rw [Node.updateFirstNamed?] at h
      split at h
      · cases h
        rw [Node.counts, Node.counts]
      · obtain ⟨inner, hinner, rfl⟩ := Option.map_eq_some_iff.mp h
        rw [Node.counts, Node.counts, Forest.counts_updateFirstNamed? children hinner]
  | .group times children, result, h => by
      rw [Node.updateFirstNamed?] at h
      obtain ⟨inner, hinner, rfl⟩ := Option.map_eq_some_iff.mp h
      rw [Node.counts, Node.counts, Forest.counts_updateFirstNamed? children hinner]

theorem Forest.counts_updateFirstNamed? {f : Element → Element} :
    ∀ (forest : Forest) {result : Forest}, Forest.updateFirstNamed? f forest = some result →
      Forest.counts result = Forest.counts forest
  | [], result, h => by
      rw [Forest.updateFirstNamed?] at h
      cases h
  | node :: rest, result, h => by
      rw [Forest.updateFirstNamed?] at h
      split at h
      · next first hfirst =>
        cases h
        rw [Forest.counts, Forest.counts, Node.counts_updateFirstNamed? node hfirst]
      · obtain ⟨others, hothers, rfl⟩ := Option.map_eq_some_iff.mp h
        rw [Forest.counts, Forest.counts, Forest.counts_updateFirstNamed? rest hothers]

end

mutual

theorem Node.counts_updateLastLeaf {P : Nat → Prop} {f : Node → Node}
    (hf : ∀ node : Node, (∀ count ∈ node.counts, P count) → ∀ count ∈ (f node).counts, P count) :
    ∀ node : Node, (∀ count ∈ node.counts, P count) →
      ∀ count ∈ (node.updateLastLeaf f).counts, P count
  | .element e times children, h => by
      rw [Node.updateLastLeaf]
      split
      · exact hf _ h
      · rw [Node.counts, List.forall_mem_append] at h ⊢
        exact ⟨h.1, Forest.counts_updateLastLeaf hf children h.2⟩
  | .group times children, h => by
      rw [Node.updateLastLeaf]
      split
      · exact hf _ h
      · rw [Node.counts, List.forall_mem_append] at h ⊢
        exact ⟨h.1, Forest.counts_updateLastLeaf hf children h.2⟩

theorem Forest.counts_updateLastLeaf {P : Nat → Prop} {f : Node → Node}
    (hf : ∀ node : Node, (∀ count ∈ node.counts, P count) → ∀ count ∈ (f node).counts, P count) :
    ∀ forest : Forest, (∀ count ∈ Forest.counts forest, P count) →
      ∀ count ∈ Forest.counts (Forest.updateLastLeaf f forest), P count
  | [], h => by rwa [Forest.updateLastLeaf]
  | [node], h => by
      rw [Forest.counts, List.forall_mem_append] at h
      rw [Forest.updateLastLeaf, Forest.counts, List.forall_mem_append]
      exact ⟨Node.counts_updateLastLeaf hf node h.1, h.2⟩
  | node :: next :: rest, h => by
      rw [Forest.counts, List.forall_mem_append] at h
      rw [Forest.updateLastLeaf, Forest.counts, List.forall_mem_append]
      exact ⟨h.1, Forest.counts_updateLastLeaf hf (next :: rest) h.2⟩

end

theorem Node.counts_receive (text : Option Value) (more : Forest) (node : Node) :
    (node.receive text more).counts = node.counts ++ Forest.counts more := by
  cases node with
  | element e times children =>
      cases text <;>
        rw [Node.receive, Node.counts, Node.counts, Forest.counts_append, List.append_assoc]
  | group times children =>
      rw [Node.receive, Node.counts, Node.counts, Forest.counts_append, List.append_assoc]

namespace Snippet

theorem counts_dressed (e : Element) (forest : Forest) :
    Forest.counts (dressed e forest) = Forest.counts forest := by
  rw [dressed]
  cases hupdated : Forest.updateFirstNamed? e.overrideWith forest with
  | none => rfl
  | some updated => exact Forest.counts_updateFirstNamed? forest hupdated

theorem counts_merge {P : Nat → Prop} {e : Element} {times : Option Nat} {children forest : Forest}
    (htimes : ∀ count ∈ times.toList, P count)
    (hchildren : ∀ count ∈ Forest.counts children, P count)
    (hforest : ∀ count ∈ Forest.counts forest, P count) :
    ∀ count ∈ (merge e times children forest).counts, P count := by
  rw [merge_eq, Node.counts, List.forall_mem_append]
  refine ⟨htimes, Forest.counts_updateLastLeaf ?_ _ (by rwa [counts_dressed])⟩
  intro node hnode
  rw [Node.counts_receive, List.forall_mem_append]
  exact ⟨hnode, hchildren⟩

/-- Snippets are written without repeat counts of zero, so none comes in with them. -/
theorem Resolved.one_le_counts {limits : Limits} {budget : Nat} {visited : List String}
    {forest result : Forest} (h : Resolved limits budget visited forest result)
    (hforest : ∀ count ∈ Forest.counts forest, 1 ≤ count) :
    ∀ count ∈ Forest.counts result, 1 ≤ count := by
  induction h with
  | nil => exact hforest
  | group _ _ ihchildren ihrest =>
      rw [Forest.counts, Node.counts, List.forall_mem_append, List.forall_mem_append] at hforest ⊢
      exact ⟨⟨hforest.1.1, ihchildren hforest.1.2⟩, ihrest hforest.2⟩
  | settled _ _ _ ihchildren ihrest =>
      rw [Forest.counts, Node.counts, List.forall_mem_append, List.forall_mem_append] at hforest ⊢
      exact ⟨⟨hforest.1.1, ihchildren hforest.1.2⟩, ihrest hforest.2⟩
  | snippet _ hread _ _ _ ihexpanded ihchildren ihrest =>
      rw [Forest.counts, Node.counts, List.forall_mem_append, List.forall_mem_append] at hforest
      rw [Forest.counts, List.forall_mem_append]
      have hexpanded := ihexpanded fun count hcount => (counts_of_read hread count hcount).1
      exact ⟨counts_merge hforest.1.1 (ihchildren hforest.1.2) hexpanded, ihrest hforest.2⟩

end Snippet

/-! ## Naming and unrolling -/

theorem implicitName_plain (parent : Option String) : '+' ∉ (implicitName parent).toList := by
  cases parent with
  | none => decide
  | some parent =>
      rw [implicitName]
      split
      case h_15 => split <;> decide
      all_goals decide

theorem Element.showsPlus_nameImplicitly (parent : Option String) (e : Element) :
    (e.nameImplicitly parent).ShowsPlus ↔ e.ShowsPlus := by
  rw [nameImplicitly]
  split
  · next h =>
    rw [Bool.and_eq_true, Option.isNone_iff_eq_none] at h
    refine iff_of_false ?_ (not_showsPlus_of_name_eq_none h.1)
    rw [showsPlus_ofText rfl]
    exact implicitName_plain parent
  · exact Iff.rfl

theorem Element.showsPlus_numbered (copy : Copy) (e : Element) :
    (e.numbered copy).ShowsPlus ↔ e.ShowsPlus := by
  simp only [ShowsPlus, numbered, Option.mem_def, Option.map_eq_some_iff, exists_exists_and_eq_and,
    Value.plus_mem_shown_numbered]

section EachIff

variable {P : Element → Prop}

mutual

theorem Node.each_nameImplicitly_iff (hP : ∀ parent e, P (e.nameImplicitly parent) ↔ P e) :
    ∀ (node : Node) (parent : Option String), (node.nameImplicitly parent).Each P ↔ node.Each P
  | .element e times children, parent => by
      rw [Node.nameImplicitly, Node.each_element, Node.each_element, hP,
        Forest.each_nameWithin_iff hP children]
  | .group times children, parent => by
      rw [Node.nameImplicitly, Node.each_group, Node.each_group,
        Forest.each_nameWithin_iff hP children]

theorem Forest.each_nameWithin_iff (hP : ∀ parent e, P (e.nameImplicitly parent) ↔ P e) :
    ∀ (forest : Forest) (parent : Option String),
      Forest.Each P (Forest.nameWithin parent forest) ↔ Forest.Each P forest
  | [], parent => by rw [Forest.nameWithin]
  | node :: rest, parent => by
      rw [Forest.nameWithin, Forest.each_cons, Forest.each_cons,
        Node.each_nameImplicitly_iff hP node, Forest.each_nameWithin_iff hP rest]

end

mutual

theorem Node.counts_nameImplicitly : ∀ (node : Node) (parent : Option String),
    (node.nameImplicitly parent).counts = node.counts
  | .element e times children, parent => by
      rw [Node.nameImplicitly, Node.counts, Node.counts, Forest.counts_nameWithin children]
  | .group times children, parent => by
      rw [Node.nameImplicitly, Node.counts, Node.counts, Forest.counts_nameWithin children]

theorem Forest.counts_nameWithin : ∀ (forest : Forest) (parent : Option String),
    Forest.counts (Forest.nameWithin parent forest) = Forest.counts forest
  | [], parent => by rw [Forest.nameWithin]
  | node :: rest, parent => by
      rw [Forest.nameWithin, Forest.counts, Forest.counts, Node.counts_nameImplicitly node,
        Forest.counts_nameWithin rest]

end

/-- What holds of one copy if and only if it holds of any other holds of all of them, and there is
one. -/
theorem each_eachCopy_iff {Q : Prop} {f : Copy → Forest} (h : ∀ copy, Forest.Each P (f copy) ↔ Q)
    {times : Option Nat} (htimes : ∀ count ∈ times.toList, 1 ≤ count) (around : Copy) :
    Forest.Each P (eachCopy times around f) ↔ Q := by
  constructor
  · intro hall
    cases times with
    | none => exact (h around).mp hall
    | some count =>
        obtain ⟨last, rfl⟩ := Nat.exists_eq_add_of_le' (htimes count (by simp))
        rw [eachCopy, List.range_succ_eq_map, List.flatMap_cons, Forest.each_append] at hall
        exact (h _).mp hall.1
  · intro hQ e he
    rw [Forest.preorder_eq_flatMap] at he
    obtain ⟨node, hnode, he⟩ := List.mem_flatMap.mp he
    obtain ⟨copy, hcopy⟩ := mem_eachCopy hnode
    refine (h copy).mpr hQ e ?_
    rw [Forest.preorder_eq_flatMap]
    exact List.mem_flatMap.mpr ⟨node, hcopy, he⟩

mutual

theorem Node.each_written_iff (hP : ∀ copy e, P (e.numbered copy) ↔ P e) :
    ∀ (node : Node) (copy : Copy), (∀ count ∈ node.counts, 1 ≤ count) →
      (Forest.Each P (node.written copy) ↔ node.Each P)
  | .element e times children, copy, h => by
      rw [Node.counts, List.forall_mem_append] at h
      rw [Node.written, Forest.each_cons, and_iff_left Forest.each_nil, Node.each_element,
        Node.each_element, hP, Forest.each_written_iff hP children copy h.2]
  | .group times children, copy, h => by
      rw [Node.counts, List.forall_mem_append] at h
      rw [Node.written, Node.each_group, Forest.each_written_iff hP children copy h.2]

/-- A property that numbering makes no difference to holds of the copies of elements if and only if
it holds of the elements. -/
theorem Forest.each_written_iff (hP : ∀ copy e, P (e.numbered copy) ↔ P e) :
    ∀ (forest : Forest) (copy : Copy), (∀ count ∈ Forest.counts forest, 1 ≤ count) →
      (Forest.Each P (Forest.written copy forest) ↔ Forest.Each P forest)
  | [], copy, _ => by rw [Forest.written]
  | node :: rest, copy, h => by
      rw [Forest.counts, List.forall_mem_append] at h
      have htimes : ∀ count ∈ node.times.toList, 1 ≤ count := by
        intro count hcount
        refine h.1 count ?_
        cases node <;> exact List.mem_append_left _ hcount
      rw [Forest.written, Forest.each_append, Forest.each_cons,
        each_eachCopy_iff (fun copy => Node.each_written_iff hP node copy h.1) htimes copy,
        Forest.each_written_iff hP rest copy h.2]

end

end EachIff

/-- **A `+` is left in a name only after a numbering.** When an abbreviation is finished, no element
has a `+` in its name, except where one is written at the end of a name with a numbering, and then
there always is one. -/
theorem exists_showsPlus_iff {limits : Limits} {abbreviation : String} {forest : Forest}
    (h : parse limits abbreviation = .ok forest) :
    ∃ written, read limits abbreviation = .ok written ∧
      ((∃ e ∈ Forest.preorder forest, e.ShowsPlus) ↔
        ∃ e ∈ Forest.preorder written, e.ShowsPlus ∧ e.HasNumbering) := by
  obtain ⟨written, expanded, hwritten, hexpanded, h⟩ := stages_of_parse h
  have hresolved := Snippet.resolve_eq_ok_iff.mp hexpanded
  have hnamed : Forest.Each Element.WellNamed written := by
    intro e he
    obtain ⟨s, rest, hread⟩ := exists_readElement_of_mem_read hwritten he
    exact wellNamed_readElement hread
  have hcounts := hresolved.one_le_counts fun count hcount =>
    (counts_of_read hwritten count hcount).1
  have hall : Forest.Each (¬·.ShowsPlus) forest ↔
      Forest.Each (fun e => ¬(e.ShowsPlus ∧ e.HasNumbering)) written := by
    rw [eq_written_of_unroll h, nameImplicitly,
      Forest.each_written_iff (fun copy e => not_congr (e.showsPlus_numbered copy)) _ _
        (by rwa [Forest.counts_nameWithin]),
      Forest.each_nameWithin_iff fun parent e => not_congr (e.showsPlus_nameImplicitly parent),
      hresolved.each_not_showsPlus_iff hnamed]
  refine ⟨written, hwritten, not_iff_not.mp ?_⟩
  simpa only [Forest.Each, not_exists, not_and] using hall

theorem exists_showsPlus_of_mem_names {forest : Forest} {name : String}
    (h : some name ∈ (Forest.preorder forest).map Element.shownName) (hplus : '+' ∈ name.toList) :
    ∃ e ∈ Forest.preorder forest, e.ShowsPlus := by
  obtain ⟨e, he, hname⟩ := List.mem_map.mp h
  obtain ⟨written, hwritten, rfl⟩ := Option.map_eq_some_iff.mp hname
  exact ⟨e, he, written, hwritten, hplus⟩

/-- A snippet, and in it a name with a `+` that stands for none. -/
theorem exists_showsPlus_iff_numberedItems :
    ∃ written forest, read {} "(ul+>x$y+)*2" = .ok written ∧
      parse {} "(ul+>x$y+)*2" = .ok forest ∧
      (Forest.preorder forest).map Element.shownName =
        [some "ul", some "li", some "x1y+", some "ul", some "li", some "x2y+"] ∧
      ∃ e ∈ Forest.preorder written, e.ShowsPlus ∧ e.HasNumbering := by
  obtain ⟨forest, h, hnames⟩ : ∃ forest, parse {} "(ul+>x$y+)*2" = .ok forest ∧
      (Forest.preorder forest).map Element.shownName =
        [some "ul", some "li", some "x1y+", some "ul", some "li", some "x2y+"] :=
    exists_eq_ok (by decide +kernel)
  obtain ⟨written, hwritten, hplus⟩ := exists_showsPlus_iff h
  have hshows : ∃ e ∈ Forest.preorder forest, e.ShowsPlus := by
    refine exists_showsPlus_of_mem_names ?_ (by decide : '+' ∈ "x1y+".toList)
    simp [hnames]
  exact ⟨written, forest, hwritten, h, hnames, hplus.mp hshows⟩

/-- Without the numbering the `+` is dropped, and with it it is part of the name. -/
theorem plus_kept_after_numbering :
    (∃ forest, parse {} "xy+" = .ok forest ∧
      (Forest.preorder forest).map Element.shownName = [some "xy"]) ∧
    ∃ forest, parse {} "x$y+" = .ok forest ∧ ∃ e ∈ Forest.preorder forest, e.ShowsPlus := by
  refine ⟨exists_eq_ok (by decide +kernel), ?_⟩
  obtain ⟨forest, h, hnames⟩ : ∃ forest, parse {} "x$y+" = .ok forest ∧
      (Forest.preorder forest).map Element.shownName = [some "x1y+"] :=
    exists_eq_ok (by decide +kernel)
  refine ⟨forest, h, exists_showsPlus_of_mem_names ?_ (by decide : '+' ∈ "x1y+".toList)⟩
  simp [hnames]

end Markup

end Shorthand
