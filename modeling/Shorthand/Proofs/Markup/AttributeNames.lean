import Shorthand.Proofs.Markup.Preorder

/-!
# AttributeNames — no element has an attribute twice

An attribute is written as an id, as a class, or in a bracketed set, and a snippet brings its own
for the written ones to go over. Each way looks for the name first: it goes in place of the old one,
adds to it, or removes it and goes to the end. So the names stay distinct (`Element.Distinct`), in
whatever order and however often the ways are taken, and the passes behind the reader have no part
in it beyond that.
-/

namespace Shorthand.Markup

open Text

/-! ## Names in a list of attributes -/

namespace Attribute

/-- A name behind the ones there are, unless it is one of them. -/
def addName (name : String) (names : List String) : List String :=
  if name ∈ names then names else names ++ [name]

theorem nodup_addName (name : String) {names : List String} (h : names.Nodup) :
    (addName name names).Nodup := by
  rw [addName]
  split
  · exact h
  · next hnew =>
    refine List.nodup_append.mpr ⟨h, by simp, ?_⟩
    intro old hold new hadded heq
    rw [List.mem_singleton] at hadded
    exact hnew (hadded ▸ heq ▸ hold)

theorem addName_cons_of_ne {name first : String} (h : first ≠ name) (names : List String) :
    addName name (first :: names) = first :: addName name names := by
  by_cases hmem : name ∈ names
  · simp [addName, hmem]
  · simp [addName, hmem, Ne.symm h]

theorem names_set (name : String) (value : Option Value) (as : List Attribute) :
    (set name value as).map Attribute.name = addName name (as.map Attribute.name) := by
  induction as with
  | nil => rfl
  | cons a as ih =>
      rw [set]
      split
      · next hname => simp [addName, hname]
      · next hname => rw [List.map_cons, ih, List.map_cons, addName_cons_of_ne hname]

theorem names_addClass (classes : Value) (as : List Attribute) :
    (addClass classes as).map Attribute.name = addName "class" (as.map Attribute.name) := by
  induction as with
  | nil => rfl
  | cons a as ih =>
      rw [addClass]
      split
      · next hname => simp [addName, hname]
      · next hname => rw [List.map_cons, ih, List.map_cons, addName_cons_of_ne hname]

/-- Writing over attributes adds at most one name, at the end. -/
theorem nodup_override (a : Attribute) {as : List Attribute} (h : (as.map Attribute.name).Nodup) :
    ((a.override as).map Attribute.name).Nodup := by
  rw [override]
  split
  · split
    · rw [names_addClass]
      exact nodup_addName _ h
    · exact h
  · rw [names_set]
    exact nodup_addName _ h

theorem nodup_putLast (a : Attribute) {as : List Attribute} (h : (as.map Attribute.name).Nodup) :
    ((a.putLast as).map Attribute.name).Nodup := by
  rw [putLast]
  split
  · exact nodup_override a h
  · -- what is kept has other names than the attribute that goes to the end
    rw [List.map_append, List.nodup_append]
    refine ⟨h.sublist (List.filter_sublist.map _), by simp, ?_⟩
    intro name hname last hlast
    obtain ⟨b, hb, rfl⟩ := List.mem_map.mp hname
    rw [List.map_singleton, List.mem_singleton] at hlast
    rw [hlast]
    exact bne_iff_ne.mp (List.mem_filter.mp hb).2

end Attribute

/-- An element without two attributes of one name. -/
def Element.Distinct (e : Element) : Prop := (e.attributes.map Attribute.name).Nodup

/-! ## Reading -/

theorem distinct_readAttributes {opened s rest : List Char} {e e' : Element} (he : e.Distinct)
    (h : readAttributes opened e s = .ok (e', rest)) : e'.Distinct := by
  fun_induction readAttributes opened e s with
  | case1 => cases h
  | case2 e s tail hblanks =>
      cases h
      exact he
  | case3 => cases h
  | case4 e s a tail _ _ hread ih => exact ih (a.nodup_putLast he) h

/-- Every kind of modifier keeps the names distinct. -/
theorem distinct_readModifiers {e e' : Element} {s rest : List Char} (he : e.Distinct)
    (h : readModifiers e s = .ok (e', rest)) : e'.Distinct := by
  fun_induction readModifiers e s with
  | case1 => cases h
  | case2 e s id hid ih =>
      refine ih ?_ h
      rw [Element.Distinct, Element.setAttribute, Attribute.names_set]
      exact Attribute.nodup_addName _ he
  | case3 => cases h
  | case4 e s classes hclasses ih =>
      refine ih ?_ h
      rw [Element.Distinct, Element.addClass, Attribute.names_addClass]
      exact Attribute.nodup_addName _ he
  | case5 => cases h
  | case6 e s found tail hread ih => exact ih (distinct_readAttributes he hread) h
  | case7 => cases h
  | case8 e s span hspan ih => exact ih he h
  | case9 e s =>
      cases h
      exact he
  | case10 e s =>
      cases h
      exact he

theorem distinct_readElement {s rest : List Char} {e : Element}
    (h : readElement s = .ok (e, rest)) : e.Distinct := by
  simp only [readElement] at h
  split at h
  · cases h
  · next hread =>
    split at h
    · cases h
      exact distinct_readModifiers (e := { name := _ }) List.nodup_nil hread
    · split at h <;> cases h

/-! ## The result -/

/-- What a snippet's attributes are overridden with is written over them one by one. -/
theorem Element.Distinct.overrideWith {written e : Element} (he : e.Distinct) :
    (written.overrideWith e).Distinct := by
  have hfold : ∀ (as bs : List Attribute), (bs.map Attribute.name).Nodup →
      ((as.foldl (fun bs a => a.override bs) bs).map Attribute.name).Nodup := by
    intro as
    induction as with
    | nil => exact fun bs h => h
    | cons a as ih => exact fun bs h => ih _ (a.nodup_override h)
  exact hfold written.attributes e.attributes he

theorem Element.distinct_kept : Element.Kept Element.Distinct where
  read := distinct_readElement
  fill := fun _ _ he => he
  dropMarker := by
    intro name e he
    rw [Snippet.dropMarker]
    split
    · exact he
    · exact he
  overrideWith := fun _ he => he.overrideWith
  addText := fun _ _ he => he
  nameImplicitly := by
    intro parent e he
    rw [Element.nameImplicitly]
    split
    · exact he
    · exact he
  numbered := by
    intro copy e he
    simpa [Element.Distinct, Element.numbered, Function.comp_def] using he

/-- **No element has an attribute twice**: in the finished forest of any abbreviation, the
attributes of each element have different names. -/
theorem attributeNames_nodup {limits : Limits} {abbreviation : String} {forest : Forest}
    (h : parse limits abbreviation = .ok forest) :
    ∀ e ∈ Forest.preorder forest, (e.attributes.map Attribute.name).Nodup :=
  Element.distinct_kept.each_parse h

/-- Names that are written again in every way, on snippets that have some of them themselves. -/
theorem attributeNames_nodup_rewritten :
    ∃ forest, parse {} "a.x[href=1 id=2 href=3 class=y class]#z.w>img[src alt src]*2" = .ok forest ∧
      (Forest.preorder forest).map (·.attributes.map Attribute.name) =
        [["href", "class", "id"], ["src", "alt"], ["src", "alt"]] ∧
      ∀ e ∈ Forest.preorder forest, (e.attributes.map Attribute.name).Nodup := by
  have hnames :
      (parse {} "a.x[href=1 id=2 href=3 class=y class]#z.w>img[src alt src]*2").toOption.map
        (fun forest => (Forest.preorder forest).map (·.attributes.map Attribute.name)) =
        some [["href", "class", "id"], ["src", "alt"], ["src", "alt"]] := by
    decide +kernel
  cases h : parse {} "a.x[href=1 id=2 href=3 class=y class]#z.w>img[src alt src]*2" with
  | ok forest =>
      rw [h] at hnames
      exact ⟨forest, rfl, Option.some.inj hnames, attributeNames_nodup h⟩
  | error e =>
      rw [h] at hnames
      cases hnames

end Shorthand.Markup
