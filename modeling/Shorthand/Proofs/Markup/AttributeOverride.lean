import Shorthand.Proofs.Markup.AttributeNames

/-!
# AttributeOverride — attributes written over others

The attributes of one element are written over those of another, one by one. Each goes to its
namesake: it takes the place of the value, or adds to it if it is a class (`Attribute.valueOver`).
An attribute without a namesake goes behind all others. If the names that are written are different,
the order makes no difference to the values, and `Element.Overridden` says what comes of it.
-/

namespace Shorthand.Markup

/-! ## Writing attributes over others -/

namespace Attribute

/-- The attribute called `name`. -/
def named (name : String) (as : List Attribute) : Option Attribute := as.find? (·.name == name)

theorem named_cons_self (a : Attribute) (as : List Attribute) :
    named a.name (a :: as) = some a := by
  simp [named]

theorem named_cons_of_ne {name : String} {a : Attribute} (h : a.name ≠ name) (as : List Attribute) :
    named name (a :: as) = named name as := by
  simp [named, h]

theorem name_eq_of_named {name : String} {a : Attribute} {as : List Attribute}
    (h : named name as = some a) : a.name = name := by
  have ha := List.find?_some h
  exact beq_iff_eq.mp ha

/-- Changes the value of the attribute called `name`, or gives one at the end a value. -/
def amend (name : String) (f : Option Value → Option Value) : List Attribute → List Attribute
  | [] => [⟨name, f none⟩]
  | a :: as => if a.name = name then ⟨name, f a.value⟩ :: as else a :: amend name f as

theorem named_amend_self (name : String) (f : Option Value → Option Value) (as : List Attribute) :
    named name (amend name f as) = some ⟨name, f ((named name as).bind Attribute.value)⟩ := by
  induction as with
  | nil => exact named_cons_self ⟨name, f none⟩ []
  | cons a as ih =>
    by_cases ha : a.name = name
    · subst ha
      rw [amend, if_pos rfl, named_cons_self a, named_cons_self ⟨a.name, f a.value⟩]
      rfl
    · rw [amend, if_neg ha, named_cons_of_ne ha, named_cons_of_ne ha, ih]

theorem named_amend_of_ne {name other : String} (h : name ≠ other)
    (f : Option Value → Option Value) (as : List Attribute) :
    named other (amend name f as) = named other as := by
  induction as with
  | nil => exact named_cons_of_ne (a := ⟨name, f none⟩) h []
  | cons a as ih =>
    by_cases ha : a.name = name
    · rw [amend, if_pos ha, named_cons_of_ne (a := ⟨name, f a.value⟩) h,
        named_cons_of_ne (ha ▸ h)]
    · rw [amend, if_neg ha]
      by_cases hother : a.name = other
      · rw [← hother, named_cons_self, named_cons_self]
      · rw [named_cons_of_ne hother, named_cons_of_ne hother, ih]

theorem set_eq_amend (name : String) (value : Option Value) (as : List Attribute) :
    set name value as = amend name (fun _ => value) as := by
  induction as with
  | nil => rfl
  | cons a as ih => rw [set, amend, ih]

theorem addClass_eq_amend (classes : Value) (as : List Attribute) :
    addClass classes as =
      amend "class" (fun old => some (joinClasses (old.getD []) classes)) as := by
  induction as with
  | nil => rfl
  | cons a as ih =>
    rw [addClass, amend, ih]
    split
    · next hname => rw [hname]
    · rfl

/-- Only a class without a value adds nothing. -/
def adds (a : Attribute) : Bool := a.name != "class" || a.value.isSome

/-- The value in place of an old one, over which the attribute is written. -/
def valueOver (a : Attribute) (old : Option Value) : Option Value :=
  if a.name = "class" then some (joinClasses (old.getD []) (a.value.getD [])) else a.value

theorem override_eq (a : Attribute) (as : List Attribute) :
    a.override as = if a.adds then amend a.name a.valueOver as else as := by
  obtain ⟨name, value⟩ := a
  by_cases hname : name = "class"
  · subst hname
    cases value with
    | none => rfl
    | some classes => exact addClass_eq_amend classes as
  · have hover : valueOver ⟨name, value⟩ = fun _ => value := by
      funext old
      exact if_neg hname
    simp only [override, adds, hover, if_neg hname, bne_iff_ne.mpr hname, Bool.true_or, if_true]
    exact set_eq_amend name value as

theorem named_override_self (a : Attribute) (as : List Attribute) :
    named a.name (a.override as) =
      if a.adds then some ⟨a.name, a.valueOver ((named a.name as).bind Attribute.value)⟩
      else named a.name as := by
  rw [override_eq]
  split
  · exact named_amend_self a.name a.valueOver as
  · rfl

theorem named_override_of_ne {a : Attribute} {name : String} (h : a.name ≠ name)
    (as : List Attribute) : named name (a.override as) = named name as := by
  rw [override_eq]
  split
  · exact named_amend_of_ne h a.valueOver as
  · rfl

theorem named_foldl_override_of_not_mem {name : String} {written : List Attribute}
    (h : name ∉ written.map Attribute.name) (as : List Attribute) :
    named name (written.foldl (fun as a => a.override as) as) = named name as := by
  induction written generalizing as with
  | nil => rfl
  | cons a written ih =>
    rw [List.map_cons, List.mem_cons, not_or] at h
    rw [List.foldl_cons, ih h.2, named_override_of_ne (Ne.symm h.1)]

/-- Attributes with different names are written over others independently. -/
theorem named_foldl_override {written : List Attribute}
    (h : (written.map Attribute.name).Nodup) (name : String) (as : List Attribute) :
    named name (written.foldl (fun as a => a.override as) as) =
      match named name written with
      | some a =>
        if a.adds then some ⟨name, a.valueOver ((named name as).bind Attribute.value)⟩
        else named name as
      | none => named name as := by
  induction written generalizing as with
  | nil => rfl
  | cons a written ih =>
    rw [List.map_cons, List.nodup_cons] at h
    rw [List.foldl_cons]
    by_cases hname : a.name = name
    · -- this is the only one, so what it makes of the old attribute stays
      subst hname
      rw [named_foldl_override_of_not_mem h.1, named_override_self, named_cons_self]
    · rw [ih h.2, named_cons_of_ne hname, named_override_of_ne hname]

theorem names_override (a : Attribute) (as : List Attribute) :
    (a.override as).map Attribute.name =
      if a.adds then addName a.name (as.map Attribute.name) else as.map Attribute.name := by
  obtain ⟨name, value⟩ := a
  by_cases hname : name = "class"
  · subst hname
    cases value with
    | none => rfl
    | some classes => exact names_addClass classes as
  · simp only [override, adds, if_neg hname, bne_iff_ne.mpr hname, Bool.true_or, if_true]
    exact names_set name value as

/-- The names that are new come after the others, in the order in which they are written. -/
theorem names_foldl_override {written : List Attribute} (h : (written.map Attribute.name).Nodup)
    (as : List Attribute) :
    (written.foldl (fun as a => a.override as) as).map Attribute.name =
      as.map Attribute.name ++
        (written.filter fun a => a.adds && a.name ∉ as.map Attribute.name).map Attribute.name := by
  induction written generalizing as with
  | nil => simp
  | cons a written ih =>
    rw [List.map_cons, List.nodup_cons] at h
    rw [List.foldl_cons, ih h.2, names_override]
    cases hadds : a.adds with
    | false => simp [hadds]
    | true =>
      by_cases hold : a.name ∈ as.map Attribute.name
      · simp only [addName, if_pos hold, if_true]
        rw [List.filter_cons_of_neg (by simp [hold])]
      · -- of the others none has the name that comes first
        have hothers : (written.filter fun b =>
            b.adds && b.name ∉ as.map Attribute.name ++ [a.name]) =
            written.filter fun b => b.adds && b.name ∉ as.map Attribute.name := by
          refine List.filter_congr fun b hb => ?_
          have hne : b.name ≠ a.name := fun heq => h.1 (heq ▸ List.mem_map_of_mem hb)
          simp [hne]
        simp only [addName, if_neg hold, if_true]
        rw [hothers, List.filter_cons_of_pos (by simp [hadds, hold]), List.map_cons,
          List.append_assoc, List.singleton_append]

end Attribute

/-! ## Classes -/

/-- If the attribute is a blank class, then it has no tokens: no space is missing behind it when
classes are added. -/
def Attribute.Solid (a : Attribute) : Prop :=
  a.name = "class" → (a.value.getD []).isBlank = true → a.value.getD [] = []

instance : DecidablePred Attribute.Solid := fun a =>
  inferInstanceAs (Decidable (a.name = "class" → _ → a.value.getD [] = []))

theorem Attribute.eq_nil_of_isBlank_joinClasses {old new : Value}
    (hold : old.isBlank = true → old = []) (hnew : new.isBlank = true → new = [])
    (h : (joinClasses old new).isBlank = true) : joinClasses old new = [] := by
  by_cases hblank : old.isBlank = true
  · rw [joinClasses, if_pos hblank, hold hblank, List.nil_append] at h ⊢
    exact hnew h
  · rw [joinClasses, if_neg hblank, Value.isBlank, List.all_append, List.all_cons] at h
    simp at h

theorem Attribute.mem_amend {name : String} {f : Option Value → Option Value} {as : List Attribute}
    {b : Attribute} (h : b ∈ amend name f as) :
    b ∈ as ∨ ∃ old, b = ⟨name, f old⟩ ∧ (old = none ∨ ⟨name, old⟩ ∈ as) := by
  induction as with
  | nil =>
    rw [amend, List.mem_singleton] at h
    exact .inr ⟨none, h, .inl rfl⟩
  | cons a as ih =>
    rw [amend] at h
    split at h
    · next hname =>
      subst hname
      rcases List.mem_cons.mp h with rfl | hb
      · exact .inr ⟨a.value, rfl, .inr List.mem_cons_self⟩
      · exact .inl (List.mem_cons_of_mem a hb)
    · rcases List.mem_cons.mp h with rfl | hb
      · exact .inl List.mem_cons_self
      · rcases ih hb with hb | ⟨old, rfl, hold⟩
        · exact .inl (List.mem_cons_of_mem a hb)
        · exact .inr ⟨old, rfl, hold.imp_right (List.mem_cons_of_mem a)⟩

theorem Attribute.solid_override {a : Attribute} (ha : a.Solid) {as : List Attribute}
    (has : ∀ b ∈ as, b.Solid) : ∀ b ∈ a.override as, b.Solid := by
  intro b hb
  rw [override_eq] at hb
  split at hb
  · rcases mem_amend hb with hb | ⟨old, rfl, hold⟩
    · exact has b hb
    · intro hclass
      have hover : a.valueOver old = some (joinClasses (old.getD []) (a.value.getD [])) :=
        if_pos hclass
      rw [hover]
      refine eq_nil_of_isBlank_joinClasses ?_ (ha hclass)
      rcases hold with rfl | hold
      · exact fun _ => rfl
      · exact has _ hold hclass
  · exact has b hb

/-- A class attribute of the element that is blank has no tokens. -/
def Element.SolidClasses (e : Element) : Prop := ∀ a ∈ e.attributes, a.Solid

theorem Element.SolidClasses.overrideWith {written e : Element} (hwritten : written.SolidClasses)
    (he : e.SolidClasses) : (written.overrideWith e).SolidClasses := by
  have hfold : ∀ as bs : List Attribute, (∀ a ∈ as, a.Solid) → (∀ b ∈ bs, b.Solid) →
      ∀ b ∈ as.foldl (fun bs a => a.override bs) bs, b.Solid := by
    intro as
    induction as with
    | nil => exact fun bs _ hbs => hbs
    | cons a as ih =>
      intro bs has hbs
      rw [List.forall_mem_cons] at has
      exact ih _ has.2 (Attribute.solid_override has.1 hbs)
  exact hfold written.attributes e.attributes hwritten he

/-- The tokens of the class attribute. -/
def Element.classes (e : Element) : Value := ((e.attribute? "class").bind Attribute.value).getD []

theorem Element.SolidClasses.joinClasses_eq {e : Element} (h : e.SolidClasses) (new : Value) :
    Attribute.joinClasses e.classes new =
      if e.classes = [] then new else e.classes ++ .text " " :: new := by
  have hblank : e.classes.isBlank = true ↔ e.classes = [] := by
    constructor
    · rw [Element.classes]
      cases hclass : e.attribute? "class" with
      | none => exact fun _ => rfl
      | some a =>
        exact h a (List.mem_of_find?_eq_some hclass) (Attribute.name_eq_of_named hclass)
    · intro hnil
      rw [hnil]
      rfl
  rw [Attribute.joinClasses]
  by_cases hnil : e.classes = []
  · rw [if_pos (hblank.mpr hnil), if_pos hnil, hnil, List.nil_append]
  · rw [if_neg fun hb => hnil (hblank.mp hb), if_neg hnil]

/-! ## One element over another -/

/-- `y` is `x` with the attributes of `written` over its own: an attribute of `written` takes the
place of its namesake, and the classes are added to the classes. -/
structure Element.Overridden (written x y : Element) : Prop where
  same : y = { x with attributes := y.attributes }
  names : y.attributes.map Attribute.name = x.attributes.map Attribute.name ++
    (written.attributes.filter fun a =>
      a.adds && a.name ∉ x.attributes.map Attribute.name).map Attribute.name
  others : ∀ name, name ≠ "class" →
    y.attribute? name = (written.attribute? name).or (x.attribute? name)
  classes : ∀ new, (written.attribute? "class").bind Attribute.value = some new →
    y.attribute? "class" =
      some ⟨"class", some (if x.classes = [] then new else x.classes ++ .text " " :: new)⟩
  noClasses : (written.attribute? "class").bind Attribute.value = none →
    y.attribute? "class" = x.attribute? "class"

theorem Element.overridden_override {written x : Element} (hdistinct : written.Distinct)
    (hsolid : x.SolidClasses) :
    written.Overridden x { x with
      attributes := written.attributes.foldl (fun as a => a.override as) x.attributes } := by
  have hnamed := fun name => Attribute.named_foldl_override hdistinct name x.attributes
  refine ⟨rfl, Attribute.names_foldl_override hdistinct x.attributes, ?_, ?_, ?_⟩
  · intro name hname
    refine (hnamed name).trans ?_
    rw [attribute?, attribute?, ← Attribute.named, ← Attribute.named]
    cases hwritten : Attribute.named name written.attributes with
    | none => rfl
    | some a =>
      obtain rfl := Attribute.name_eq_of_named hwritten
      have hadds : a.adds = true := by simp [Attribute.adds, hname]
      simp only [hadds, if_true, Attribute.valueOver, if_neg hname]
      rfl
  · intro new hnew
    refine (hnamed "class").trans ?_
    obtain ⟨a, hwritten, hvalue⟩ := Option.bind_eq_some_iff.mp hnew
    have hclass : a.name = "class" := Attribute.name_eq_of_named hwritten
    have hadds : a.adds = true := by simp [Attribute.adds, hvalue]
    rw [attribute?, ← Attribute.named] at hwritten
    simp only [hwritten, hadds, if_true, Attribute.valueOver, if_pos hclass, hvalue,
      Option.getD_some]
    exact congrArg (fun v => some (Attribute.mk "class" (some v))) (hsolid.joinClasses_eq new)
  · intro hnone
    refine (hnamed "class").trans ?_
    rw [attribute?, ← Attribute.named] at hnone
    cases hwritten : Attribute.named "class" written.attributes with
    | none => rfl
    | some a =>
      rw [hwritten, Option.bind_some] at hnone
      have hclass : a.name = "class" := Attribute.name_eq_of_named hwritten
      have hadds : a.adds = false := by simp [Attribute.adds, hclass, hnone]
      simp only [hadds]
      rfl

end Shorthand.Markup
