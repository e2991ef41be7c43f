import Shorthand.Proofs.Markup.Writing

/-!
# TabStops — when the tab-stops of an HTML output clash

A forest asks for tab-stops in two ways: where one is written, and where something is left empty.
`stopsOf` lists what a forest asks for, in the order of the output and without numbers. The writer
answers each with a number of 64 bits. `tabStops_clashFree` says that these are numbers that keep
apart what the forest keeps apart, cut down to 64 bits: an empty place has a number of its own, and
two written tab-stops have the same number only if they were written as the same one, in the same
element. Nothing is lost if the forest uses no number beyond 64 bits, and `tabStops_clash` is a
forest of three elements that does.

The argument is about ranges of numbers without a bound. An element that starts behind number `lo`
numbers its written tab-stops up to `lo + maxField`, its empty places behind that, and its children
behind those (`Spans`); so what comes later has larger numbers, whatever it is. The pen holds the
last number cut down to 64 bits, and that is all the writer needs to know of it.
-/

namespace Shorthand

/-- The call of the field format that a segment makes, if it is a field: its arguments. -/
def Segment.call? : Segment → Option (Nat × Option String)
  | .literal _ => none
  | .field index placeholder => some (index, placeholder)

/-- The calls of the field format, in the order of the output. -/
def Segment.calls (segments : List Segment) : List (Nat × Option String) :=
  segments.filterMap Segment.call?

@[simp] theorem Segment.calls_nil : Segment.calls [] = [] := rfl

@[simp] theorem Segment.calls_literal (s : String) (segments : List Segment) :
    Segment.calls (.literal s :: segments) = Segment.calls segments := rfl

@[simp] theorem Segment.calls_field (index : Nat) (placeholder : Option String)
    (segments : List Segment) :
    Segment.calls (.field index placeholder :: segments) =
      (index, placeholder) :: Segment.calls segments := rfl

@[simp] theorem Segment.calls_append (first second : List Segment) :
    Segment.calls (first ++ second) = Segment.calls first ++ Segment.calls second :=
  List.filterMap_append

namespace Markup.Html

/-! ## What a forest asks for -/

/-- A tab-stop that a forest asks for. -/
inductive Stop where
  /-- A place left empty: an attribute without a value, or an element without content. -/
  | hole
  /-- A tab-stop written as `index` in the element at `path`, which leads from the element to the
  top. -/
  | written (path : List Nat) (index : Nat) (placeholder : Option String)
  deriving Repr, DecidableEq

def Stop.placeholder : Stop → Option String
  | .hole => none
  | .written _ _ placeholder => placeholder

/-- The tab-stops written in a value. -/
def stopsOfValue (path : List Nat) (v : Value) : List Stop :=
  v.filterMap fun
    | .field index placeholder => some (.written path index placeholder)
    | _ => none

/-- What an attribute asks for: the tab-stops in its value, or one in the place of a value. -/
def stopsOfAttribute (path : List Nat) (a : Attribute) : List Stop :=
  match a.value with
  | some value => if value.isBlank then [.hole] else stopsOfValue path value
  | none => if isBooleanAttribute a.name then [] else [.hole]

def stopsOfText (path : List Nat) (e : Element) : List Stop := stopsOfValue path (e.text.getD [])

mutual

/-- What a node asks for. An element without a name shows its text and its children only, and an
element without a closing tag its attributes only. -/
def stopsOfNode (path : List Nat) : Node → List Stop
  | .group _ children => stopsOfLevel path 0 children
  | .element e _ children =>
    match e.shownName with
    | none => stopsOfText path e ++ stopsOfLevel path 0 children
    | some name =>
      e.attributes.flatMap (stopsOfAttribute path) ++
        if isVoid name || e.selfClosing then []
        else stopsOfText path e ++
          if children.isEmpty && e.text.isNone then [.hole] else stopsOfLevel path 0 children

/-- What the nodes of a level ask for; the first has the number `k` in its parent. -/
def stopsOfLevel (path : List Nat) (k : Nat) : Forest → List Stop
  | [] => []
  | node :: rest => stopsOfNode (k :: path) node ++ stopsOfLevel path (k + 1) rest

end

/-- Whether an attribute is shown with a tab-stop in the place of a value. -/
def isHole (a : Attribute) : Bool :=
  match a.value with
  | some value => value.isBlank
  | none => !isBooleanAttribute a.name

mutual

/-- How many tab-stop numbers a node uses: those written in it, one for each attribute without a
value, and one for an element with nothing in it. -/
def numbersOfNode : Node → Nat
  | .group _ children => numbersOfLevel children
  | .element e _ children =>
    match e.shownName with
    | none => e.maxField + numbersOfLevel children
    | some name =>
      e.maxField + e.attributes.countP isHole +
        if isVoid name || e.selfClosing then 0
        else if children.isEmpty && e.text.isNone then 1
        else numbersOfLevel children

def numbersOfLevel : Forest → Nat
  | [] => 0
  | node :: rest => numbersOfNode node + numbersOfLevel rest

end

theorem writeAttribute_snd (base last : Nat) (a : Attribute) :
    (writeAttribute base (last % UInt64.size) a).2 =
      (if isHole a then last + 1 else last) % UInt64.size := by
  obtain ⟨name, value⟩ := a
  cases value with
  | none =>
      cases hboolean : isBooleanAttribute name <;>
        simp [writeAttribute, isHole, hboolean, addWord]
  | some value =>
      cases hblank : value.isBlank <;> simp [writeAttribute, isHole, hblank, addWord]

theorem writeAttributes_snd (base last : Nat) (as : List Attribute) :
    (writeAttributes base (last % UInt64.size) as).2 =
      (last + as.countP isHole) % UInt64.size := by
  induction as generalizing last with
  | nil => rfl
  | cons a as ih =>
      simp only [writeAttributes, writeAttribute_snd, ih, List.countP_cons]
      congr 1
      split <;> omega

theorem writeOpening_snd (base : Nat) (name : String) (e : Element) :
    (writeOpening base name e).2 =
      (base + e.maxField + e.attributes.countP isHole) % UInt64.size :=
  writeAttributes_snd base (base + e.maxField) e.attributes

/-- Only the last number in 64 bits matters to the text of an element. -/
theorem segments_mod (n : Nat) (v : Value) : v.segments (n % UInt64.size) = v.segments n := by
  refine List.map_congr_left fun token _ => ?_
  cases token with
  | text s => rfl
  | field index placeholder => rw [Token.segment, Token.segment, addWord_mod]
  | number n => rfl

theorem writeText_mod (n : Nat) (e : Element) : writeText (n % UInt64.size) e = writeText n e :=
  segments_mod n _

theorem writeAttributes_mod (n last : Nat) (as : List Attribute) :
    writeAttributes (n % UInt64.size) last as = writeAttributes n last as := by
  induction as generalizing last with
  | nil => rfl
  | cons a as ih => simp only [writeAttributes, writeAttribute, segments_mod, ih]

/-- Only the last number in 64 bits matters to the opening tag of an element. -/
theorem writeOpening_mod (n : Nat) (name : String) (e : Element) :
    writeOpening (n % UInt64.size) name e = writeOpening n name e := by
  simp only [writeOpening, addWord_mod, writeAttributes_mod]

/-! ## Numbers for stops -/

/-- Two numbered stops, the first before the second, that do not clash. -/
def Apart : Stop × Nat → Stop × Nat → Prop
  | (.hole, m), (.hole, n) => m < n
  | (.hole, m), (.written .., n) => m ≠ n
  | (.written .., m), (.hole, n) => m ≠ n
  | (.written p i _, m), (.written q j _, n) => m = n → m ≠ 0 → p = q ∧ i = j

/-- The stops with numbers such that no two clash and each meets `ok`, and the calls, which have
the numbers in 64 bits. -/
def Numbered (ok : Stop × Nat → Prop) (stops : List Stop) (calls : List (Nat × Option String)) :
    Prop :=
  ∃ numbered : List (Stop × Nat),
    numbered.map Prod.fst = stops ∧
    numbered.map (fun c => (c.2 % UInt64.size, c.1.placeholder)) = calls ∧
    numbered.Pairwise Apart ∧ ∀ c ∈ numbered, ok c

namespace Numbered

variable {ok ok₁ ok₂ : Stop × Nat → Prop} {stops stops₁ stops₂ : List Stop}
  {calls calls₁ calls₂ : List (Nat × Option String)}

theorem nil : Numbered ok [] [] := ⟨[], rfl, rfl, List.Pairwise.nil, by simp⟩

theorem single (stop : Stop) {n : Nat} (h : ok (stop, n)) :
    Numbered ok [stop] [(n % UInt64.size, stop.placeholder)] :=
  ⟨[(stop, n)], rfl, rfl, List.pairwise_singleton _ _, by simpa using h⟩

theorem mono (h : Numbered ok₁ stops calls) (himp : ∀ c, ok₁ c → ok c) :
    Numbered ok stops calls := by
  obtain ⟨numbered, hstops, hcalls, hapart, hok⟩ := h
  exact ⟨numbered, hstops, hcalls, hapart, fun c hc => himp c (hok c hc)⟩

/-- Two lists of calls make one, if nothing of the first clashes with anything of the second. -/
theorem append (h₁ : Numbered ok₁ stops₁ calls₁) (h₂ : Numbered ok₂ stops₂ calls₂)
    (hcross : ∀ a b, ok₁ a → ok₂ b → Apart a b) (himp₁ : ∀ c, ok₁ c → ok c)
    (himp₂ : ∀ c, ok₂ c → ok c) : Numbered ok (stops₁ ++ stops₂) (calls₁ ++ calls₂) := by
  obtain ⟨first, hstops₁, hcalls₁, hapart₁, hok₁⟩ := h₁
  obtain ⟨second, hstops₂, hcalls₂, hapart₂, hok₂⟩ := h₂
  refine ⟨first ++ second, ?_, ?_, ?_, ?_⟩
  · rw [List.map_append, hstops₁, hstops₂]
  · rw [List.map_append, hcalls₁, hcalls₂]
  · rw [List.pairwise_append]
    exact ⟨hapart₁, hapart₂, fun a ha b hb => hcross a b (hok₁ a ha) (hok₂ b hb)⟩
  · intro c hc
    rcases List.mem_append.mp hc with hc | hc
    · exact himp₁ c (hok₁ c hc)
    · exact himp₂ c (hok₂ c hc)

end Numbered

/-! ## The numbers of one element -/

/-- A numbered stop of the element at `path`: a written one counts from `base` and is at most the
`max`-th, and an empty place is behind `lo` and not behind `hi`. -/
def InElement (path : List Nat) (base max lo hi : Nat) : Stop × Nat → Prop
  | (.hole, n) => lo < n ∧ n ≤ hi
  | (.written p i _, n) => p = path ∧ i ≤ max ∧ n = if i = 0 then 0 else base + i

theorem apart_of_inElement {path : List Nat} {base max lo mid hi : Nat} {a b : Stop × Nat}
    (hlo : base + max ≤ lo) (hmid : lo ≤ mid) (ha : InElement path base max lo mid a)
    (hb : InElement path base max mid hi b) : Apart a b := by
  rcases a with ⟨_ | ⟨p, i, u⟩, m⟩ <;> rcases b with ⟨_ | ⟨q, j, v⟩, n⟩ <;>
    simp only [InElement] at ha hb <;> simp only [Apart]
  · omega
  · obtain ⟨-, hj, rfl⟩ := hb
    split <;> omega
  · obtain ⟨-, hi, rfl⟩ := ha
    split <;> omega
  · obtain ⟨rfl, -, rfl⟩ := ha
    obtain ⟨rfl, -, rfl⟩ := hb
    intro hsame hne
    by_cases hi : i = 0
    · rw [if_pos hi] at hne
      exact absurd rfl hne
    · rw [if_neg hi] at hsame
      split at hsame
      · omega
      · exact ⟨rfl, by omega⟩

/-- What a part of an element asks for and the calls it makes, with its empty places behind `lo` up
to `hi`. -/
structure Fills (path : List Nat) (base max lo hi : Nat) (stops : List Stop)
    (calls : List (Nat × Option String)) : Prop where
  bound : base + max ≤ lo
  le : lo ≤ hi
  numbered : Numbered (InElement path base max lo hi) stops calls

namespace Fills

variable {path : List Nat} {base max lo mid hi : Nat} {stops₁ stops₂ : List Stop}
  {calls₁ calls₂ : List (Nat × Option String)}

theorem nil (hlo : base + max ≤ lo) : Fills path base max lo lo [] [] :=
  ⟨hlo, Nat.le_refl _, Numbered.nil⟩

theorem hole (hlo : base + max ≤ lo) :
    Fills path base max lo (lo + 1) [.hole] [(addWord lo 1, none)] where
  bound := hlo
  le := Nat.le_succ _
  numbered := Numbered.single .hole ⟨Nat.lt_succ_self _, Nat.le_refl _⟩

theorem append (h₁ : Fills path base max lo mid stops₁ calls₁)
    (h₂ : Fills path base max mid hi stops₂ calls₂) :
    Fills path base max lo hi (stops₁ ++ stops₂) (calls₁ ++ calls₂) where
  bound := h₁.bound
  le := Nat.le_trans h₁.le h₂.le
  numbered := by
    have hle₁ := h₁.le
    have hle₂ := h₂.le
    refine h₁.numbered.append h₂.numbered
      (fun a b ha hb => apart_of_inElement h₁.bound hle₁ ha hb) ?_ ?_
    -- a written stop is bounded by `base` and `max` alone, so only empty places need the range
    · rintro ⟨_ | ⟨p, i, u⟩, n⟩ hc
      · exact ⟨hc.1, Nat.le_trans hc.2 hle₂⟩
      · exact hc
    · rintro ⟨_ | ⟨p, i, u⟩, n⟩ hc
      · exact ⟨Nat.lt_of_le_of_lt hle₁ hc.1, hc.2⟩
      · exact hc

/-- The tab-stops of a value in which none is behind the `max`-th. -/
theorem of_value (path : List Nat) (hlo : base + max ≤ lo) {v : Value}
    (hv : ∀ i ∈ v.fieldIndices, i ≤ max) :
    Fills path base max lo lo (stopsOfValue path v) (Segment.calls (v.segments base)) := by
  induction v with
  | nil => exact nil hlo
  | cons token v ih =>
      cases token with
      | text s => exact ih hv
      | number n => exact ih hv
      | field index placeholder =>
          have hindex : index ≤ max := hv index List.mem_cons_self
          have hfirst : Fills path base max lo lo [.written path index placeholder]
              [((if index = 0 then 0 else base + index) % UInt64.size, placeholder)] :=
            ⟨hlo, Nat.le_refl _,
              Numbered.single (.written path index placeholder) ⟨rfl, hindex, rfl⟩⟩
          have hword : (if index = 0 then 0 else base + index) % UInt64.size =
              if index = 0 then 0 else addWord base index := by
            split <;> rfl
          rw [hword] at hfirst
          exact hfirst.append (ih fun i hi => hv i (List.mem_cons_of_mem _ hi))

/-- An attribute that is written when the last number is `lo`, in 64 bits. -/
theorem of_attribute (path : List Nat) (hlo : base + max ≤ lo) {a : Attribute}
    (ha : ∀ v ∈ a.value, ∀ i ∈ v.fieldIndices, i ≤ max) :
    Fills path base max lo (if isHole a then lo + 1 else lo) (stopsOfAttribute path a)
      (Segment.calls (writeAttribute base (lo % UInt64.size) a).1) := by
  obtain ⟨name, value⟩ := a
  simp only [writeAttribute, stopsOfAttribute, isHole, addWord_mod]
  cases value with
  | none =>
      by_cases hboolean : isBooleanAttribute name = true
      · simpa [hboolean] using nil hlo
      · simpa [hboolean] using hole hlo
  | some v =>
      by_cases hblank : v.isBlank = true
      · simpa [hblank] using hole hlo
      · simpa [hblank] using of_value path hlo (ha v rfl)

theorem of_attributes (path : List Nat) (hlo : base + max ≤ lo) {as : List Attribute}
    (has : ∀ a ∈ as, ∀ v ∈ a.value, ∀ i ∈ v.fieldIndices, i ≤ max) :
    Fills path base max lo (lo + as.countP isHole) (as.flatMap (stopsOfAttribute path))
      (Segment.calls (writeAttributes base (lo % UInt64.size) as).1) := by
  induction as generalizing lo with
  | nil => exact nil hlo
  | cons a as ih =>
      have hfirst := of_attribute path hlo (has a List.mem_cons_self)
      have hrest := ih (Nat.le_trans hlo hfirst.le) fun b hb => has b (List.mem_cons_of_mem _ hb)
      have hcount : lo + (a :: as).countP isHole =
          (if isHole a then lo + 1 else lo) + as.countP isHole := by
        rw [List.countP_cons]
        split <;> omega
      rw [List.flatMap_cons, writeAttributes, Segment.calls_append, writeAttribute_snd, hcount]
      exact hfirst.append hrest

end Fills

/-! ## The largest tab-stop of an element -/

theorem le_foldl_max (l : List Nat) (start : Nat) :
    start ≤ l.foldl max start ∧ ∀ i ∈ l, i ≤ l.foldl max start := by
  induction l generalizing start with
  | nil => exact ⟨Nat.le_refl _, by simp⟩
  | cons x l ih =>
      obtain ⟨hstart, hl⟩ := ih (max start x)
      rw [List.foldl_cons]
      refine ⟨by omega, fun i hi => ?_⟩
      rcases List.mem_cons.mp hi with rfl | hi
      · omega
      · exact hl i hi

theorem attribute_le_maxField {e : Element} :
    ∀ a ∈ e.attributes, ∀ v ∈ a.value, ∀ i ∈ v.fieldIndices, i ≤ e.maxField := by
  intro a ha v hv i hi
  refine (le_foldl_max _ 0).2 i (List.mem_flatMap.mpr ⟨v, List.mem_append_left _ ?_, hi⟩)
  exact List.mem_filterMap.mpr ⟨a, ha, hv⟩

theorem text_le_maxField {e : Element} :
    ∀ i ∈ Value.fieldIndices (e.text.getD []), i ≤ e.maxField := by
  intro i hi
  cases htext : e.text with
  | none => simp [htext, Value.fieldIndices] at hi
  | some v =>
      rw [htext] at hi
      refine (le_foldl_max _ 0).2 i (List.mem_flatMap.mpr ⟨v, List.mem_append_right _ ?_, hi⟩)
      simp [htext]

/-- The opening tag of an element after number `n`. -/
theorem fills_opening (path : List Nat) (n : Nat) (name : String) (e : Element) :
    Fills path n e.maxField (n + e.maxField) (n + e.maxField + e.attributes.countP isHole)
      (e.attributes.flatMap (stopsOfAttribute path))
      (Segment.calls (writeOpening n name e).1) := by
  simpa [writeOpening, addWord] using
    Fills.of_attributes path (Nat.le_refl (n + e.maxField)) attribute_le_maxField

/-- The text of an element after number `n`, wherever its empty places are counted from. -/
theorem fills_text (path : List Nat) {n lo : Nat} (e : Element) (hlo : n + e.maxField ≤ lo) :
    Fills path n e.maxField lo lo (stopsOfText path e) (Segment.calls (writeText n e)) :=
  Fills.of_value path hlo text_le_maxField

theorem calls_lineBreak (o : Options) (level : Nat) (broke : Bool) :
    Segment.calls (if broke then [newline o level] else []) = [] := by
  cases broke <;> rfl

theorem calls_writeHole (o : Options) (name : String) (level inner index : Nat) :
    Segment.calls (writeHole o name level inner index) = [(index, none)] := by
  rw [writeHole]
  split <;> rfl

/-! ## The numbers of a forest -/

/-- A numbered stop behind `lo` and not behind `hi`; only the final tab-stop is left at zero. -/
def InRange (lo hi : Nat) : Stop × Nat → Prop
  | (.hole, n) => lo < n ∧ n ≤ hi
  | (.written _ i _, n) => (i = 0 ∧ n = 0) ∨ (0 < i ∧ lo < n ∧ n ≤ hi)

/-- What comes later has larger numbers, so it is kept apart. -/
theorem apart_of_inRange {lo mid hi : Nat} {a b : Stop × Nat} (ha : InRange lo mid a)
    (hb : InRange mid hi b) : Apart a b := by
  rcases a with ⟨_ | ⟨p, i, u⟩, m⟩ <;> rcases b with ⟨_ | ⟨q, j, v⟩, n⟩ <;>
    simp only [InRange] at ha hb <;> simp only [Apart]
  · omega
  · omega
  · omega
  · intro hsame hne
    omega

theorem InRange.mono {lo lo' hi hi' : Nat} {c : Stop × Nat} (hlo : lo' ≤ lo) (hhi : hi ≤ hi')
    (h : InRange lo hi c) : InRange lo' hi' c := by
  rcases c with ⟨_ | ⟨p, i, u⟩, n⟩ <;> simp only [InRange] at h ⊢ <;> omega

theorem InRange.le {lo hi : Nat} {c : Stop × Nat} (h : InRange lo hi c) : c.2 ≤ hi := by
  rcases c with ⟨_ | ⟨p, i, u⟩, n⟩ <;> simp only [InRange] at h ⊢ <;> omega

/-- What a stretch of the forest asks for and the calls it makes, with numbers behind `lo` up to
`hi`. -/
structure Spans (lo hi : Nat) (stops : List Stop) (calls : List (Nat × Option String)) :
    Prop where
  le : lo ≤ hi
  numbered : Numbered (InRange lo hi) stops calls

namespace Spans

variable {lo mid hi : Nat} {stops₁ stops₂ : List Stop} {calls₁ calls₂ : List (Nat × Option String)}

theorem nil (n : Nat) : Spans n n [] [] := ⟨Nat.le_refl _, Numbered.nil⟩

theorem append (h₁ : Spans lo mid stops₁ calls₁) (h₂ : Spans mid hi stops₂ calls₂) :
    Spans lo hi (stops₁ ++ stops₂) (calls₁ ++ calls₂) where
  le := Nat.le_trans h₁.le h₂.le
  numbered := h₁.numbered.append h₂.numbered (fun _ _ => apart_of_inRange)
    (fun _ => InRange.mono (Nat.le_refl _) h₂.le) (fun _ => InRange.mono h₁.le (Nat.le_refl _))

/-- The numbers of an element's own stops are behind `base`. -/
theorem of_fills {path : List Nat} {base max : Nat} (h : Fills path base max lo hi stops₁ calls₁) :
    Spans base hi stops₁ calls₁ where
  le := by have := h.bound; have := h.le; omega
  numbered := by
    have hbound := h.bound
    have hle := h.le
    refine h.numbered.mono ?_
    rintro ⟨_ | ⟨p, i, u⟩, n⟩ hc <;> simp only [InElement] at hc <;> simp only [InRange]
    · omega
    · obtain ⟨-, hi, rfl⟩ := hc
      split <;> omega

end Spans

section Pen

variable {o : Options} {pen : Pen} {n : Nat} (hpen : pen.lastField = n % UInt64.size)
include hpen

theorem lastField_penAfterText (e : Element) :
    (penAfterText o pen e).lastField = (n + e.maxField) % UInt64.size := by
  rw [penAfterText, hpen, addWord_mod, addWord]

theorem lastField_penInside (name : String) (e : Element) :
    (penInside pen name e).lastField =
      (n + e.maxField + e.attributes.countP isHole) % UInt64.size := by
  rw [penInside, hpen, writeOpening_mod, writeOpening_snd]

end Pen

mutual

theorem lastField_writeNode (o : Options) (level : Nat) {pen : Pen} {n : Nat}
    (hpen : pen.lastField = n % UInt64.size) :
    (node : Node) →
    (writeNode o level pen node).pen.lastField = (n + numbersOfNode node) % UInt64.size
  | .group _ children => by
    rw [writeNode_group, numbersOfNode]
    exact lastField_writeLevel o level _ hpen children
  | .element e _ children => by
    cases hname : e.shownName with
    | none =>
        have hafter := lastField_penAfterText (o := o) hpen e
        rw [writeNode_unnamed _ _ _ _ hname]
        simp only [numbersOfNode, hname]
        rw [lastField_writeLevel o level _ hafter children, Nat.add_assoc]
    | some name =>
        have hinside := lastField_penInside hpen name e
        simp only [numbersOfNode, hname, ← Nat.add_assoc]
        cases hclosed : isVoid name || e.selfClosing with
        | true =>
            rw [writeNode_unclosed _ _ _ _ hname hclosed, if_pos rfl, Nat.add_zero]
            exact hinside
        | false =>
            rw [if_neg Bool.false_ne_true]
            cases children with
            | cons child children =>
                rw [writeNode_parent _ _ _ _ hname hclosed (List.cons_ne_nil _ _)]
                exact lastField_writeLevel o _ _ hinside (child :: children)
            | nil =>
                cases htext : e.text with
                | some text =>
                    rw [writeNode_text _ _ _ _ hname hclosed (by rw [htext]; rfl)]
                    exact hinside
                | none =>
                    rw [writeNode_empty _ _ _ _ hname hclosed htext]
                    simp only [hinside, List.isEmpty_nil, Option.isNone_none, Bool.and_true,
                      if_true]
                    exact addWord_mod _ 1

/-- The writer uses the numbers that are counted for a level. -/
theorem lastField_writeLevel (o : Options) (level : Nat) (onLines : Bool) {pen : Pen} {n : Nat}
    (hpen : pen.lastField = n % UInt64.size) :
    (forest : Forest) →
    (writeLevel o level onLines pen forest).pen.lastField =
      (n + numbersOfLevel forest) % UInt64.size
  | [] => by rw [writeLevel, numbersOfLevel, Nat.add_zero, hpen]
  | node :: rest => by
    rw [writeLevel_cons, numbersOfLevel, ← Nat.add_assoc]
    exact lastField_writeLevel o level onLines (lastField_writeNode o level hpen node) rest

end

mutual

/-- Writing a node numbers its stops from the last number on. -/
theorem spans_writeNode (o : Options) (level : Nat) {pen : Pen} {n : Nat}
    (hpen : pen.lastField = n % UInt64.size) (path : List Nat) :
    (node : Node) →
    Spans n (n + numbersOfNode node) (stopsOfNode path node)
      (Segment.calls (writeNode o level pen node).segments)
  | .group _ children => by
    rw [writeNode_group, stopsOfNode, numbersOfNode]
    exact spans_writeLevel o level _ hpen path 0 children
  | .element e _ children => by
    cases hname : e.shownName with
    | none =>
        have htext := fills_text path e (Nat.le_refl (n + e.maxField))
        rw [writeNode_unnamed _ _ _ _ hname, Segment.calls_append, hpen, writeText_mod]
        simp only [stopsOfNode, numbersOfNode, hname, ← Nat.add_assoc]
        exact (Spans.of_fills htext).append
          (spans_writeLevel o level _ (lastField_penAfterText hpen e) path 0 children)
    | some name =>
        -- attributes and text share the element's numbers; its children come behind them
        have hopening := fills_opening path n name e
        have hbound := Nat.le_trans hopening.bound hopening.le
        have hfront := hopening.append (fills_text path e hbound)
        have hinside := lastField_penInside hpen name e
        simp only [stopsOfNode, numbersOfNode, hname, ← Nat.add_assoc]
        cases hclosed : isVoid name || e.selfClosing with
        | true =>
            rw [writeNode_unclosed _ _ _ _ hname hclosed, hpen, writeOpening_mod, if_pos rfl,
              if_pos rfl, List.append_nil]
            exact Spans.of_fills hopening
        | false =>
            rw [if_neg Bool.false_ne_true, if_neg Bool.false_ne_true, ← List.append_assoc]
            cases children with
            | cons child children =>
                have hinner := spans_writeLevel o (innerLevel name level)
                  (breaks o (isSpread name) (child :: children)) hinside path 0
                  (child :: children)
                rw [writeNode_parent _ _ _ _ hname hclosed (List.cons_ne_nil _ _), hpen,
                  writeOpening_mod, writeText_mod]
                simpa [calls_lineBreak, writeClosing] using (Spans.of_fills hfront).append hinner
            | nil =>
                cases htext : e.text with
                | some text =>
                    rw [writeNode_text _ _ _ _ hname hclosed (by rw [htext]; rfl), hpen,
                      writeOpening_mod, writeText_mod]
                    simpa [writeClosing, stopsOfLevel, numbersOfLevel] using Spans.of_fills hfront
                | none =>
                    -- there is no text to ask for anything, so the hole follows the attributes
                    have hstops : stopsOfText path e = [] := by
                      simp [stopsOfText, htext, stopsOfValue]
                    rw [writeNode_empty _ _ _ _ hname hclosed htext, hinside, hpen,
                      writeOpening_mod]
                    simpa [writeClosing, calls_writeHole, hstops, addWord_mod] using
                      Spans.of_fills (hopening.append (Fills.hole hbound))

/-- Writing a level numbers its stops from the last number on. -/
theorem spans_writeLevel (o : Options) (level : Nat) (onLines : Bool) {pen : Pen} {n : Nat}
    (hpen : pen.lastField = n % UInt64.size) (path : List Nat) (k : Nat) :
    (forest : Forest) →
    Spans n (n + numbersOfLevel forest) (stopsOfLevel path k forest)
      (Segment.calls (writeLevel o level onLines pen forest).segments)
  | [] => by
    rw [writeLevel, stopsOfLevel, numbersOfLevel]
    exact Spans.nil _
  | node :: rest => by
    have hfirst := spans_writeNode o level hpen (k :: path) node
    have hrest := spans_writeLevel o level onLines (lastField_writeNode o level hpen node) path
      (k + 1) rest
    rw [writeLevel_cons, stopsOfLevel, numbersOfLevel, ← Nat.add_assoc]
    simp only [Segment.calls_append, calls_lineBreak, List.nil_append]
    exact hfirst.append hrest

end

end Markup.Html

end Shorthand
