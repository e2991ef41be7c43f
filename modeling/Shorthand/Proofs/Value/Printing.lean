import Shorthand.Value.Reader

/-!
# Printing values

A value can be written so that it reads back as itself: the characters of a text each behind a
backslash, a tab-stop in braces, and a numbering always with its base. `read_print` says that it
does, for the values that the reader can give at all (`Value.Canonical`).
-/

namespace Shorthand

open Text

/-! ## The printer -/

/-- A text with a backslash before each character. -/
def escape (s : List Char) : List Char := s.flatMap fun c => ['\\', c]

/-- A token as it is written. -/
def Token.print : Token → List Char
  | .text s => escape s.toList
  | .field index none => '$' :: '{' :: (Nat.toDigits 10 index ++ ['}'])
  | .field index (some placeholder) =>
    '$' :: '{' :: (Nat.toDigits 10 index ++ ':' :: (placeholder.toList ++ ['}']))
  | .number n =>
    List.replicate n.size '$' ++
      '@' :: ((if n.reverse then ['-'] else []) ++ Nat.toDigits 10 n.base)

/-- A value as it is written. -/
def Value.print (v : Value) : List Char := v.flatMap Token.print

@[simp] theorem escape_nil : escape [] = [] := rfl

@[simp] theorem escape_cons (c : Char) (s : List Char) : escape (c :: s) = '\\' :: c :: escape s :=
  rfl

@[simp] theorem Value.print_nil : Value.print [] = [] := rfl

@[simp] theorem Value.print_cons (t : Token) (v : Value) :
    Value.print (t :: v) = t.print ++ Value.print v := List.flatMap_cons

/-! ## Canonical values -/

/-- How many braces are open after a text that starts with `depth` open ones; none if one closes
too early. -/
def braceDepth? : (depth : Nat) → List Char → Option Nat
  | depth, [] => some depth
  | depth, c :: s =>
    if c = '{' then braceDepth? (depth + 1) s
    else if c = '}' then
      match depth with
      | 0 => none
      | depth + 1 => braceDepth? depth s
    else braceDepth? depth s

@[simp] theorem braceDepth?_open (depth : Nat) (s : List Char) :
    braceDepth? depth ('{' :: s) = braceDepth? (depth + 1) s := by
  cases depth <;> rfl

@[simp] theorem braceDepth?_close (depth : Nat) (s : List Char) :
    braceDepth? (depth + 1) ('}' :: s) = braceDepth? depth s := rfl

theorem braceDepth?_other {c : Char} (hopen : c ≠ '{') (hclose : c ≠ '}') (depth : Nat)
    (s : List Char) : braceDepth? depth (c :: s) = braceDepth? depth s := by
  cases depth <;> simp [braceDepth?, hopen, hclose]

/-- A text in which every brace has its partner. -/
def Balanced (s : List Char) : Prop := braceDepth? 0 s = some 0

instance (s : List Char) : Decidable (Balanced s) := inferInstanceAs (Decidable (_ = _))

def Token.isText : Token → Bool
  | .text _ => true
  | _ => false

/-- A token that the reader can give: numbers fit, a placeholder is balanced, and no text or run of
dollars is empty. -/
def Token.Canonical : Token → Prop
  | .text s => s ≠ ""
  | .field index placeholder => index ≤ wordMax ∧ ∀ p ∈ placeholder, Balanced p.toList
  | .number n => 1 ≤ n.size ∧ n.base ≤ wordMax

instance : DecidablePred Token.Canonical
  | .text s => inferInstanceAs (Decidable (s ≠ ""))
  | .field index placeholder =>
    inferInstanceAs (Decidable (index ≤ wordMax ∧ ∀ p ∈ placeholder, Balanced p.toList))
  | .number n => inferInstanceAs (Decidable (1 ≤ n.size ∧ n.base ≤ wordMax))

/-- A value that the reader can give: canonical tokens, and no two texts next to each other. -/
def Value.Canonical : Value → Prop
  | [] => True
  | t :: v => t.Canonical ∧ (t.isText = true → ∀ u ∈ v.head?, u.isText = false) ∧ Canonical v

instance Value.decidableCanonical : DecidablePred Value.Canonical
  | [] => isTrue trivial
  | _ :: v => @instDecidableAnd _ _ _ (@instDecidableAnd _ _ _ (decidableCanonical v))

/-! ## Reading a text -/

/-- A text in front of a value that does not start with one stays a token of its own. -/
theorem foldr_consChar {s : List Char} (hs : s ≠ []) {v : Value}
    (hv : ∀ u ∈ v.head?, u.isText = false) :
    s.foldr Value.consChar v = .text (String.ofList s) :: v := by
  induction s with
  | nil => exact absurd rfl hs
  | cons c s ih =>
      rw [List.foldr_cons]
      cases s with
      | nil =>
          rw [List.foldr_nil, Value.consChar]
          cases v with
          | nil => rfl
          | cons u v =>
              cases u with
              | text t => exact absurd (hv (.text t) rfl) (by simp [Token.isText])
              | field index placeholder => rfl
              | number n => rfl
      | cons d s =>
          rw [ih (List.cons_ne_nil _ _), Value.consChar, Value.consText]
          congr 2
          apply String.toList_inj.mp
          simp

theorem read_escape_append (s rest : List Char) :
    Value.read (escape s ++ rest) = s.foldr Value.consChar (Value.read rest) := by
  induction s with
  | nil => rfl
  | cons c s ih =>
      rw [escape_cons, List.cons_append, List.cons_append, Value.read, ih, List.foldr_cons]

/-! ## Reading a tab-stop -/

/-- A balanced text is read up to the brace that follows it. -/
theorem scanPlaceholder_append {depth : Nat} {p : List Char} (h : braceDepth? depth p = some 0)
    (rest : List Char) : Token.scanPlaceholder depth (p ++ '}' :: rest) = some ⟨p, rest⟩ := by
  fun_induction braceDepth? depth p with
  | case1 depth =>
      cases h
      simp [Token.scanPlaceholder]
  | case2 depth s ih => simp [Token.scanPlaceholder, ih h, Span.cons]
  | case3 s => cases h
  | case4 s _ depth ih => simp [Token.scanPlaceholder, ih h, Span.cons]
  | case5 depth c s hopen hclose ih =>
      simp [Token.scanPlaceholder, hopen, hclose, ih h, Span.cons]

theorem scanField_print_none {index : Nat} (hindex : index ≤ wordMax) (rest : List Char) :
    Token.scanField (Nat.toDigits 10 index ++ '}' :: rest) = some (.field index none, rest) := by
  have hdigits : scanDigits (Nat.toDigits 10 index ++ '}' :: rest) = ⟨_, '}' :: rest⟩ :=
    scanDigits_toDigits_append index (by simp)
  simp only [Token.scanField, hdigits, decimal?_toDigits hindex]

theorem scanField_print_some {index : Nat} (hindex : index ≤ wordMax) {p : String}
    (hp : Balanced p.toList) (rest : List Char) :
    Token.scanField (Nat.toDigits 10 index ++ ':' :: (p.toList ++ '}' :: rest)) =
      some (.field index (some p), rest) := by
  have hdigits : scanDigits (Nat.toDigits 10 index ++ ':' :: (p.toList ++ '}' :: rest)) =
      ⟨_, ':' :: (p.toList ++ '}' :: rest)⟩ := scanDigits_toDigits_append index (by simp)
  simp only [Token.scanField, hdigits, decimal?_toDigits hindex, scanPlaceholder_append hp rest,
    Option.map_some, String.ofList_toList]

theorem read_of_scanField {s rest : List Char} {t : Token}
    (h : Token.scanField s = some (t, rest)) :
    Value.read ('$' :: '{' :: s) = t :: Value.read rest := by
  rw [Value.read]
  split
  · next token tail hfound =>
    rw [h] at hfound
    cases hfound
    rfl
  · next hnone =>
    rw [h] at hnone
    cases hnone

theorem read_field_append {index : Nat} {placeholder : Option String}
    (h : (Token.field index placeholder).Canonical) (rest : List Char) :
    Value.read ((Token.field index placeholder).print ++ rest) =
      .field index placeholder :: Value.read rest := by
  obtain ⟨hindex, hplaceholder⟩ := h
  cases placeholder with
  | none =>
      simp only [Token.print, List.cons_append, List.append_assoc, List.nil_append]
      exact read_of_scanField (scanField_print_none hindex rest)
  | some p =>
      simp only [Token.print, List.cons_append, List.append_assoc, List.nil_append]
      exact read_of_scanField (scanField_print_some hindex (hplaceholder p rfl) rest)

/-! ## Reading a numbering -/

theorem scanModifier_base {size base : Nat} (hbase : base ≤ wordMax) {rest : List Char}
    (hrest : ∀ c ∈ rest.head?, c.isDigit = false) :
    Numbering.scanModifier size ('@' :: (Nat.toDigits 10 base ++ rest)) =
      ({ size, base }, rest) := by
  have hscan := scanDigits_toDigits_append base hrest
  obtain ⟨d, ds, hd⟩ := List.exists_cons_of_ne_nil (Nat.toDigits_ne_nil (n := base) (b := 10))
  have hdigit : d.isDigit = true :=
    Nat.isDigit_of_mem_toDigits (by decide) (by decide) (hd ▸ List.mem_cons_self)
  -- the first digit is not the minus of a reverse numbering
  have hminus : ∀ tail, Nat.toDigits 10 base ++ rest = '-' :: tail → False := by
    intro tail h
    rw [hd, List.cons_append, List.cons.injEq] at h
    rw [h.1] at hdigit
    exact absurd hdigit (by decide)
  rw [Numbering.scanModifier]
  · simp [hscan, decimal?_toDigits hbase]
  · exact hminus

theorem scanModifier_print {n : Numbering} (hbase : n.base ≤ wordMax) {rest : List Char}
    (hrest : ∀ c ∈ rest.head?, c.isDigit = false) :
    Numbering.scanModifier n.size
      ('@' :: ((if n.reverse then ['-'] else []) ++ (Nat.toDigits 10 n.base ++ rest))) =
      (n, rest) := by
  obtain ⟨size, reverse, base⟩ := n
  cases reverse with
  | true =>
      have hscan := scanDigits_toDigits_append base hrest
      simp [Numbering.scanModifier, hscan, decimal?_toDigits hbase]
  | false => simpa using scanModifier_base hbase hrest

theorem scan_print {n : Numbering} (hbase : n.base ≤ wordMax) {rest : List Char}
    (hrest : ∀ c ∈ rest.head?, c.isDigit = false) :
    Numbering.scan ((Token.number n).print ++ rest) = (n, rest) := by
  have hdollars : ∀ tail, Span.ofClass (· == '$') (List.replicate n.size '$' ++ '@' :: tail) =
      ⟨List.replicate n.size '$', '@' :: tail⟩ :=
    fun tail => Span.ofClass_append (by simp) (by simp)
  simp only [Token.print, Numbering.scan, List.append_assoc, List.cons_append, hdollars,
    List.length_replicate]
  exact scanModifier_print hbase hrest

theorem read_number_append {n : Numbering} (h : (Token.number n).Canonical) {rest : List Char}
    (hrest : ∀ c ∈ rest.head?, c.isDigit = false) :
    Value.read ((Token.number n).print ++ rest) = .number n :: Value.read rest := by
  have hscan := scan_print h.2 hrest
  obtain ⟨k, hk⟩ : ∃ k, n.size = k + 1 := ⟨n.size - 1, by have := h.1; omega⟩
  obtain ⟨tail, htail, hbrace⟩ : ∃ tail, (Token.number n).print ++ rest = '$' :: tail ∧
      ∀ s, tail = '{' :: s → False := by
    rw [Token.print, hk, List.replicate_succ, List.cons_append, List.cons_append]
    refine ⟨_, rfl, ?_⟩
    cases k with
    | zero => simp
    | succ k => simp [List.replicate_succ]
  rw [htail] at hscan ⊢
  rw [Value.read, hscan]
  exact hbrace

/-! ## Reading a value -/

/-- What a value is written with starts with a backslash or a dollar. -/
theorem head_print {v : Value} (h : v.Canonical) :
    ∀ c ∈ v.print.head?, c = '\\' ∨ c = '$' := by
  cases v with
  | nil => simp
  | cons t v =>
      intro c hc
      rw [Value.print_cons] at hc
      cases t with
      | text s =>
          obtain ⟨d, ds, hd⟩ := List.exists_cons_of_ne_nil
            (fun hnil => h.1 (String.toList_eq_nil_iff.mp hnil))
          have hc' : '\\' = c := by simpa [Token.print, hd] using hc
          exact .inl hc'.symm
      | field index placeholder =>
          have hc' : '$' = c := by cases placeholder <;> simpa [Token.print] using hc
          exact .inr hc'.symm
      | number n =>
          obtain ⟨k, hk⟩ : ∃ k, n.size = k + 1 := ⟨n.size - 1, by have := h.1.1; omega⟩
          have hc' : '$' = c := by simpa [Token.print, hk, List.replicate_succ] using hc
          exact .inr hc'.symm

/-- **Reading undoes printing**: a canonical value is read back from what it is written with. -/
theorem read_print {v : Value} (h : v.Canonical) : Value.read v.print = v := by
  induction v with
  | nil => rw [Value.print_nil, Value.read]
  | cons t v ih =>
      obtain ⟨ht, hnext, hv⟩ := h
      rw [Value.print_cons]
      cases t with
      | text s =>
          have hs : s.toList ≠ [] := fun hnil => ht (String.toList_eq_nil_iff.mp hnil)
          rw [Token.print, read_escape_append, ih hv, foldr_consChar hs (hnext rfl),
            String.ofList_toList]
      | field index placeholder => rw [read_field_append ht, ih hv]
      | number n =>
          have hdigit : ∀ c ∈ (Value.print v).head?, c.isDigit = false := by
            intro c hc
            rcases head_print hv c hc with rfl | rfl <;> decide
          rw [read_number_append ht hdigit, ih hv]

end Shorthand
