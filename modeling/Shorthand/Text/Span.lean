/-!
# Span — what a scanner read

A scanner takes characters from the front of its input. It returns the characters it read and the
rest of the input.

Counts, tab-stop indices and numbering bases are runs of ASCII digits. Leading zeros do not matter;
a number above `wordMax` is no number at all.
-/

namespace Shorthand

/-- The largest number an abbreviation can write, and the bound that stands for "no bound". -/
def wordMax : Nat := UInt64.size - 1

/-- The sum of two numbers in 64 bits: what goes beyond `wordMax` starts again at zero. -/
def addWord (m n : Nat) : Nat := (m + n) % UInt64.size

/-- A sum is cut down to 64 bits at every step or once at the end. -/
theorem addWord_mod (m n : Nat) : addWord (m % UInt64.size) n = addWord m n :=
  Nat.mod_add_mod m UInt64.size n

namespace Text

/-- The characters read from the front of an input, and the rest of it. -/
structure Span where
  read : List Char
  rest : List Char
  deriving Repr, DecidableEq

/-- The span with one more character in front. -/
def Span.cons (c : Char) (span : Span) : Span := { span with read := c :: span.read }

@[simp] theorem Span.read_cons (c : Char) (span : Span) : (span.cons c).read = c :: span.read := rfl

@[simp] theorem Span.rest_cons (c : Char) (span : Span) : (span.cons c).rest = span.rest := rfl

/-- The longest run of characters in a class at the front of `s`. -/
def Span.ofClass (p : Char → Bool) (s : List Char) : Span :=
  { read := s.takeWhile p, rest := s.dropWhile p }

@[simp] theorem Span.read_append_rest_ofClass (p : Char → Bool) (s : List Char) :
    (Span.ofClass p s).read ++ (Span.ofClass p s).rest = s :=
  List.takeWhile_append_dropWhile

/-- A run of the class is read whole, if what follows it is not of the class. -/
theorem Span.ofClass_append {p : Char → Bool} {s rest : List Char} (hs : ∀ c ∈ s, p c = true)
    (hrest : ∀ c ∈ rest.head?, p c = false) : Span.ofClass p (s ++ rest) = ⟨s, rest⟩ := by
  have hstop : rest.takeWhile p = [] ∧ rest.dropWhile p = rest := by
    cases rest with
    | nil => exact ⟨rfl, rfl⟩
    | cons c rest =>
        have hc : p c = false := hrest c rfl
        simp [hc]
  rw [Span.ofClass, List.takeWhile_append_of_pos hs, List.dropWhile_append_of_pos hs, hstop.1,
    hstop.2, List.append_nil]

/-- A run of a class ends where it did, whatever follows the input, if it ended before the end of
the input or what follows does not go on with it. -/
theorem Span.ofClass_append_tail {p : Char → Bool} {s tail : List Char}
    (h : (Span.ofClass p s).rest = [] → ∀ c ∈ tail.head?, p c = false) :
    Span.ofClass p (s ++ tail) = ⟨(Span.ofClass p s).read, (Span.ofClass p s).rest ++ tail⟩ := by
  induction s with
  | nil => exact Span.ofClass_append (s := []) (by simp) (h rfl)
  | cons c s ih =>
      by_cases hc : p c = true
      · simp only [Span.ofClass, List.dropWhile_cons_of_pos hc] at h
        simp only [Span.ofClass, Span.mk.injEq] at ih
        simp [Span.ofClass, hc, ih h]
      · simp [Span.ofClass, hc]

theorem Span.length_rest_ofClass_le (p : Char → Bool) (s : List Char) :
    (Span.ofClass p s).rest.length ≤ s.length :=
  (List.dropWhile_suffix p).length_le

/-- What follows the first character is shorter. -/
theorem length_tail_lt_of_head? {s : List Char} {c : Char} (h : s.head? = some c) :
    s.tail.length < s.length := by
  cases s with
  | nil => cases h
  | cons d s => exact Nat.lt_succ_self _

/-! ## Numbers -/

/-- The number a run of digits writes: none if the run is empty or the number exceeds `wordMax`. -/
def decimal? (digits : List Char) : Option Nat :=
  if digits.isEmpty then none
  else
    let n := Nat.ofDigitChars 10 digits 0
    if n ≤ wordMax then some n else none

/-- The digits at the start of `s`, and the rest. -/
def scanDigits (s : List Char) : Span := Span.ofClass Char.isDigit s

/-- A number that fits is read from its own digits. -/
theorem decimal?_toDigits {n : Nat} (h : n ≤ wordMax) : decimal? (Nat.toDigits 10 n) = some n := by
  have hne : (Nat.toDigits 10 n).isEmpty = false :=
    List.isEmpty_eq_false_iff.mpr Nat.toDigits_ne_nil
  simp only [decimal?, hne, Bool.false_eq_true, if_false, Nat.ofDigitChars_ten_toDigits, if_pos h]

/-- The digits of a number are read whole, if no digit follows them. -/
theorem scanDigits_toDigits_append (n : Nat) {rest : List Char}
    (hrest : ∀ c ∈ rest.head?, c.isDigit = false) :
    scanDigits (Nat.toDigits 10 n ++ rest) = ⟨Nat.toDigits 10 n, rest⟩ :=
  Span.ofClass_append (fun _ hc => Nat.isDigit_of_mem_toDigits (by decide) (by decide) hc) hrest

theorem length_scanDigits_le (s : List Char) : (scanDigits s).rest.length ≤ s.length :=
  Span.length_rest_ofClass_le _ s

end Text

end Shorthand
