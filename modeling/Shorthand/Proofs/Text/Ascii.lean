/-!
# Ascii — the characters of a text, read off its bytes

A string is kept as its bytes, and to list its characters each of them has to be found among the
bytes. For a text in ASCII every byte is a character (`toList_eq_asciiChars`). So what a table of
texts is to be checked for can be evaluated with an effort in proportion to the texts.
-/

namespace Shorthand.Text

/-- The bytes of a string. -/
def bytes (s : String) : List UInt8 := s.toByteArray.data.toList

/-- The characters of a string, if each is one byte. -/
def asciiChars (s : String) : List Char := (bytes s).map fun b => Char.ofNat b.toNat

/-- The last byte of a character shows whether it is the only one. -/
theorem utf8EncodeChar_of_lt {c : Char} (h : ∀ b ∈ String.utf8EncodeChar c, b.toNat < 128) :
    String.utf8EncodeChar c = [UInt8.ofNat c.toNat] ∧ c.toNat < 128 := by
  by_cases hascii : c.toNat ≤ 0x7f
  · refine ⟨?_, by omega⟩
    delta String.utf8EncodeChar
    exact if_pos hascii
  · have hlast : UInt8.ofNat (c.toNat % 0x40 + 0x80) ∈ String.utf8EncodeChar c := by
      delta String.utf8EncodeChar
      show _ ∈ ite (c.toNat ≤ 0x7f) _ _
      rw [if_neg hascii]
      split
      · simp
      · split
        · simp
        · simp
    have hlt := h _ hlast
    rw [UInt8.toNat_ofNat_of_lt' (by show _ < 256; omega)] at hlt
    omega

theorem map_flatMap_utf8EncodeChar {s : List Char}
    (h : ∀ b ∈ s.flatMap String.utf8EncodeChar, b.toNat < 128) :
    (s.flatMap String.utf8EncodeChar).map (fun b => Char.ofNat b.toNat) = s := by
  induction s with
  | nil => rfl
  | cons c s ih =>
    simp only [List.flatMap_cons, List.mem_append] at h ⊢
    obtain ⟨hc, hlt⟩ := utf8EncodeChar_of_lt fun b hb => h b (.inl hb)
    have hbyte : (UInt8.ofNat c.toNat).toNat = c.toNat :=
      UInt8.toNat_ofNat_of_lt' (by show _ < 256; omega)
    rw [List.map_append, ih fun b hb => h b (.inr hb), hc, List.map_singleton, hbyte,
      Char.ofNat_toNat, List.singleton_append]

/-- The characters of a text in ASCII can be read off its bytes. -/
theorem toList_eq_asciiChars {s : String} (h : (bytes s).all (·.toNat < 128) = true) :
    s.toList = asciiChars s := by
  have hbytes : bytes s = s.toList.flatMap String.utf8EncodeChar := by
    rw [bytes, ← String.utf8Encode_toList]
    exact List.toList_data_toByteArray
  rw [hbytes, List.all_eq_true] at h
  rw [asciiChars, hbytes, map_flatMap_utf8EncodeChar fun b hb => of_decide_eq_true (h b hb)]

end Shorthand.Text
