import Mathlib.Data.List.GetD
import Mathlib.Data.List.SplitBy
import Shorthand.Markup.Lorem
import Shorthand.Proofs.Text.Ascii

/-!
# PlaceholderText — the words and sentences of a generated text

A generated text is put together from words in two steps: they are cut into sentences, and each
sentence is written with a capital, a comma and a period. Here it is taken apart again, by its
spaces and by its periods. Cutting loses no word (`flatten_sentences`), and only the last sentence is cut
short (`length_sentences`). A written word shows which word it is and whether it ends a sentence
(`bare_writeWord`, `period_mem_writeWord`), since the words themselves have no mark in them
(`isWord_word`).
-/

namespace Shorthand.Markup.Lorem

open Text

/-! ## Reading a text back -/

/-- The words of a text are what stands between its spaces. A text without characters has none. -/
def wordsOf (text : String) : List (List Char) :=
  if text.toList.isEmpty then [] else text.toList.splitOn ' '

/-- A word without period and comma and with a small first letter. -/
def bare (w : List Char) : List Char :=
  match w.filter fun c => c != '.' && c != ',' with
  | [] => []
  | c :: rest => c.toLower :: rest

/-- The sentences that words make up: each ends at a word that carries a period. -/
def sentencesOf (words : List (List Char)) : List (List (List Char)) :=
  words.splitBy fun w _ => !w.contains '.'

/-! ## The words -/

/-- The small letters, from `a` to `z`. -/
def alphabet : List Char := (List.range' 97 26).map Char.ofNat

/-- What is written between words and behind them. -/
def marks : List Char := [' ', '.', ',']

/-- What the letters are like, in lower and in upper case. -/
structure Lettered (c : Char) : Prop where
  toLower : c.toLower = c
  toLower_toUpper : c.toUpper.toLower = c
  isUpper_toUpper : c.toUpper.isUpper = true
  not_mark : c ∉ marks
  toUpper_not_mark : c.toUpper ∉ marks

theorem lettered_of_mem {c : Char} (h : c ∈ alphabet) : Lettered c := by
  have hall : alphabet.all (fun c => c.toLower == c && c.toUpper.toLower == c &&
      c.toUpper.isUpper && !marks.contains c && !marks.contains c.toUpper) = true := by
    decide +kernel
  have hc := List.all_eq_true.mp hall c h
  simp only [Bool.and_eq_true, beq_iff_eq, Bool.not_eq_true', List.contains_eq_mem,
    decide_eq_false_iff_not] at hc
  obtain ⟨⟨⟨⟨hlower, hback⟩, hupper⟩, hmark⟩, hmark'⟩ := hc
  exact ⟨hlower, hback, hupper, hmark, hmark'⟩

/-- A word is made of small letters, of one at least. -/
def IsWord (w : String) : Prop := ∃ c rest, w.toList = c :: rest ∧ ∀ d ∈ c :: rest, d ∈ alphabet

/-- A text is a word if its bytes are those of small letters. -/
theorem isWord_of_bytes {w : String} (hsome : bytes w ≠ [])
    (hletters : (bytes w).all (fun b => 97 ≤ b.toNat && b.toNat < 123) = true) : IsWord w := by
  have hrange : ∀ b ∈ bytes w, 97 ≤ b.toNat ∧ b.toNat < 123 := by
    simpa using hletters
  have hascii : (bytes w).all (·.toNat < 128) = true := by
    rw [List.all_eq_true]
    intro b hb
    exact decide_eq_true (Nat.lt_trans (hrange b hb).2 (by decide))
  have hlist := toList_eq_asciiChars hascii
  obtain ⟨b, others, hbytes⟩ := List.exists_cons_of_ne_nil hsome
  refine ⟨Char.ofNat b.toNat, others.map fun b => Char.ofNat b.toNat, ?_, fun c hc => ?_⟩
  · rw [hlist, asciiChars, hbytes, List.map_cons]
  · rw [← List.map_cons (f := fun b : UInt8 => Char.ofNat b.toNat), ← hbytes] at hc
    obtain ⟨b, hb, rfl⟩ := List.mem_map.mp hc
    exact List.mem_map_of_mem (List.mem_range'_1.mpr (hrange b hb))

theorem isWord_of_mem {w : String} (h : w ∈ opening ++ stock) : IsWord w := by
  have hall : (opening ++ stock).all (fun w => !(bytes w).isEmpty &&
      (bytes w).all (fun b => 97 ≤ b.toNat && b.toNat < 123)) = true := by
    decide +kernel
  have hw := List.all_eq_true.mp hall w h
  rw [Bool.and_eq_true, Bool.not_eq_true', List.isEmpty_eq_false_iff] at hw
  exact isWord_of_bytes hw.1 hw.2

theorem isWord_word (i : Nat) : IsWord (word i) := by
  apply isWord_of_mem
  rw [word, List.mem_append]
  split
  · next h =>
    left
    rw [List.getD_eq_getElem _ _ h]
    exact List.getElem_mem h
  · right
    have h : (i - opening.length) * 7 % stock.length < stock.length :=
      Nat.mod_lt _ (by decide +kernel)
    rw [List.getD_eq_getElem _ _ h]
    exact List.getElem_mem h

/-- The words of a text are the beginning of the opening and of what follows it. -/
theorem map_word_range (n : Nat) :
    (List.range n).map word =
      (opening ++ (List.range n).map fun i => stock.getD (7 * i % stock.length) "").take n := by
  refine List.ext_getElem? fun i => ?_
  rw [List.getElem?_map, List.getElem?_take]
  by_cases hi : i < n
  · rw [if_pos hi, List.getElem?_range hi, Option.map_some, word]
    by_cases hopening : i < opening.length
    · rw [if_pos hopening, List.getElem?_append_left hopening, List.getD_eq_getElem _ _ hopening,
        List.getElem?_eq_getElem hopening]
    · have hrest : i - opening.length < n := by omega
      rw [if_neg hopening, List.getElem?_append_right (Nat.le_of_not_lt hopening),
        List.getElem?_map, List.getElem?_range hrest, Option.map_some, Nat.mul_comm]
  · rw [if_neg hi, List.getElem?_eq_none (by simpa using hi)]
    rfl

/-! ## Writing a word -/

/-- The word at position `i` of a sentence of `length` words, but for the period. -/
def punctuated (length i : Nat) (w : String) : String :=
  let w := if i = 0 then capitalize w else w
  if i = 4 && length > 6 then w ++ "," else w

/-- The word at position `i` of a sentence of `length` words. -/
def writeWord (length i : Nat) (w : String) : List Char :=
  (punctuated length i w).toList ++ if i + 1 = length then ['.'] else []

/-- The word at position `i` of a sentence, with its capital. -/
def cased (i : Nat) (w : String) : List Char := (if i = 0 then capitalize w else w).toList

theorem writeWord_eq (length i : Nat) (w : String) :
    writeWord length i w = cased i w ++ ((if i = 4 && length > 6 then [','] else []) ++
      if i + 1 = length then ['.'] else []) := by
  rw [writeWord, punctuated, ← List.append_assoc]
  congr 1
  split
  · exact String.toList_append
  · exact (List.append_nil _).symm

section Written

variable {w : String} (hw : IsWord w)
include hw

theorem exists_cased (i : Nat) :
    ∃ c rest, w.toList = c :: rest ∧ (∀ d ∈ c :: rest, d ∈ alphabet) ∧
      cased i w = (if i = 0 then c.toUpper else c) :: rest := by
  obtain ⟨c, rest, hlist, hletters⟩ := hw
  refine ⟨c, rest, hlist, hletters, ?_⟩
  by_cases hi : i = 0
  · rw [cased, if_pos hi, if_pos hi, capitalize, hlist, String.toList_ofList]
  · rw [cased, if_neg hi, if_neg hi, hlist]

theorem mark_not_mem_cased (i : Nat) {m : Char} (hm : m ∈ marks) : m ∉ cased i w := by
  obtain ⟨c, rest, _, hletters, hcased⟩ := exists_cased hw i
  obtain ⟨hfirst, hrest⟩ := List.forall_mem_cons.mp hletters
  rw [hcased, List.mem_cons, not_or]
  refine ⟨?_, fun hmem => (lettered_of_mem (hrest m hmem)).not_mark hm⟩
  rintro rfl
  by_cases hi : i = 0
  · rw [if_pos hi] at hm
    exact (lettered_of_mem hfirst).toUpper_not_mark hm
  · rw [if_neg hi] at hm
    exact (lettered_of_mem hfirst).not_mark hm

theorem writeWord_ne_nil (length i : Nat) : writeWord length i w ≠ [] := by
  obtain ⟨c, rest, _, _, hcased⟩ := exists_cased hw i
  rw [writeWord_eq, hcased]
  exact List.cons_ne_nil _ _

theorem space_not_mem_writeWord (length i : Nat) : ' ' ∉ writeWord length i w := by
  rw [writeWord_eq, List.mem_append, List.mem_append, not_or, not_or]
  refine ⟨mark_not_mem_cased hw i (by decide), ?_, ?_⟩
  · split <;> simp
  · split <;> simp

/-- The period is at the last word of a sentence and nowhere else. -/
theorem period_mem_writeWord (length i : Nat) :
    '.' ∈ writeWord length i w ↔ i + 1 = length := by
  have hcased : '.' ∉ cased i w := mark_not_mem_cased hw i (by decide)
  have hcomma : '.' ∉ (if i = 4 && length > 6 then [','] else []) := by
    split <;> simp
  rw [writeWord_eq, List.mem_append, List.mem_append, or_iff_right hcased, or_iff_right hcomma]
  split
  · next hlast => simp [hlast]
  · next hlast => simp [hlast]

/-- Without marks and capital it is the word that was written. -/
theorem bare_writeWord (length i : Nat) : bare (writeWord length i w) = w.toList := by
  have hkept : ∀ c ∈ cased i w, (c != '.' && c != ',') = true := by
    intro c hc
    rw [Bool.and_eq_true, bne_iff_ne, bne_iff_ne]
    constructor
    · rintro rfl
      exact mark_not_mem_cased hw i (by decide) hc
    · rintro rfl
      exact mark_not_mem_cased hw i (by decide) hc
  have hmarks : ((if i = 4 && length > 6 then [','] else []) ++
      if i + 1 = length then ['.'] else []).filter (fun c => c != '.' && c != ',') = [] := by
    rw [List.filter_append]
    split
    · split <;> rfl
    · split <;> rfl
  have hfilter : (writeWord length i w).filter (fun c => c != '.' && c != ',') = cased i w := by
    rw [writeWord_eq, List.filter_append, List.filter_eq_self.mpr hkept, hmarks, List.append_nil]
  obtain ⟨c, rest, hlist, hletters, hcased⟩ := exists_cased hw i
  have hc := lettered_of_mem (hletters c List.mem_cons_self)
  rw [bare, hfilter, hcased, hlist]
  by_cases hi : i = 0
  · simp only [if_pos hi, hc.toLower_toUpper]
  · simp only [if_neg hi, hc.toLower]

end Written

/-! ## Cutting words into sentences -/

theorem flatten_sentences (k : Nat) (words : List String) :
    (sentences k words).flatten = words := by
  fun_induction sentences k words with
  | case1 k words hempty => exact (List.isEmpty_iff.mp hempty).symm
  | case2 k words hsome ih => rw [List.flatten_cons, ih, List.take_append_drop]

theorem ne_nil_of_mem_sentences {k : Nat} {words s : List String} (h : s ∈ sentences k words) :
    s ≠ [] := by
  fun_induction sentences k words with
  | case1 => cases h
  | case2 k words hsome ih =>
      rcases List.mem_cons.mp h with rfl | h
      · have hpos := sentenceLength_pos k
        rw [List.isEmpty_iff] at hsome
        rw [Ne, List.take_eq_nil_iff, not_or]
        exact ⟨by omega, hsome⟩
      · exact ih h

/-- Every sentence but the last has its full length, and the last one has no more. -/
theorem length_sentences {k : Nat} {words s : List String} {i : Nat}
    (h : (sentences k words)[i]? = some s) :
    s.length ≤ sentenceLength (k + i) ∧
      (i + 1 < (sentences k words).length → s.length = sentenceLength (k + i)) := by
  fun_induction sentences k words generalizing i with
  | case1 => cases h
  | case2 k words hsome ih =>
      cases i with
      | zero =>
          obtain rfl : words.take (sentenceLength k) = s := by simpa using h
          refine ⟨List.length_take_le _ _, fun hmore => ?_⟩
          -- a sentence follows, so words are left
          have hleft : words.drop (sentenceLength k) ≠ [] := by
            intro hnil
            rw [hnil, sentences] at hmore
            exact absurd hmore (by simp)
          rw [Ne, List.drop_eq_nil_iff] at hleft
          rw [List.length_take, Nat.add_zero]
          omega
      | succ i =>
          rw [List.getElem?_cons_succ] at h
          have hrest := ih h
          rw [Nat.add_right_comm, Nat.add_assoc] at hrest
          exact ⟨hrest.1, fun hmore => hrest.2 (Nat.lt_of_succ_lt_succ hmore)⟩

/-! ## Writing sentences -/

def writeWords (words : List String) : List (List Char) := words.mapIdx (writeWord words.length)

@[simp] theorem length_writeWords (words : List String) :
    (writeWords words).length = words.length :=
  List.length_mapIdx

theorem mem_writeWords {words : List String} (hwords : ∀ w ∈ words, IsWord w) {x : List Char}
    (hx : x ∈ writeWords words) : ∃ i w, IsWord w ∧ x = writeWord words.length i w := by
  obtain ⟨i, hi, rfl⟩ := List.mem_mapIdx.mp hx
  exact ⟨i, words[i], hwords _ (List.getElem_mem hi), rfl⟩

theorem intercalate_append {α : Type} (between : List α) {a b : List (List α)} (ha : a ≠ [])
    (hb : b ≠ []) :
    between.intercalate (a ++ b) = between.intercalate a ++ between ++ between.intercalate b := by
  induction a with
  | nil => exact absurd rfl ha
  | cons x a ih =>
      cases a with
      | nil =>
          rw [List.singleton_append, List.intercalate_cons_of_ne_nil hb,
            List.intercalate_singleton]
      | cons y a =>
          rw [List.cons_append, List.intercalate_cons_of_ne_nil (by simp),
            ih (List.cons_ne_nil _ _), List.intercalate_cons_cons]
          simp only [List.append_assoc]

/-- Joining lists that are joined already is joining all that is in them. -/
theorem intercalate_flatten {α : Type} (between : List α) {lists : List (List (List α))}
    (h : ∀ l ∈ lists, l ≠ []) :
    between.intercalate lists.flatten =
      between.intercalate (lists.map between.intercalate) := by
  induction lists with
  | nil => rfl
  | cons l lists ih =>
      obtain ⟨hl, hlists⟩ := List.forall_mem_cons.mp h
      cases lists with
      | nil => simp
      | cons m lists =>
          have hrest : (m :: lists).flatten ≠ [] := by
            rw [List.flatten_cons]
            exact List.append_ne_nil_of_left_ne_nil (hlists m List.mem_cons_self) _
          rw [List.flatten_cons, intercalate_append between hl hrest, ih hlists]
          exact List.intercalate_cons_cons.symm

/-- What is put behind joined lists is put behind the last of them. -/
theorem intercalate_concat {α : Type} (between x y : List α) (a : List (List α)) :
    between.intercalate (a ++ [x]) ++ y = between.intercalate (a ++ [x ++ y]) := by
  by_cases ha : a = []
  · simp [ha]
  · rw [intercalate_append between ha (List.cons_ne_nil _ _),
      intercalate_append between ha (List.cons_ne_nil _ _), List.intercalate_singleton,
      List.intercalate_singleton, List.append_assoc]

/-- A sentence is its written words with spaces between them. -/
theorem toList_sentence {words : List String} (h : words ≠ []) :
    (sentence words).toList = [' '].intercalate (writeWords words) := by
  have hsentence : (sentence words).toList =
      [' '].intercalate ((words.mapIdx (punctuated words.length)).map String.toList) ++ ['.'] := by
    rw [sentence, String.toList_append, String.toList_intercalate]
    rfl
  obtain ⟨first, last, rfl⟩ := (List.eq_nil_or_concat' words).resolve_left h
  have hlength : (first ++ [last]).length = first.length + 1 := List.length_append
  have hfirst : (first.mapIdx (punctuated (first ++ [last]).length)).map String.toList =
      first.mapIdx (writeWord (first ++ [last]).length) := by
    refine List.ext_getElem (by simp) fun i _ hi => ?_
    rw [List.length_mapIdx] at hi
    rw [List.getElem_map, List.getElem_mapIdx, List.getElem_mapIdx, writeWord, if_neg (by omega),
      List.append_nil]
  have hlast : (punctuated (first ++ [last]).length first.length last).toList ++ ['.'] =
      writeWord (first ++ [last]).length first.length last := by
    rw [writeWord, if_pos hlength.symm]
  rw [hsentence, List.mapIdx_concat, List.map_append, List.map_singleton, intercalate_concat,
    hfirst, hlast, writeWords, List.mapIdx_concat]

/-! ## Taking a text apart -/

/-- The sentences of a text of `count` words, before they are written. -/
def sentencesFor (count : Nat) : List (List String) := sentences 0 ((List.range count).map word)

theorem isWord_of_mem_sentencesFor {count : Nat} {s : List String} (hs : s ∈ sentencesFor count)
    {w : String} (hw : w ∈ s) : IsWord w := by
  have hmem : w ∈ (sentencesFor count).flatten := List.mem_flatten.mpr ⟨s, hs, hw⟩
  rw [sentencesFor, flatten_sentences] at hmem
  obtain ⟨i, _, rfl⟩ := List.mem_map.mp hmem
  exact isWord_word i

theorem writeWords_ne_nil {words : List String} (h : words ≠ []) : writeWords words ≠ [] := by
  rw [← List.length_pos_iff, length_writeWords]
  exact List.length_pos_iff.mpr h

/-- Split at its spaces, a text falls into the words that were written. -/
theorem wordsOf_generate (count : Nat) :
    wordsOf (generate count) = ((sentencesFor count).map writeWords).flatten := by
  have hne : ∀ s ∈ sentencesFor count, s ≠ [] := fun s hs => ne_nil_of_mem_sentences hs
  have htext : (generate count).toList =
      [' '].intercalate ((sentencesFor count).map writeWords).flatten := by
    have hwritten : ∀ l ∈ (sentencesFor count).map writeWords, l ≠ [] := by
      rintro l hl
      obtain ⟨s, hs, rfl⟩ := List.mem_map.mp hl
      exact writeWords_ne_nil (hne s hs)
    rw [intercalate_flatten _ hwritten, generate, String.toList_intercalate, List.map_map,
      List.map_map]
    refine congrArg _ (List.map_congr_left fun s hs => ?_)
    exact toList_sentence (hne s hs)
  have hword : ∀ x ∈ ((sentencesFor count).map writeWords).flatten, x ≠ [] ∧ ' ' ∉ x := by
    intro x hx
    obtain ⟨l, hl, hx⟩ := List.mem_flatten.mp hx
    obtain ⟨s, hs, rfl⟩ := List.mem_map.mp hl
    obtain ⟨i, w, hw, rfl⟩ := mem_writeWords (fun w hw => isWord_of_mem_sentencesFor hs hw) hx
    exact ⟨writeWord_ne_nil hw _ _, space_not_mem_writeWord hw _ _⟩
  rw [wordsOf, htext]
  generalize ((sentencesFor count).map writeWords).flatten = written at hword
  by_cases hnone : written = []
  · rw [hnone]
    rfl
  · -- `[[]]` would be joined to the empty text as well, but no word is empty
    have hsplit : ([' '].intercalate written).splitOn ' ' = written :=
      List.splitOn_intercalate ' ' (fun x hx => (hword x hx).2) hnone
    rw [if_neg, hsplit]
    intro hempty
    rw [List.isEmpty_iff.mp hempty, List.splitOn_nil] at hsplit
    exact (hword [] (hsplit ▸ List.mem_singleton_self _)).1 rfl

theorem map_bare_writeWords {words : List String} (hwords : ∀ w ∈ words, IsWord w) :
    (writeWords words).map bare = words.map String.toList := by
  refine List.ext_getElem (by simp) fun i hi _ => ?_
  rw [List.length_map, length_writeWords] at hi
  simp only [writeWords, List.getElem_map, List.getElem_mapIdx]
  exact bare_writeWord (hwords _ (List.getElem_mem hi)) _ i

theorem map_bare_wordsOf_generate (count : Nat) :
    (wordsOf (generate count)).map bare = ((List.range count).map word).map String.toList := by
  have hwords : ∀ s ∈ sentencesFor count, (writeWords s).map bare = s.map String.toList :=
    fun s hs => map_bare_writeWords fun w hw => isWord_of_mem_sentencesFor hs hw
  rw [wordsOf_generate, List.map_flatten, List.map_map, ← flatten_sentences 0 (List.map _ _),
    List.map_flatten]
  exact congrArg List.flatten (List.map_congr_left hwords)

/-- Cut at its periods, a text falls into the sentences that were written. -/
theorem sentencesOf_generate (count : Nat) :
    sentencesOf (wordsOf (generate count)) = (sentencesFor count).map writeWords := by
  have hword : ∀ s ∈ sentencesFor count, ∀ i (hi : i < (writeWords s).length),
      ('.' ∈ (writeWords s)[i] ↔ i + 1 = (writeWords s).length) := by
    intro s hs i hi
    rw [length_writeWords] at hi
    simp only [writeWords, List.getElem_mapIdx, List.length_mapIdx]
    exact period_mem_writeWord (isWord_of_mem_sentencesFor hs (List.getElem_mem hi)) _ i
  rw [wordsOf_generate, sentencesOf]
  -- no sentence is empty, a period is not inside one, and it is between any two of them
  refine List.splitBy_flatten ?_ ?_ ?_
  · intro hnil
    obtain ⟨s, hs, hempty⟩ := List.mem_map.mp hnil
    exact writeWords_ne_nil (ne_nil_of_mem_sentences hs) hempty
  · intro l hl
    obtain ⟨s, hs, rfl⟩ := List.mem_map.mp hl
    rw [List.isChain_iff_getElem]
    intro i hi
    have hinner : '.' ∉ (writeWords s)[i] := by
      rw [hword s hs i (by omega)]
      omega
    simpa using hinner
  · rw [List.isChain_map]
    refine List.isChain_iff_getElem.mpr fun i hi => ?_
    have hs := List.getElem_mem (Nat.lt_of_succ_lt hi)
    have hfirst := writeWords_ne_nil (ne_nil_of_mem_sentences hs)
    refine ⟨hfirst, writeWords_ne_nil (ne_nil_of_mem_sentences (List.getElem_mem hi)), ?_⟩
    have hpos := List.length_pos_iff.mpr hfirst
    have hlast : '.' ∈ (writeWords (sentencesFor count)[i]).getLast hfirst := by
      rw [List.getLast_eq_getElem, hword _ hs]
      omega
    simpa using hlast

/-- A written sentence: its first word has a capital, and its last word ends with a period. -/
structure IsSentence (s : List (List Char)) : Prop where
  capital : ∃ c ∈ s.head?.bind List.head?, c.isUpper = true
  period : s.getLast?.bind List.getLast? = some '.'

theorem isSentence_writeWords {words : List String} (hsome : words ≠ [])
    (hwords : ∀ w ∈ words, IsWord w) : IsSentence (writeWords words) where
  capital := by
    obtain ⟨w, rest, rfl⟩ := List.exists_cons_of_ne_nil hsome
    obtain ⟨c, letters, _, hletters, hcased⟩ := exists_cased (hwords w List.mem_cons_self) 0
    refine ⟨c.toUpper, ?_, (lettered_of_mem (hletters c List.mem_cons_self)).isUpper_toUpper⟩
    rw [writeWords, List.head?_mapIdx, List.head?_cons, Option.map_some, Option.bind_some,
      writeWord_eq, hcased]
    rfl
  period := by
    have hpos := List.length_pos_iff.mpr hsome
    rw [writeWords, List.getLast?_mapIdx, List.getLast?_eq_some_getLast hsome, Option.map_some,
      Option.bind_some, writeWord, if_pos (by omega), List.getLast?_concat]

/-- The full length of the `k`-th sentence: eight words, and then seven lengths in turn. -/
def fullLength (k : Nat) : Nat :=
  if k = 0 then 8 else [7, 11, 5, 9, 13, 6, 10].getD ((k - 1) % 7) 0

theorem sentenceLength_eq_fullLength (k : Nat) : sentenceLength k = fullLength k := by
  cases k with
  | zero => rfl
  | succ k =>
      have hlt : k % 7 < 7 := Nat.mod_lt k (by decide)
      rw [sentenceLength, fullLength, if_neg (Nat.succ_ne_zero k), Nat.add_sub_cancel]
      generalize k % 7 = r at hlt ⊢
      revert r
      decide

/-- **The generated text has the words that it was asked for.** Between its spaces stand exactly
`count` words. Without marks and capitals they are the opening and then every seventh word of the
stock, around and around. Its sentences, which end where the periods are, start with a capital, and
all but the last have their full length. -/
theorem generate_words (count : Nat) :
    (generate count = "" ↔ count = 0) ∧
    let words := wordsOf (generate count)
    words.length = count ∧
    words.map bare =
      ((opening ++ (List.range count).map fun i => stock.getD (7 * i % stock.length) "").take
        count).map String.toList ∧
    (∀ s ∈ sentencesOf words, IsSentence s) ∧
    ∀ k s, (sentencesOf words)[k]? = some s →
      s.length ≤ fullLength k ∧
        (k + 1 < (sentencesOf words).length → s.length = fullLength k) := by
  have hbare := map_bare_wordsOf_generate count
  have hlength : (wordsOf (generate count)).length = count := by
    simpa using congrArg List.length hbare
  refine ⟨⟨fun hempty => ?_, ?_⟩, hlength, ?_, ?_, ?_⟩
  · rw [hempty] at hlength
    exact hlength.symm
  · rintro rfl
    rw [generate, List.range_zero, List.map_nil, sentences]
    rfl
  · rw [hbare, map_word_range]
  · intro s hs
    rw [sentencesOf_generate] at hs
    obtain ⟨written, hwritten, rfl⟩ := List.mem_map.mp hs
    exact isSentence_writeWords (ne_nil_of_mem_sentences hwritten)
      fun w hw => isWord_of_mem_sentencesFor hwritten hw
  · intro k s hs
    rw [sentencesOf_generate, List.getElem?_map, Option.map_eq_some_iff] at hs
    obtain ⟨written, hwritten, rfl⟩ := hs
    have hcut := length_sentences hwritten
    rw [Nat.zero_add, sentenceLength_eq_fullLength] at hcut
    rw [sentencesOf_generate, List.length_map, length_writeWords]
    exact hcut

/-- Seventeen words: the first two sentences are full, and the third one is cut short. -/
theorem generate_words_seventeen :
    let sentences := sentencesOf (wordsOf (generate 17))
    sentences.length = 3 ∧
    sentences[1]? = some ["Exercitationem".toList, "nam".toList, "consectetur".toList, "non".toList,
      "nihil,".toList, "cumque".toList, "sequi.".toList] ∧ fullLength 1 = 7 ∧
    sentences[2]? = some ["Veritatis".toList, "fuga.".toList] ∧ 2 ≤ fullLength 2 ∧
    IsSentence ["Veritatis".toList, "fuga.".toList] := by
  intro sentences
  obtain ⟨hcount, hfull, hshort⟩ : sentences.length = 3 ∧
      sentences[1]? = some ["Exercitationem".toList, "nam".toList, "consectetur".toList,
        "non".toList, "nihil,".toList, "cumque".toList, "sequi.".toList] ∧
      sentences[2]? = some ["Veritatis".toList, "fuga.".toList] := by
    decide +kernel
  obtain ⟨_, _, _, hsentence, hlength⟩ := generate_words 17
  exact ⟨hcount, hfull, ((hlength 1 _ hfull).2 (by rw [hcount]; decide)).symm, hshort,
    (hlength 2 _ hshort).1, hsentence _ (List.mem_of_getElem? hshort)⟩

end Shorthand.Markup.Lorem
