import Mathlib.Data.List.DropRight
import Shorthand.Proofs.Editor.Capacity
import Shorthand.Proofs.Editor.Synchronization

/-!
# Accounting — what a store keeps of an operation, and what it counts

An operation that is refused leaves nothing behind: not a part of the changes, no date, no count
(`refused_leaves_store`). The operations that are accepted are all accounted for by the three
counters. Every document that was not open when it was opened is still open, or was dropped to make
room, or was closed; and each opening is a hit or a miss (`counters_balance`). The invariant is kept
by every operation (`Accounted.apply`), since clearing the store starts both sides anew.
-/

namespace Shorthand.Editor.Store

/-! ## Refused operations -/

/-- Changing a document is refused exactly if it is not open or all changes together make it too
large. -/
theorem change_eq_false_iff {now : Nat} {uri : Uri} {version : Int} {changes : List Change}
    {s : Store} :
    (s.change now uri version changes).1 = false ↔
      ∀ e ∈ s.find? uri, s.maxSize < textSize (Change.applyAll changes e.document.text) := by
  rw [change]
  cases s.find? uri with
  | none => simp
  | some e =>
      by_cases hlarge : s.maxSize < textSize (Change.applyAll changes e.document.text)
      · simp [hlarge]
      · simp [hlarge]

theorem change_of_refused {now : Nat} {uri : Uri} {version : Int} {changes : List Change}
    {s : Store} (h : (s.change now uri version changes).1 = false) :
    s.change now uri version changes = (false, s) := by
  rw [change] at h ⊢
  cases hfound : s.find? uri with
  | none => rfl
  | some e =>
      simp only [hfound] at h ⊢
      split at h
      · next hlarge => rw [if_pos hlarge]
      · cases h

/-- Changes that are accepted are all made, in order, and the rest of the document is kept. -/
theorem find?_change_of_accepted {now : Nat} {uri : Uri} {version : Int} {changes : List Change}
    {s : Store} (h : (s.change now uri version changes).1 = true) :
    ∃ e, s.find? uri = some e ∧
      (s.change now uri version changes).2.find? uri =
        some ⟨uri, { e.document with
          text := Change.applyAll changes e.document.text, version }, now⟩ := by
  rw [change] at h ⊢
  cases hfound : s.find? uri with
  | none =>
      rw [hfound] at h
      cases h
  | some e =>
      refine ⟨e, rfl, ?_⟩
      simp only [hfound] at h ⊢
      split at h
      · cases h
      · next hfits =>
        rw [if_neg hfits]
        exact find?_replace hfound now _

theorem openDocument_of_refused {now : Nat} {uri : Uri} {document : Document} {s : Store}
    (h : (s.openDocument now uri document).1 = false) :
    s.openDocument now uri document = (false, s) := by
  rcases openDocument_cases now uri document s with hopened | hopened | ⟨_, hopened⟩
  · exact hopened
  · rw [hopened] at h
    cases h
  · rw [hopened] at h
    cases h

/-- Closing a document that is not open takes no document away. -/
theorem remove_of_refused {uri : Uri} {s : Store} (h : (s.remove uri).1 = false) :
    s.remove uri = (false, s) := by
  have hnone : ∀ e ∈ s.entries, (e.uri != uri) = true := by
    intro e he
    rw [bne_iff_ne]
    rintro rfl
    have hopen : s.contains e.uri = true := contains_eq_true_iff.mpr ⟨e, he, rfl⟩
    rw [remove, hopen] at h
    cases h
  rw [remove] at h ⊢
  rw [List.filter_eq_self.mpr hnone]
  exact Prod.ext h rfl

/-- **A refused operation leaves the store as it was**: the documents with their dates, the bounds
and the counters. A list of changes is made as a whole or not at all, and whether it is made is decided
by the size of the text that all of them together give. -/
theorem refused_leaves_store (s : Store) (now : Nat) (uri : Uri) :
    (∀ document, (s.openDocument now uri document).1 = false →
      (s.openDocument now uri document).2 = s) ∧
    ((s.remove uri).1 = false → (s.remove uri).2 = s) ∧
    (∀ version changes, (s.change now uri version changes).1 = false →
      (s.change now uri version changes).2 = s) ∧
    (∀ version changes e, s.find? uri = some e →
      s.maxSize < textSize (Change.applyAll changes e.document.text) →
      s.change now uri version changes = (false, s)) ∧
    ∀ version changes, (s.change now uri version changes).1 = true →
      ∃ e, s.find? uri = some e ∧
        (s.change now uri version changes).2.find? uri =
          some ⟨uri, { e.document with
            text := Change.applyAll changes e.document.text, version }, now⟩ := by
  refine ⟨fun document h => ?_, fun h => ?_, fun version changes h => ?_, ?_, ?_⟩
  · rw [openDocument_of_refused h]
  · rw [remove_of_refused h]
  · rw [change_of_refused h]
  · intro version changes e hfound hlarge
    refine change_of_refused (change_eq_false_iff.mpr fun found hmem => ?_)
    rw [hfound, Option.mem_some_iff] at hmem
    rwa [← hmem]
  · exact fun version changes h => find?_change_of_accepted h

/-- One document in a store for texts of up to five bytes. -/
def crampedStore : Store :=
  { entries := [⟨⟨"file:///a"⟩, ⟨"ul>li", "html", 1⟩, 3⟩]
    capacity := 1
    maxSize := 5
    misses := 1 }

/-- Three changes of that document: the first two fit, the third one makes it too large. -/
def crampedChanges : List Change :=
  [⟨some ⟨⟨0, 2⟩, ⟨0, 5⟩⟩, ""⟩, ⟨none, "p"⟩, ⟨some ⟨⟨0, 1⟩, ⟨0, 1⟩⟩, "*1000"⟩]

theorem refused_leaves_store_cramped :
    (crampedStore.openDocument 4 ⟨"file:///b"⟩ ⟨"p*1000", "html", 1⟩).1 = false ∧
    (crampedStore.openDocument 4 ⟨"file:///b"⟩ ⟨"p*1000", "html", 1⟩).2 = crampedStore ∧
    (crampedStore.remove ⟨"file:///b"⟩).1 = false ∧
    (crampedStore.remove ⟨"file:///b"⟩).2 = crampedStore ∧
    (crampedStore.change 4 ⟨"file:///a"⟩ 2 (crampedChanges.take 2)).1 = true ∧
    (crampedStore.change 4 ⟨"file:///a"⟩ 2 crampedChanges) = (false, crampedStore) := by
  have hopen : (crampedStore.openDocument 4 ⟨"file:///b"⟩ ⟨"p*1000", "html", 1⟩).1 = false := by
    decide +kernel
  have hremove : (crampedStore.remove ⟨"file:///b"⟩).1 = false := by decide +kernel
  refine ⟨hopen, (refused_leaves_store crampedStore 4 ⟨"file:///b"⟩).1 _ hopen, hremove,
    (refused_leaves_store crampedStore 4 ⟨"file:///b"⟩).2.1 hremove, by decide +kernel, ?_⟩
  exact (refused_leaves_store crampedStore 4 ⟨"file:///a"⟩).2.2.2.1 2 crampedChanges
    ⟨⟨"file:///a"⟩, ⟨"ul>li", "html", 1⟩, 3⟩ (by decide +kernel) (by decide +kernel)

/-! ## What one operation counts -/

/-- The three counters and the number of open documents. -/
structure Counts where
  hits : Nat
  misses : Nat
  evictions : Nat
  size : Nat
  deriving Repr, DecidableEq

def counts (s : Store) : Counts :=
  { hits := s.hits, misses := s.misses, evictions := s.evictions, size := s.size }

@[simp] theorem counts_replace (now : Nat) (uri : Uri) (document : Document) (s : Store) :
    (s.replace now uri document).counts = s.counts := by
  rw [counts, size_replace]
  rfl

@[simp] theorem counts_change (now : Nat) (uri : Uri) (version : Int) (changes : List Change)
    (s : Store) : (s.change now uri version changes).2.counts = s.counts := by
  simp only [change]
  split
  · rfl
  · split
    · rfl
    · exact counts_replace now uri _ s

@[simp] theorem counts_get (now : Nat) (uri : Uri) (s : Store) :
    (s.get now uri).2.counts = s.counts := by
  simp only [get]
  split
  · rfl
  · exact counts_replace now uri _ s

/-- A document that has to make room is no longer open and counts as dropped. In an empty store
there is none, whatever the capacity. -/
theorem evictions_add_size_makeRoom {s : Store} (h : s.Distinct) :
    s.makeRoom.evictions + s.makeRoom.size = s.evictions + s.size := by
  simp only [makeRoom, evict]
  split
  · split
    · rfl
    · next oldest holdest =>
      have hmem := mem_of_leastRecent? holdest
      have hopen : s.contains oldest.uri = true := contains_eq_true_iff.mpr ⟨oldest, hmem, rfl⟩
      have hpos : 0 < s.size := List.length_pos_of_mem hmem
      have hlength := length_filter_uri h hopen
      show s.evictions + 1 + (s.entries.filter (·.uri != oldest.uri)).length = _
      omega
  · rfl

/-- A document that is taken in is one more miss, and one more that is open or dropped. -/
theorem counts_takeIn {s : Store} (h : s.Distinct) (now : Nat) (uri : Uri) (document : Document) :
    (s.takeIn now uri document).hits = s.hits ∧
    (s.takeIn now uri document).misses = s.misses + 1 ∧
    (s.takeIn now uri document).evictions + (s.takeIn now uri document).size =
      s.evictions + s.size + 1 := by
  have hhits : s.makeRoom.hits = s.hits := by
    simp only [makeRoom, evict]
    split
    · split <;> rfl
    · rfl
  refine ⟨hhits, rfl, ?_⟩
  rw [size_takeIn, ← evictions_add_size_makeRoom h]
  rfl

theorem size_remove {s : Store} (h : s.Distinct) {uri : Uri} (hopen : s.contains uri = true) :
    (s.remove uri).2.size + 1 = s.size := by
  obtain ⟨e, he, _⟩ := contains_eq_true_iff.mp hopen
  have hpos : 0 < s.size := List.length_pos_of_mem he
  have hlength : (s.remove uri).2.size = s.size - 1 := length_filter_uri h hopen
  omega

/-! ## Histories -/

/-- An opening that was accepted. -/
def opens : Operation × Answer → Bool
  | (.openDocument .., .verdict true) => true
  | _ => false

/-- The closing of a document that was open. -/
def closes : Operation × Answer → Bool
  | (.remove _, .verdict true) => true
  | _ => false

/-- The part of a history after the store was cleared for the last time, if it ever was. -/
def sinceClear (history : List (Operation × Answer)) : List (Operation × Answer) :=
  history.rtakeWhile (·.1 != .clear)

/-- What was asked of a store and what it has answered. -/
def history (s : Store) (operations : List (Nat × Operation)) : List (Operation × Answer) :=
  (operations.map Prod.snd).zip (s.run operations).1

theorem length_run (s : Store) (operations : List (Nat × Operation)) :
    (s.run operations).1.length = operations.length := by
  induction operations generalizing s with
  | nil => rfl
  | cons first rest ih => exact congrArg (· + 1) (ih _)

theorem answers_concat (s : Store) (operations : List (Nat × Operation)) (now : Nat)
    (operation : Operation) :
    (s.run (operations ++ [(now, operation)])).1 =
      (s.run operations).1 ++ [((s.run operations).2.apply now operation).1] := by
  induction operations generalizing s with
  | nil => rfl
  | cons first rest ih => exact congrArg (_ :: ·) (ih _)

theorem history_concat (s : Store) (operations : List (Nat × Operation)) (now : Nat)
    (operation : Operation) :
    s.history (operations ++ [(now, operation)]) =
      s.history operations ++ [(operation, ((s.run operations).2.apply now operation).1)] := by
  rw [history, answers_concat, List.map_append, List.zip_append]
  · rfl
  · rw [List.length_map, length_run]

/-- What the counters of a store are worth after a history: every miss is a document that is open,
was dropped or was closed, and every opening is a hit or a miss. -/
structure Accounted (history : List (Operation × Answer)) (s : Store) : Prop where
  distinct : s.Distinct
  misses : s.misses = s.size + s.evictions + (sinceClear history).countP closes
  openings : s.hits + s.misses = (sinceClear history).countP opens

namespace Accounted

variable {history : List (Operation × Answer)} {s : Store}

/-- An operation that changes the counters by what it adds to the two numbers of the history. -/
theorem of_counts (h : s.Accounted history) {s' : Store} (hdistinct : s'.Distinct)
    {operation : Operation} {answer : Answer} (hclear : (operation != .clear) = true)
    (hmisses : s'.misses + s.size + s.evictions =
      s.misses + s'.size + s'.evictions + (if closes (operation, answer) then 1 else 0))
    (hopenings : s'.hits + s'.misses =
      s.hits + s.misses + (if opens (operation, answer) then 1 else 0)) :
    s'.Accounted (history ++ [(operation, answer)]) := by
  have hsince : sinceClear (history ++ [(operation, answer)]) =
      sinceClear history ++ [(operation, answer)] :=
    List.rtakeWhile_concat_pos _ _ _ hclear
  have hbefore := h.misses
  have hopened := h.openings
  refine ⟨hdistinct, ?_, ?_⟩
  · rw [hsince, List.countP_append, List.countP_singleton]
    omega
  · rw [hsince, List.countP_append, List.countP_singleton]
    omega

/-- An operation that neither opens nor closes a document leaves the counters alone. -/
theorem of_counts_eq (h : s.Accounted history) {s' : Store} (hdistinct : s'.Distinct)
    (hcounts : s'.counts = s.counts) {operation : Operation} {answer : Answer}
    (hclear : (operation != .clear) = true) (hopens : opens (operation, answer) = false)
    (hcloses : closes (operation, answer) = false) :
    s'.Accounted (history ++ [(operation, answer)]) := by
  obtain ⟨hhits, hmisses, hevictions, hsize⟩ :
      s'.hits = s.hits ∧ s'.misses = s.misses ∧ s'.evictions = s.evictions ∧ s'.size = s.size := by
    simpa [counts] using hcounts
  refine h.of_counts hdistinct hclear ?_ ?_
  · rw [hmisses, hsize, hevictions, hcloses]
    rfl
  · rw [hhits, hmisses, hopens]
    rfl

theorem openDocument (h : s.Accounted history) (now : Nat) (uri : Uri) (document : Document) :
    (s.openDocument now uri document).2.Accounted
      (history ++ [(.openDocument uri document,
        .verdict (s.openDocument now uri document).1)]) := by
  have hdistinct := h.distinct.openDocument now uri document
  rcases openDocument_cases now uri document s with hopened | hopened | ⟨_, hopened⟩
  · rw [hopened] at hdistinct ⊢
    exact h.of_counts_eq hdistinct rfl rfl rfl rfl
  · -- open already: a hit, and as many documents as before
    rw [hopened] at hdistinct ⊢
    refine h.of_counts hdistinct rfl ?_ ?_
    · have hsize := size_replace now uri document s
      show s.misses + s.size + s.evictions =
        s.misses + (s.replace now uri document).size + s.evictions + 0
      omega
    · show s.hits + 1 + s.misses = s.hits + s.misses + 1
      omega
  · -- a miss: the new document is open, and the one it replaces, if any, counts as dropped
    obtain ⟨hhits, hmisses, hroom⟩ := counts_takeIn h.distinct now uri document
    rw [hopened] at hdistinct ⊢
    refine h.of_counts hdistinct rfl ?_ ?_
    · rw [hmisses]
      show _ = s.misses + (s.takeIn now uri document).size +
        (s.takeIn now uri document).evictions + 0
      omega
    · rw [hhits, hmisses]
      rfl

theorem remove (h : s.Accounted history) (now : Nat) (uri : Uri) :
    (s.remove uri).2.Accounted (history ++ [(.remove uri, .verdict (s.remove uri).1)]) := by
  have hdistinct : (s.remove uri).2.Distinct := h.distinct.apply now (.remove uri)
  cases hopen : s.contains uri with
  | true =>
      have hsize := size_remove h.distinct hopen
      refine h.of_counts hdistinct rfl ?_ ?_
      · have hverdict : closes (.remove uri, .verdict (s.remove uri).1) = true := by
          rw [Store.remove, hopen]
          rfl
        rw [hverdict]
        show s.misses + s.size + s.evictions = s.misses + (s.remove uri).2.size + s.evictions + 1
        omega
      · rfl
  | false =>
      have hrefused : (s.remove uri).1 = false := hopen
      rw [remove_of_refused hrefused] at hdistinct ⊢
      exact h.of_counts_eq hdistinct rfl rfl rfl rfl

/-- **Every operation keeps the accounts.** -/
theorem apply (h : s.Accounted history) (now : Nat) (operation : Operation) :
    (s.apply now operation).2.Accounted
      (history ++ [(operation, (s.apply now operation).1)]) := by
  have hdistinct := h.distinct.apply now operation
  cases operation with
  | openDocument uri document => exact h.openDocument now uri document
  | remove uri => exact h.remove now uri
  | change uri version changes =>
      exact h.of_counts_eq hdistinct (counts_change now uri version changes s) rfl rfl rfl
  | get uri => exact h.of_counts_eq hdistinct (counts_get now uri s) rfl rfl rfl
  | contains | setCapacity | setMaxSize => exact h.of_counts_eq hdistinct rfl rfl rfl rfl
  | clear =>
      have hsince : sinceClear (history ++ [(.clear, .nothing)]) = [] :=
        List.rtakeWhile_concat_neg _ _ _ (by simp)
      refine ⟨hdistinct, ?_, ?_⟩
      · show 0 = _ + List.countP closes (sinceClear (history ++ [(.clear, .nothing)]))
        rw [hsince]
        rfl
      · show 0 + 0 = List.countP opens (sinceClear (history ++ [(.clear, .nothing)]))
        rw [hsince]
        rfl

end Accounted

theorem accounted_run (capacity maxSize : Nat) (operations : List (Nat × Operation)) :
    (run { capacity, maxSize } operations).2.Accounted
      (history { capacity, maxSize } operations) := by
  -- from the end, since the last operation is what may start the accounts anew
  induction operations using List.reverseRecOn with
  | nil => exact ⟨List.nodup_nil, rfl, rfl⟩
  | append_singleton seen last ih =>
      obtain ⟨now, operation⟩ := last
      rw [run_concat, history_concat]
      exact ih.apply now operation

/-- **The counters account for every document.** Whatever has been asked of a store since it was
made or last cleared: the misses are the documents that are open, those that were dropped, and the
closings that were answered with yes; the hits and the misses are the openings that were. -/
theorem counters_balance (capacity maxSize : Nat) (operations : List (Nat × Operation)) :
    let start : Store := { capacity, maxSize }
    let after := (start.run operations).2
    let recent := sinceClear (start.history operations)
    after.misses = after.size + after.evictions + recent.countP closes ∧
    after.hits + after.misses = recent.countP opens :=
  ⟨(accounted_run capacity maxSize operations).misses,
    (accounted_run capacity maxSize operations).openings⟩

end Shorthand.Editor.Store
