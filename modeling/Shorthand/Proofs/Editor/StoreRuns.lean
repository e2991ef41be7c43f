import Shorthand.Editor.Store

/-!
# StoreRuns — a store under a sequence of operations

Everything that can be asked of a store as one type, so that statements about all histories of a
store are statements about all lists of operations. Beside it, what each operation does to the set
of open documents (`contains_replace`, `contains_remove`, `contains_takeIn`): only closing a document
and making room for one take a document away.
-/

namespace Shorthand.Editor.Store

/-! ## Operations and runs -/

/-- What can be asked of a store. -/
inductive Operation where
  | openDocument (uri : Uri) (document : Document)
  | change (uri : Uri) (version : Int) (changes : List Change)
  | get (uri : Uri)
  | contains (uri : Uri)
  | remove (uri : Uri)
  | clear
  | setCapacity (capacity : Nat)
  | setMaxSize (maxSize : Nat)
  deriving Repr, DecidableEq

/-- What a store answers: nothing, yes or no, or a document if it has it. -/
inductive Answer where
  | nothing
  | verdict (yes : Bool)
  | document (found : Option Document)
  deriving Repr, DecidableEq

/-- One operation at the time `now`. -/
def apply (now : Nat) (s : Store) : Operation → Answer × Store
  | .openDocument uri document =>
    let outcome := s.openDocument now uri document
    (.verdict outcome.1, outcome.2)
  | .change uri version changes =>
    let outcome := s.change now uri version changes
    (.verdict outcome.1, outcome.2)
  | .get uri =>
    let outcome := s.get now uri
    (.document outcome.1, outcome.2)
  | .contains uri => (.verdict (s.contains uri), s)
  | .remove uri =>
    let outcome := s.remove uri
    (.verdict outcome.1, outcome.2)
  | .clear => (.nothing, s.clear)
  | .setCapacity capacity => (.nothing, s.setCapacity capacity)
  | .setMaxSize maxSize => (.nothing, s.setMaxSize maxSize)

/-- Operations one after the other, each with the time it happens at: all answers, and the store
after them. -/
def run (s : Store) : List (Nat × Operation) → List Answer × Store
  | [] => ([], s)
  | (now, operation) :: rest =>
    let first := s.apply now operation
    let others := first.2.run rest
    (first.1 :: others.1, others.2)

/-! ## Which documents are open -/

theorem contains_eq_true_iff {s : Store} {uri : Uri} :
    s.contains uri = true ↔ ∃ e ∈ s.entries, e.uri = uri := by
  simp [contains]

/-- Putting a document in the place of another opens and closes none. -/
@[simp] theorem contains_replace (now : Nat) (uri other : Uri) (document : Document) (s : Store) :
    (s.replace now uri document).contains other = s.contains other := by
  simp only [contains, replace, List.any_map]
  congr 1
  funext e
  by_cases he : e.uri = uri
  · simp [he]
  · simp [he]

@[simp] theorem contains_change (now : Nat) (uri other : Uri) (version : Int)
    (changes : List Change) (s : Store) :
    (s.change now uri version changes).2.contains other = s.contains other := by
  simp only [change]
  split
  · rfl
  · split <;> simp

@[simp] theorem contains_get (now : Nat) (uri other : Uri) (s : Store) :
    (s.get now uri).2.contains other = s.contains other := by
  simp only [get]
  split <;> simp

@[simp] theorem contains_complete (now : Nat) (uri other : Uri) (position : Position) (s : Store) :
    (s.complete now uri position).2.contains other = s.contains other := by
  rw [← contains_get now uri other s, complete]
  split
  · next hget => rw [hget]
  · next hget => rw [hget]

/-- Closing a document closes that one and no other. -/
theorem contains_remove (uri other : Uri) (s : Store) :
    (s.remove uri).2.contains other = true ↔ s.contains other = true ∧ other ≠ uri := by
  simp only [contains_eq_true_iff, remove, List.mem_filter, bne_iff_ne]
  constructor
  · rintro ⟨e, ⟨hmem, hne⟩, rfl⟩
    exact ⟨⟨e, hmem, rfl⟩, hne⟩
  · rintro ⟨⟨e, hmem, rfl⟩, hne⟩
    exact ⟨e, ⟨hmem, hne⟩, rfl⟩

theorem mem_of_leastRecent? {entries : List StoreEntry} {oldest : StoreEntry}
    (h : leastRecent? entries = some oldest) : oldest ∈ entries := by
  induction entries generalizing oldest with
  | nil => cases h
  | cons e entries ih =>
      rw [leastRecent?] at h
      split at h
      · cases h
        exact List.mem_cons_self
      · next first hfirst =>
        split at h
        · cases h
          exact List.mem_cons_of_mem _ (ih hfirst)
        · cases h
          exact List.mem_cons_self

/-- The document that has to go before one more can be opened, if there is no room. -/
def surplus? (s : Store) : Option StoreEntry :=
  if s.capacity ≤ s.size then leastRecent? s.entries else none

theorem mem_of_surplus? {s : Store} {oldest : StoreEntry} (h : s.surplus? = some oldest) :
    oldest ∈ s.entries := by
  rw [surplus?] at h
  split at h
  · exact mem_of_leastRecent? h
  · cases h

theorem entries_makeRoom_of_none {s : Store} (h : s.surplus? = none) :
    s.makeRoom.entries = s.entries := by
  simp only [makeRoom, evict]
  split
  · next hfull =>
    rw [surplus?, if_pos hfull] at h
    rw [h]
  · rfl

theorem entries_makeRoom_of_some {s : Store} {oldest : StoreEntry} (h : s.surplus? = some oldest) :
    s.makeRoom.entries = s.entries.filter (·.uri != oldest.uri) := by
  rw [surplus?] at h
  split at h
  · next hfull => rw [makeRoom, if_pos hfull, evict, h]
  · cases h

/-- Opening a document that is too large does nothing. -/
theorem openDocument_of_large {document : Document} {s : Store}
    (hlarge : s.maxSize < textSize document.text) (now : Nat) (uri : Uri) :
    s.openDocument now uri document = (false, s) := by
  rw [openDocument, if_pos hlarge]

/-- Opening a document that is open already puts the new one in its place. -/
theorem openDocument_of_open {uri : Uri} {document : Document} {s : Store}
    (hfits : textSize document.text ≤ s.maxSize) (hopen : s.contains uri = true) (now : Nat) :
    s.openDocument now uri document =
      (true, { s.replace now uri document with hits := s.hits + 1 }) := by
  rw [openDocument, if_neg (Nat.not_lt_of_le hfits), if_pos hopen]
  rfl

/-- Making room does not depend on what has been counted. -/
theorem makeRoom_misses (s : Store) (misses : Nat) :
    { s with misses }.makeRoom = { s.makeRoom with misses } := by
  by_cases hfull : s.capacity ≤ s.entries.length
  · cases holdest : leastRecent? s.entries <;> simp [makeRoom, evict, size, hfull, holdest]
  · simp [makeRoom, size, hfull]

/-- The store with one more document, for which room is made first. -/
def takeIn (now : Nat) (uri : Uri) (document : Document) (s : Store) : Store :=
  { s.makeRoom with
    entries := s.makeRoom.entries ++ [{ uri, document, lastUsed := now }]
    misses := s.misses + 1 }

/-- Opening a document that is not open takes it in. -/
theorem openDocument_of_new {uri : Uri} {document : Document} {s : Store}
    (hfits : textSize document.text ≤ s.maxSize) (hnew : s.contains uri = false) (now : Nat) :
    s.openDocument now uri document = (true, s.takeIn now uri document) := by
  simp only [openDocument, if_neg (Nat.not_lt_of_le hfits), hnew, if_neg Bool.false_ne_true,
    makeRoom_misses, takeIn]

/-- Making room closes none but the document that has to go. -/
theorem contains_makeRoom {other : Uri} {s : Store} :
    s.makeRoom.contains other = true ↔
      s.contains other = true ∧ ∀ oldest ∈ s.surplus?, oldest.uri ≠ other := by
  cases hgone : s.surplus? with
  | none => simp [contains, entries_makeRoom_of_none hgone]
  | some oldest =>
      simp only [contains_eq_true_iff, entries_makeRoom_of_some hgone, List.mem_filter, bne_iff_ne,
        Option.mem_some_iff, forall_eq']
      constructor
      · rintro ⟨e, ⟨hmem, hne⟩, rfl⟩
        exact ⟨⟨e, hmem, rfl⟩, hne.symm⟩
      · rintro ⟨⟨e, hmem, rfl⟩, hne⟩
        exact ⟨e, ⟨hmem, hne.symm⟩, rfl⟩

/-- After a document has been taken in, it is open, and so is all that was not in its way. -/
theorem contains_takeIn {now : Nat} {uri other : Uri} {document : Document} {s : Store} :
    (s.takeIn now uri document).contains other = true ↔
      (s.contains other = true ∧ ∀ oldest ∈ s.surplus?, oldest.uri ≠ other) ∨ uri = other := by
  rw [← contains_makeRoom]
  simp [contains, takeIn]

end Shorthand.Editor.Store
