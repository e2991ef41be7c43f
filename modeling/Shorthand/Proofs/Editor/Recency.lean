import Mathlib.Data.List.Nodup
import Shorthand.Proofs.Editor.StoreRuns

/-!
# Recency — the store drops the document that was used least recently

A store dates each use of a document and looks for the oldest date when it needs room. The reference
here keeps no dates: it is a list of documents from the one used last to the one used first, in
which a use moves a document to the front and room is made at the end.

The two agree for good (`run_eq_recency`): if time never stands still, the entries of a store can be
put in an order of strictly falling dates (`InOrder`), and one operation does to that order what the
reference does to its list (`InOrder.follows`).
-/

namespace Shorthand.Editor

/-! ## The reference -/

/-- Open documents from the one used last to the one used first, and the bounds on them. -/
structure Recency where
  documents : List (Uri × Document) := []
  capacity : Nat
  maxSize : Nat
  deriving Repr, DecidableEq

namespace Recency

def find? (uri : Uri) (r : Recency) : Option Document := r.documents.lookup uri

/-- Puts a document at the front, in place of the one of that name if there is one. -/
def use (uri : Uri) (document : Document) (r : Recency) : Recency :=
  { r with documents := (uri, document) :: r.documents.filter (·.1 != uri) }

/-- Drops the last document if there are as many as there may be. -/
def makeRoom (r : Recency) : Recency :=
  if r.capacity ≤ r.documents.length then { r with documents := r.documents.dropLast } else r

/-- One operation. Only an operation that is accepted, and not the question whether a document is
open, counts as a use. -/
def apply (r : Recency) : Store.Operation → Store.Answer × Recency
  | .openDocument uri document =>
    if r.maxSize < textSize document.text then (.verdict false, r)
    else if (r.find? uri).isSome then (.verdict true, r.use uri document)
    else (.verdict true, r.makeRoom.use uri document)
  | .change uri version changes =>
    match r.find? uri with
    | none => (.verdict false, r)
    | some document =>
      let text := Change.applyAll changes document.text
      if r.maxSize < textSize text then (.verdict false, r)
      else (.verdict true, r.use uri { document with text, version })
  | .get uri =>
    match r.find? uri with
    | none => (.document none, r)
    | some document => (.document (some document), r.use uri document)
  | .contains uri => (.verdict (r.find? uri).isSome, r)
  | .remove uri =>
    (.verdict (r.find? uri).isSome, { r with documents := r.documents.filter (·.1 != uri) })
  | .clear => (.nothing, { r with documents := [] })
  | .setCapacity capacity => (.nothing, { r with capacity })
  | .setMaxSize maxSize => (.nothing, { r with maxSize })

/-- Operations one after the other: all answers, and the documents after them. -/
def run (r : Recency) : List Store.Operation → List Store.Answer × Recency
  | [] => ([], r)
  | operation :: rest =>
    let first := r.apply operation
    let others := first.2.run rest
    (first.1 :: others.1, others.2)

end Recency

/-! ## Entries in order of use -/

/-- A stored document without its date. -/
def StoreEntry.held (e : StoreEntry) : Uri × Document := (e.uri, e.document)

namespace Store

/-- The entries of a store, put in order: each was used later than the ones behind it, and all were
used before `now`. -/
structure InOrder (now : Nat) (s : Store) (order : List StoreEntry) : Prop where
  perm : order.Perm s.entries
  falling : order.Pairwise fun a b => b.lastUsed < a.lastUsed
  distinct : (order.map StoreEntry.uri).Nodup
  past : ∀ e ∈ order, e.lastUsed < now

/-- What the reference holds when the entries of a store are in this order. -/
def recency (s : Store) (order : List StoreEntry) : Recency :=
  { documents := order.map StoreEntry.held, capacity := s.capacity, maxSize := s.maxSize }

theorem lookup_map_held (uri : Uri) (entries : List StoreEntry) :
    (entries.map StoreEntry.held).lookup uri =
      (entries.find? (·.uri == uri)).map StoreEntry.document := by
  induction entries with
  | nil => rfl
  | cons e entries ih =>
      rw [List.map_cons, StoreEntry.held, List.lookup_cons, List.find?_cons, BEq.comm, ih]
      cases e.uri == uri <;> rfl

/-- An entry is found by its name, wherever it stands, if names are distinct. -/
theorem find?_eq_some_of_mem {entries : List StoreEntry}
    (hdistinct : (entries.map StoreEntry.uri).Nodup) {e : StoreEntry} (he : e ∈ entries) :
    entries.find? (·.uri == e.uri) = some e := by
  induction entries with
  | nil => cases he
  | cons first entries ih =>
      obtain ⟨hfirst, hrest⟩ := List.nodup_cons.mp hdistinct
      rw [List.find?_cons]
      rcases List.mem_cons.mp he with rfl | he
      · simp
      · have hne : first.uri ≠ e.uri := fun h => hfirst (h ▸ List.mem_map_of_mem he)
        simp only [beq_eq_false_iff_ne.mpr hne]
        exact ih hrest he

/-- Dating a document anew where it stands gives the same entries as moving it to the front. -/
theorem perm_replace {entries : List StoreEntry} (hdistinct : (entries.map StoreEntry.uri).Nodup)
    {uri : Uri} (hopen : ∃ e ∈ entries, e.uri = uri) (new : StoreEntry) :
    (entries.map fun e => if e.uri == uri then new else e).Perm
      (new :: entries.filter (·.uri != uri)) := by
  induction entries with
  | nil => simp at hopen
  | cons first entries ih =>
      obtain ⟨hfirst, hrest⟩ := List.nodup_cons.mp hdistinct
      by_cases he : first.uri = uri
      · have hothers : ∀ e ∈ entries, e.uri ≠ uri := by
          intro e hmem h
          exact hfirst (he.trans h.symm ▸ List.mem_map_of_mem hmem)
        have hmap : entries.map (fun e => if e.uri == uri then new else e) = entries := by
          refine (List.map_congr_left fun e hmem => ?_).trans (List.map_id _)
          rw [if_neg (by simpa using hothers e hmem)]
          rfl
        have hfilter : entries.filter (·.uri != uri) = entries := by
          rw [List.filter_eq_self]
          intro e hmem
          simpa using hothers e hmem
        rw [List.map_cons, hmap, List.filter_cons, hfilter, if_pos (by simpa using he),
          if_neg (by simpa using he)]
      · have hopen' : ∃ e ∈ entries, e.uri = uri := by
          obtain ⟨e, hmem, huri⟩ := hopen
          rcases List.mem_cons.mp hmem with rfl | hmem
          · exact absurd huri he
          · exact ⟨e, hmem, huri⟩
        rw [List.map_cons, List.filter_cons, if_neg (by simpa using he),
          if_pos (by simpa using he)]
        exact ((ih hrest hopen').cons first).trans (List.Perm.swap new first _)

/-- The entry that was not used for longest is the last in order. -/
theorem leastRecent?_eq_some {entries : List StoreEntry} {oldest : StoreEntry}
    (hmem : oldest ∈ entries)
    (hlater : ∀ e ∈ entries, e = oldest ∨ oldest.lastUsed < e.lastUsed) :
    leastRecent? entries = some oldest := by
  induction entries with
  | nil => cases hmem
  | cons first entries ih =>
      have hrest : ∀ e ∈ entries, e = oldest ∨ oldest.lastUsed < e.lastUsed :=
        fun e he => hlater e (List.mem_cons_of_mem _ he)
      rw [leastRecent?]
      by_cases hin : oldest ∈ entries
      · simp only [ih hin hrest]
        rcases hlater first List.mem_cons_self with rfl | hlt
        · rw [if_neg (Nat.lt_irrefl _)]
        · rw [if_pos hlt]
      · obtain rfl : oldest = first := (List.mem_cons.mp hmem).resolve_right hin
        split
        · rfl
        · next other hother =>
          have hne : other ≠ oldest := fun h => hin (h ▸ mem_of_leastRecent? hother)
          have hlt := (hrest other (mem_of_leastRecent? hother)).resolve_left hne
          rw [if_neg (by omega)]

namespace InOrder

variable {now : Nat} {s : Store} {order : List StoreEntry}

theorem distinct_entries (h : InOrder now s order) : (s.entries.map StoreEntry.uri).Nodup :=
  (h.perm.map StoreEntry.uri).nodup_iff.mp h.distinct

/-- The reference finds what the store finds. -/
theorem find?_recency (h : InOrder now s order) (uri : Uri) :
    (s.recency order).find? uri = (s.find? uri).map StoreEntry.document := by
  have hsame : order.find? (·.uri == uri) = s.find? uri := by
    cases hfound : s.find? uri with
    | none =>
        rw [List.find?_eq_none]
        intro e he
        exact List.find?_eq_none.mp hfound e (h.perm.subset he)
    | some e =>
        have huri : e.uri = uri := by simpa using List.find?_some hfound
        have hmem : e ∈ order := h.perm.symm.subset (List.mem_of_find?_eq_some hfound)
        rw [← huri]
        exact find?_eq_some_of_mem h.distinct hmem
  rw [Recency.find?, recency, lookup_map_held, hsame]

theorem isSome_find?_recency (h : InOrder now s order) (uri : Uri) :
    ((s.recency order).find? uri).isSome = s.contains uri := by
  rw [h.find?_recency, Option.isSome_map, Bool.eq_iff_iff, find?, contains, List.find?_isSome,
    List.any_eq_true]

theorem mono {later : Nat} (h : InOrder now s order) (hle : now ≤ later) :
    InOrder later s order :=
  { h with past := fun e he => Nat.lt_of_lt_of_le (h.past e he) hle }

/-- A use of a document puts it first in order. -/
theorem use (h : InOrder now s order) {s' : Store} {uri : Uri} {document : Document}
    (hperm : s'.entries.Perm (⟨uri, document, now⟩ :: order.filter (·.uri != uri))) :
    InOrder (now + 1) s' (⟨uri, document, now⟩ :: order.filter (·.uri != uri)) where
  perm := hperm.symm
  falling := by
    refine List.pairwise_cons.mpr ⟨fun e he => ?_, h.falling.filter _⟩
    exact h.past e (List.mem_filter.mp he).1
  distinct := by
    rw [List.map_cons, List.nodup_cons]
    refine ⟨?_, h.distinct.sublist (List.filter_sublist.map _)⟩
    intro hmem
    obtain ⟨e, he, huri⟩ := List.mem_map.mp hmem
    exact absurd huri (by simpa using (List.mem_filter.mp he).2)
  past := by
    intro e he
    rcases List.mem_cons.mp he with rfl | he
    · exact Nat.lt_succ_self _
    · exact Nat.lt_succ_of_lt (h.past e (List.mem_filter.mp he).1)

theorem recency_use (s : Store) (order : List StoreEntry) (e : StoreEntry) :
    s.recency (e :: order.filter (·.uri != e.uri)) =
      (s.recency order).use e.uri e.document := by
  simp only [recency, Recency.use, List.map_cons, StoreEntry.held, List.filter_map]
  rfl

/-- A document that is replaced comes first in order. -/
theorem replace (h : InOrder now s order) {uri : Uri} (hopen : s.contains uri = true)
    (document : Document) :
    InOrder (now + 1) (s.replace now uri document)
      (⟨uri, document, now⟩ :: order.filter (·.uri != uri)) := by
  refine h.use ((perm_replace h.distinct_entries (contains_eq_true_iff.mp hopen) _).trans ?_)
  exact (h.perm.symm.filter _).cons _

/-- A document is dropped without any change to the order of the others. -/
theorem remove (h : InOrder now s order) (uri : Uri) :
    InOrder now (s.remove uri).2 (order.filter (·.uri != uri)) where
  perm := h.perm.filter _
  falling := h.falling.filter _
  distinct := h.distinct.sublist (List.filter_sublist.map _)
  past := fun e he => h.past e (List.mem_filter.mp he).1

/-- The order is that of the entries, whatever else is different. -/
theorem of_entries {s' : Store} (h : InOrder now s order) (hentries : s'.entries = s.entries) :
    InOrder now s' order :=
  { h with perm := hentries ▸ h.perm }

/-- The document that has to go is the last in order. -/
theorem surplus?_eq_some {front : List StoreEntry} {oldest : StoreEntry}
    (h : InOrder now s (front ++ [oldest])) (hfull : s.capacity ≤ (front ++ [oldest]).length) :
    s.surplus? = some oldest := by
  rw [surplus?, size, ← h.perm.length_eq, if_pos hfull]
  refine leastRecent?_eq_some (h.perm.subset (by simp)) fun e he => ?_
  have hin : e ∈ front ++ [oldest] := h.perm.symm.subset he
  rcases List.mem_append.mp hin with hfront | hlast
  · exact .inr ((List.pairwise_append.mp h.falling).2.2 e hfront oldest (by simp))
  · exact .inl (List.mem_singleton.mp hlast)

/-- Room is made at the end of the order. -/
theorem makeRoom (h : InOrder now s order) :
    InOrder now s.makeRoom (if s.capacity ≤ order.length then order.dropLast else order) := by
  split
  · next hfull =>
    rcases List.eq_nil_or_concat order with rfl | ⟨front, oldest, rfl⟩
    · have hnone : s.surplus? = none := by
        rw [surplus?, List.perm_nil.mp h.perm.symm]
        split <;> rfl
      exact h.of_entries (entries_makeRoom_of_none hnone)
    · rw [List.concat_eq_append] at h hfull ⊢
      -- no other entry has the name of the last, so the filter drops the last alone
      have hfront : (front ++ [oldest]).filter (·.uri != oldest.uri) = front := by
        have hdistinct := h.distinct
        rw [List.map_append, List.nodup_append] at hdistinct
        rw [List.filter_append, List.filter_eq_self.mpr, List.filter_cons_of_neg (by simp)]
        · simp
        · intro e he
          simpa using hdistinct.2.2 e.uri (List.mem_map_of_mem he) oldest.uri (by simp)
      have hremoved := h.remove oldest.uri
      rw [hfront] at hremoved
      rw [List.dropLast_concat]
      exact hremoved.of_entries (entries_makeRoom_of_some (h.surplus?_eq_some hfull))
  · next hroom =>
    have hnone : s.surplus? = none := by
      rw [surplus?, size, ← h.perm.length_eq, if_neg hroom]
    exact h.of_entries (entries_makeRoom_of_none hnone)

theorem recency_makeRoom (s : Store) (order : List StoreEntry) :
    s.makeRoom.recency (if s.capacity ≤ order.length then order.dropLast else order) =
      (s.recency order).makeRoom := by
  have hkept : s.makeRoom.capacity = s.capacity ∧ s.makeRoom.maxSize = s.maxSize := by
    simp only [Store.makeRoom, evict]
    split
    · split <;> exact ⟨rfl, rfl⟩
    · exact ⟨rfl, rfl⟩
  simp only [recency, Recency.makeRoom, List.length_map, hkept]
  split <;> simp [List.map_dropLast]

/-! ## One operation -/

/-- That one operation does to the order what it does to the reference: the answers are the same,
and the entries can be put in an order that the reference then holds. -/
def Follows (now : Nat) (s : Store) (order : List StoreEntry) (operation : Operation) : Prop :=
  ∃ answer s' order', s.apply now operation = (answer, s') ∧
    (s.recency order).apply operation = (answer, s'.recency order') ∧ InOrder (now + 1) s' order'

theorem follows_openDocument (h : InOrder now s order) (uri : Uri) (document : Document) :
    Follows now s order (.openDocument uri document) := by
  have hfind := h.isSome_find?_recency uri
  have hsize : (s.recency order).maxSize = s.maxSize := rfl
  rcases Nat.lt_or_ge s.maxSize (textSize document.text) with hlarge | hfits
  · refine ⟨.verdict false, s, order, ?_, ?_, h.mono (Nat.le_succ now)⟩
    · rw [Store.apply, openDocument_of_large hlarge]
    · rw [Recency.apply, hsize, if_pos hlarge]
  cases hopen : s.contains uri with
  | true =>
      refine ⟨.verdict true, { s.replace now uri document with hits := s.hits + 1 },
        ⟨uri, document, now⟩ :: order.filter (·.uri != uri), ?_, ?_,
        (h.replace hopen document).of_entries rfl⟩
      · rw [Store.apply, openDocument_of_open hfits hopen]
      · rw [Recency.apply, hsize, if_neg (Nat.not_lt_of_ge hfits), hfind, if_pos hopen,
          ← recency_use s order ⟨uri, document, now⟩]
        rfl
  | false =>
      have hroom := h.makeRoom
      generalize horder : (if s.capacity ≤ order.length then order.dropLast else order) = kept
        at hroom
      -- the document is new, so there is none of its name to take out of the order
      have hnew : kept.filter (·.uri != uri) = kept := by
        refine List.filter_eq_self.mpr fun e he => ?_
        refine bne_iff_ne.mpr fun huri => Bool.false_ne_true ?_
        rw [← hopen]
        exact (contains_makeRoom.mp
          (contains_eq_true_iff.mpr ⟨e, hroom.perm.subset he, huri⟩)).1
      refine ⟨.verdict true, s.takeIn now uri document,
        ⟨uri, document, now⟩ :: kept.filter (·.uri != uri), ?_, ?_, hroom.use ?_⟩
      · rw [Store.apply, openDocument_of_new hfits hopen]
      · rw [Recency.apply, hsize, if_neg (Nat.not_lt_of_ge hfits), hfind, hopen,
          if_neg Bool.false_ne_true, ← recency_makeRoom, horder,
          ← recency_use _ kept ⟨uri, document, now⟩]
        rfl
      · rw [hnew]
        exact (List.perm_append_singleton _ _).trans (hroom.perm.symm.cons _)

/-- A document that is found is open. -/
theorem contains_of_find? {uri : Uri} {e : StoreEntry} (hfound : s.find? uri = some e) :
    s.contains uri = true :=
  contains_eq_true_iff.mpr
    ⟨e, List.mem_of_find?_eq_some hfound, by simpa using List.find?_some hfound⟩

theorem follows_change (h : InOrder now s order) (uri : Uri) (version : Int)
    (changes : List Change) : Follows now s order (.change uri version changes) := by
  have hfind := h.find?_recency uri
  cases hfound : s.find? uri with
  | none =>
      refine ⟨.verdict false, s, order, ?_, ?_, h.mono (Nat.le_succ now)⟩
      · rw [Store.apply, change, hfound]
      · rw [Recency.apply, hfind, hfound]
        rfl
  | some e =>
      have hsize : (s.recency order).maxSize = s.maxSize := rfl
      generalize htext : Change.applyAll changes e.document.text = text
      rcases Nat.lt_or_ge s.maxSize (textSize text) with hlarge | hfits
      · refine ⟨.verdict false, s, order, ?_, ?_, h.mono (Nat.le_succ now)⟩
        · simp only [Store.apply, change, hfound, htext, if_pos hlarge]
        · simp only [Recency.apply, hfind, hfound, Option.map_some, htext, hsize, if_pos hlarge]
      · refine ⟨.verdict true, _, _, ?_, ?_,
          h.replace (contains_of_find? hfound) { e.document with text, version }⟩
        · simp only [Store.apply, change, hfound, htext, if_neg (Nat.not_lt_of_ge hfits)]
        · simp only [Recency.apply, hfind, hfound, Option.map_some, htext, hsize,
            if_neg (Nat.not_lt_of_ge hfits)]
          rw [← recency_use s order ⟨uri, { e.document with text, version }, now⟩]
          rfl

theorem follows_get (h : InOrder now s order) (uri : Uri) : Follows now s order (.get uri) := by
  have hfind := h.find?_recency uri
  cases hfound : s.find? uri with
  | none =>
      refine ⟨.document none, s, order, ?_, ?_, h.mono (Nat.le_succ now)⟩
      · rw [Store.apply, get, hfound]
      · rw [Recency.apply, hfind, hfound]
        rfl
  | some e =>
      refine ⟨.document (some e.document), _, _, ?_, ?_,
        h.replace (contains_of_find? hfound) e.document⟩
      · rw [Store.apply, get, hfound]
      · simp only [Recency.apply, hfind, hfound, Option.map_some]
        rw [← recency_use s order ⟨uri, e.document, now⟩]
        rfl

theorem follows_remove (h : InOrder now s order) (uri : Uri) :
    Follows now s order (.remove uri) := by
  refine ⟨_, _, _, rfl, ?_, (h.remove uri).mono (Nat.le_succ now)⟩
  rw [Recency.apply, h.isSome_find?_recency]
  simp only [recency, List.filter_map, Store.remove]
  rfl

/-- **One operation does to the order what it does to the reference.** -/
theorem follows (h : InOrder now s order) (operation : Operation) :
    Follows now s order operation := by
  have hlater := h.mono (Nat.le_succ now)
  cases operation with
  | openDocument uri document => exact h.follows_openDocument uri document
  | change uri version changes => exact h.follows_change uri version changes
  | get uri => exact h.follows_get uri
  | contains uri =>
      exact ⟨_, s, order, rfl, by rw [Recency.apply, h.isSome_find?_recency], hlater⟩
  | remove uri => exact h.follows_remove uri
  | clear =>
      exact ⟨_, _, [], rfl, rfl, List.Perm.nil, List.Pairwise.nil, List.nodup_nil, by simp⟩
  | setCapacity capacity => exact ⟨_, _, order, rfl, rfl, hlater.of_entries rfl⟩
  | setMaxSize maxSize => exact ⟨_, _, order, rfl, rfl, hlater.of_entries rfl⟩

/-- A run does to the order what it does to the reference, if time never stands still. -/
theorem run (h : InOrder now s order) {operations : List (Nat × Operation)}
    (hclock : operations.Pairwise fun a b => a.1 < b.1) (hstart : ∀ o ∈ operations, now ≤ o.1) :
    ∃ later order', InOrder later (s.run operations).2 order' ∧
      (s.recency order).run (operations.map Prod.snd) =
        ((s.run operations).1, (s.run operations).2.recency order') := by
  induction operations generalizing now s order with
  | nil => exact ⟨now, order, h, rfl⟩
  | cons first rest ih =>
      obtain ⟨time, operation⟩ := first
      obtain ⟨hfirst, hrest⟩ := List.pairwise_cons.mp hclock
      have htime : now ≤ time := hstart (time, operation) List.mem_cons_self
      obtain ⟨answer, s', order', hstore, hreference, hnext⟩ := (h.mono htime).follows operation
      obtain ⟨later, order'', hlast, hanswers⟩ := ih hnext hrest fun o ho => hfirst o ho
      refine ⟨later, order'', ?_, ?_⟩
      · simpa only [Store.run, hstore] using hlast
      · simp only [List.map_cons, Recency.run, Store.run, hreference, hstore, hanswers]

end InOrder

/-- **The store is an exact least-recently-used store.** Whatever is asked of a new store, as long as
time goes on from each operation to the next, the answers are those of the reference, and the open
documents are those the reference holds, each under a name of its own. -/
theorem run_eq_recency (capacity maxSize : Nat) (operations : List (Nat × Operation))
    (hclock : operations.Pairwise fun a b => a.1 < b.1) :
    let store := run { capacity, maxSize } operations
    let reference := Recency.run { capacity, maxSize } (operations.map Prod.snd)
    store.1 = reference.1 ∧
    (store.2.entries.map StoreEntry.held).Perm reference.2.documents ∧
    (reference.2.documents.map Prod.fst).Nodup := by
  intro store reference
  have hempty : InOrder 0 { capacity, maxSize } [] :=
    ⟨List.Perm.nil, List.Pairwise.nil, List.nodup_nil, by simp⟩
  obtain ⟨later, order, horder, hrun⟩ := hempty.run hclock fun o _ => Nat.zero_le o.1
  have hreference : reference = (store.1, store.2.recency order) := hrun
  rw [hreference]
  refine ⟨rfl, (horder.perm.symm.map _), ?_⟩
  simpa [recency, StoreEntry.held, Function.comp_def] using horder.distinct

/-- Three documents in a store for two, then one more in a store that holds two and is for one. In
between, the older of the two is used. -/
def crowded : List (Nat × Operation) :=
  [(1, .openDocument ⟨"file:///a"⟩ ⟨"p", "html", 1⟩),
   (2, .openDocument ⟨"file:///b"⟩ ⟨"m", "css", 1⟩),
   (3, .get ⟨"file:///a"⟩),
   (5, .contains ⟨"file:///b"⟩),
   (8, .openDocument ⟨"file:///c"⟩ ⟨"", "html", 1⟩),
   (9, .get ⟨"file:///b"⟩),
   (10, .setCapacity 1),
   (11, .change ⟨"file:///a"⟩ 2 [{ text := "ul" }]),
   (12, .change ⟨"file:///c"⟩ 2 [{ text := "ul>li" }]),
   (13, .openDocument ⟨"file:///d"⟩ ⟨"", "html", 1⟩)]

theorem run_eq_recency_crowded :
    crowded.Pairwise (fun a b => a.1 < b.1) ∧
    (run { capacity := 2, maxSize := 4 } crowded).1 =
      [.verdict true, .verdict true, .document (some ⟨"p", "html", 1⟩), .verdict true,
       .verdict true, .document none, .nothing, .verdict true, .verdict false, .verdict true] ∧
    ((run { capacity := 2, maxSize := 4 } crowded).2.entries.map StoreEntry.held).Perm
      [(⟨"file:///d"⟩, ⟨"", "html", 1⟩), (⟨"file:///a"⟩, ⟨"ul", "html", 2⟩)] := by
  have hclock : crowded.Pairwise fun a b => a.1 < b.1 := by decide
  obtain ⟨hanswers, hdocuments, -⟩ := run_eq_recency 2 4 crowded hclock
  have hreference : Recency.run { capacity := 2, maxSize := 4 } (crowded.map Prod.snd) =
      ([.verdict true, .verdict true, .document (some ⟨"p", "html", 1⟩), .verdict true,
        .verdict true, .document none, .nothing, .verdict true, .verdict false, .verdict true],
       { documents :=
          [(⟨"file:///d"⟩, ⟨"", "html", 1⟩), (⟨"file:///a"⟩, ⟨"ul", "html", 2⟩)]
         capacity := 1
         maxSize := 4 }) := by decide +kernel
  rw [hreference] at hanswers hdocuments
  exact ⟨hclock, hanswers, hdocuments⟩

end Store

end Shorthand.Editor
