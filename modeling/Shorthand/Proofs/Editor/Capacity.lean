import Mathlib.Data.List.Induction
import Mathlib.Data.List.Nodup
import Shorthand.Proofs.Editor.StoreRuns

/-!
# Capacity — how many documents a store holds

A store makes room for one document when one is opened and it is full. That keeps it within its
capacity (`size_openDocument_le_iff`), but it does not bring it back there: if the capacity is set to
less than the number of open documents, the store stays above it however many documents are opened,
until enough of them are closed (`size_exceeds_lowered_capacity`). `size_le_capacity_along_iff` says
that there is no other way to exceed the capacity, and that a store never holds more documents than
some capacity it has had allows.
-/

namespace Shorthand.Editor.Store

/-! ## The number of documents -/

/-- Whether no two open documents have the same name. -/
def Distinct (s : Store) : Prop := (s.entries.map StoreEntry.uri).Nodup

theorem map_uri_replace (now : Nat) (uri : Uri) (document : Document) (s : Store) :
    (s.replace now uri document).entries.map StoreEntry.uri = s.entries.map StoreEntry.uri := by
  rw [replace, List.map_map]
  refine List.map_congr_left fun e _ => ?_
  by_cases he : e.uri = uri
  · simp [he]
  · simp [he]

@[simp] theorem size_replace (now : Nat) (uri : Uri) (document : Document) (s : Store) :
    (s.replace now uri document).size = s.size := by
  simp [size, replace]

theorem map_uri_filter (uri : Uri) (entries : List StoreEntry) :
    (entries.filter (·.uri != uri)).map StoreEntry.uri =
      (entries.map StoreEntry.uri).filter (· != uri) := by
  rw [List.filter_map]
  rfl

/-- Taking away what is called `uri` takes one document away, if it is open. -/
theorem length_filter_uri {s : Store} (h : s.Distinct) {uri : Uri} (hopen : s.contains uri = true) :
    (s.entries.filter (·.uri != uri)).length = s.size - 1 := by
  obtain ⟨e, he, rfl⟩ := contains_eq_true_iff.mp hopen
  have hmem : e.uri ∈ s.entries.map StoreEntry.uri := List.mem_map_of_mem he
  rw [← List.length_map StoreEntry.uri, map_uri_filter, ← h.erase_eq_filter,
    List.length_erase_of_mem hmem, List.length_map, size]

/-- Making room takes one document away, if there is any and there has to be room. -/
theorem size_makeRoom {s : Store} (h : s.Distinct) :
    s.makeRoom.size = if s.capacity ≤ s.size then s.size - 1 else s.size := by
  cases hgone : s.surplus? with
  | none =>
      rw [size, entries_makeRoom_of_none hgone]
      split
      · next hfull =>
        rw [surplus?, if_pos hfull] at hgone
        have hnil : s.entries = [] := by
          cases hentries : s.entries with
          | nil => rfl
          | cons e rest =>
              rw [hentries, leastRecent?] at hgone
              split at hgone
              · cases hgone
              · split at hgone <;> cases hgone
        simp [size, hnil]
      · rfl
  | some oldest =>
      have hopen : s.contains oldest.uri = true :=
        contains_eq_true_iff.mpr ⟨oldest, mem_of_surplus? hgone, rfl⟩
      have hfull : s.capacity ≤ s.size := by
        rw [surplus?] at hgone
        split at hgone
        · assumption
        · cases hgone
      rw [if_pos hfull, size, entries_makeRoom_of_some hgone, length_filter_uri h hopen]

@[simp] theorem capacity_makeRoom (s : Store) : s.makeRoom.capacity = s.capacity := by
  simp only [makeRoom, evict]
  split
  · split <;> rfl
  · rfl

theorem size_takeIn (now : Nat) (uri : Uri) (document : Document) (s : Store) :
    (s.takeIn now uri document).size = s.makeRoom.size + 1 := by
  simp [size, takeIn]

@[simp] theorem capacity_takeIn (now : Nat) (uri : Uri) (document : Document) (s : Store) :
    (s.takeIn now uri document).capacity = s.capacity :=
  capacity_makeRoom s

/-- What opening a document comes to: nothing, a document in the place of another, or one more. -/
theorem openDocument_cases (now : Nat) (uri : Uri) (document : Document) (s : Store) :
    s.openDocument now uri document = (false, s) ∨
    (s.openDocument now uri document =
      (true, { s.replace now uri document with hits := s.hits + 1 })) ∨
    (s.contains uri = false ∧
      s.openDocument now uri document = (true, s.takeIn now uri document)) := by
  rcases Nat.lt_or_ge s.maxSize (textSize document.text) with hlarge | hfits
  · exact .inl (openDocument_of_large hlarge now uri)
  · cases hopen : s.contains uri with
    | true => exact .inr (.inl (openDocument_of_open hfits hopen now))
    | false => exact .inr (.inr ⟨rfl, openDocument_of_new hfits hopen now⟩)

theorem capacity_openDocument (now : Nat) (uri : Uri) (document : Document) (s : Store) :
    (s.openDocument now uri document).2.capacity = s.capacity := by
  rcases openDocument_cases now uri document s with h | h | ⟨_, h⟩
  · rw [h]
  · rw [h]
    rfl
  · rw [h, capacity_takeIn]

/-- Opening a document leaves as many as there were, or one more if there was room for it. -/
theorem size_openDocument {s : Store} (hdistinct : s.Distinct) (hpos : 0 < s.capacity) (now : Nat)
    (uri : Uri) (document : Document) :
    (s.openDocument now uri document).2.size = s.size ∨
      s.size < s.capacity ∧ (s.openDocument now uri document).2.size = s.size + 1 := by
  rcases openDocument_cases now uri document s with h | h | ⟨_, h⟩
  · exact .inl (by rw [h])
  · exact .inl (by rw [h]; exact size_replace now uri document s)
  · rw [h, size_takeIn, size_makeRoom hdistinct]
    split
    · next hfull => exact .inl (by omega)
    · next hroom => exact .inr ⟨by omega, rfl⟩

/-- **Opening a document neither breaks the bound nor mends it.** -/
theorem size_openDocument_le_iff {s : Store} (hdistinct : s.Distinct) (hpos : 0 < s.capacity)
    (now : Nat) (uri : Uri) (document : Document) :
    (s.openDocument now uri document).2.size ≤ (s.openDocument now uri document).2.capacity ↔
      s.size ≤ s.capacity := by
  rw [capacity_openDocument]
  rcases size_openDocument hdistinct hpos now uri document with h | ⟨hroom, h⟩
  · rw [h]
  · omega

/-! ## One operation -/

theorem Distinct.of_map_uri {s s' : Store} (h : s.Distinct)
    (hsame : s'.entries.map StoreEntry.uri = s.entries.map StoreEntry.uri) : s'.Distinct := by
  rw [Distinct, hsame]
  exact h

theorem Distinct.makeRoom {s : Store} (h : s.Distinct) : s.makeRoom.Distinct := by
  cases hgone : s.surplus? with
  | none => exact h.of_map_uri (by rw [entries_makeRoom_of_none hgone])
  | some oldest =>
      rw [Distinct, entries_makeRoom_of_some hgone, map_uri_filter]
      exact List.Nodup.filter _ h

theorem Distinct.takeIn {s : Store} (h : s.Distinct) {uri : Uri} (hnew : s.contains uri = false)
    (now : Nat) (document : Document) : (s.takeIn now uri document).Distinct := by
  have hnot : uri ∉ s.makeRoom.entries.map StoreEntry.uri := by
    intro hmem
    obtain ⟨e, he, huri⟩ := List.mem_map.mp hmem
    have hopen := (contains_makeRoom.mp (contains_eq_true_iff.mpr ⟨e, he, huri⟩)).1
    rw [hnew] at hopen
    cases hopen
  rw [Distinct, Store.takeIn, List.map_append]
  exact List.Nodup.append h.makeRoom (List.nodup_singleton uri) (by simpa using hnot)

theorem Distinct.openDocument {s : Store} (h : s.Distinct) (now : Nat) (uri : Uri)
    (document : Document) : (s.openDocument now uri document).2.Distinct := by
  rcases openDocument_cases now uri document s with hopened | hopened | ⟨hnew, hopened⟩
  · rwa [hopened]
  · rw [hopened]
    exact h.of_map_uri (map_uri_replace now uri document s)
  · rw [hopened]
    exact h.takeIn hnew now document

/-- Everything but opening and closing leaves the names of the open documents as they are. -/
theorem map_uri_change (now : Nat) (uri : Uri) (version : Int) (changes : List Change) (s : Store) :
    (s.change now uri version changes).2.entries.map StoreEntry.uri =
      s.entries.map StoreEntry.uri := by
  simp only [change]
  split
  · rfl
  · split
    · rfl
    · exact map_uri_replace now uri _ s

theorem map_uri_get (now : Nat) (uri : Uri) (s : Store) :
    (s.get now uri).2.entries.map StoreEntry.uri = s.entries.map StoreEntry.uri := by
  simp only [get]
  split
  · rfl
  · exact map_uri_replace now uri _ s

theorem Distinct.apply {s : Store} (h : s.Distinct) (now : Nat) (operation : Operation) :
    (s.apply now operation).2.Distinct := by
  cases operation with
  | openDocument uri document => exact h.openDocument now uri document
  | change uri version changes => exact h.of_map_uri (map_uri_change now uri version changes s)
  | get uri => exact h.of_map_uri (map_uri_get now uri s)
  | contains uri | setCapacity capacity | setMaxSize maxSize => exact h
  | remove uri =>
      rw [Distinct, Store.apply, remove, map_uri_filter]
      exact List.Nodup.filter _ h
  | clear => exact List.nodup_nil

/-- The capacity after an operation: the one it sets, or else the one there was. -/
def Operation.capacity (before : Nat) : Operation → Nat
  | .setCapacity capacity => capacity
  | _ => before

theorem capacity_apply (now : Nat) (operation : Operation) (s : Store) :
    (s.apply now operation).2.capacity = operation.capacity s.capacity := by
  cases operation with
  | openDocument uri document => exact capacity_openDocument now uri document s
  | change uri version changes =>
      simp only [Store.apply, change, Operation.capacity]
      split
      · rfl
      · split <;> rfl
  | get uri =>
      simp only [Store.apply, get, Operation.capacity]
      split <;> rfl
  | contains uri | setCapacity capacity | setMaxSize maxSize | remove uri | clear => rfl

/-- Only opening a document can make them more, and only if there is room. -/
theorem size_apply_le {s : Store} (hdistinct : s.Distinct) (hpos : 0 < s.capacity) (now : Nat)
    (operation : Operation) :
    (s.apply now operation).2.size ≤ s.size ∨
      s.size < s.capacity ∧ (s.apply now operation).2.size = s.size + 1 := by
  have hlength : ∀ s' : Store, s'.entries.map StoreEntry.uri = s.entries.map StoreEntry.uri →
      s'.size ≤ s.size := by
    intro s' hsame
    have hsize : s'.size = s.size := by simpa [size] using congrArg List.length hsame
    exact Nat.le_of_eq hsize
  cases operation with
  | openDocument uri document =>
      exact (size_openDocument hdistinct hpos now uri document).imp_left Nat.le_of_eq
  | change uri version changes => exact .inl (hlength _ (map_uri_change now uri version changes s))
  | get uri => exact .inl (hlength _ (map_uri_get now uri s))
  | contains uri | setCapacity capacity | setMaxSize maxSize => exact .inl (Nat.le_refl _)
  | remove uri => exact .inl (List.length_filter_le _ _)
  | clear => exact .inl (Nat.zero_le _)

/-! ## Whole runs -/

@[simp] theorem run_concat (s : Store) (operations : List (Nat × Operation)) (now : Nat)
    (operation : Operation) :
    (s.run (operations ++ [(now, operation)])).2 = ((s.run operations).2.apply now operation).2 := by
  induction operations generalizing s with
  | nil => rfl
  | cons first rest ih =>
      obtain ⟨time, earlier⟩ := first
      exact ih (s.apply time earlier).2

/-- Whether a store that was made for `initial` documents has had the capacity `c`. -/
def HasHad (initial : Nat) (operations : List (Nat × Operation)) (c : Nat) : Prop :=
  c = initial ∨ ∃ now, (now, .setCapacity c) ∈ operations

theorem HasHad.mono {initial c : Nat} {seen operations : List (Nat × Operation)}
    (h : HasHad initial seen c) (hseen : seen <+: operations) : HasHad initial operations c := by
  rcases h with rfl | ⟨now, hmem⟩
  · exact .inl rfl
  · exact .inr ⟨now, hseen.subset hmem⟩

/-- What holds of a store all along a run: names are distinct, and both the capacity that it has and
one that it is within are among those it has had. -/
structure Bounded (initial : Nat) (seen : List (Nat × Operation)) (s : Store) : Prop where
  distinct : s.Distinct
  had : HasHad initial seen s.capacity
  within : ∃ c, HasHad initial seen c ∧ s.size ≤ c

theorem Bounded.apply {initial : Nat} {seen : List (Nat × Operation)} {s : Store}
    (h : s.Bounded initial seen) (hpos : 0 < s.capacity) (now : Nat) (operation : Operation) :
    (s.apply now operation).2.Bounded initial (seen ++ [(now, operation)]) where
  distinct := h.distinct.apply now operation
  had := by
    rw [capacity_apply]
    cases operation with
    | setCapacity capacity => exact .inr ⟨now, by simp [Operation.capacity]⟩
    | openDocument | change | get | contains | remove | clear | setMaxSize =>
        exact h.had.mono (List.prefix_append _ _)
  within := by
    rcases size_apply_le h.distinct hpos now operation with hle | ⟨hroom, hsize⟩
    · obtain ⟨c, hhad, hwithin⟩ := h.within
      exact ⟨c, hhad.mono (List.prefix_append _ _), Nat.le_trans hle hwithin⟩
    · exact ⟨s.capacity, h.had.mono (List.prefix_append _ _), by omega⟩

theorem bounded_run {initial maxSize : Nat} {operations : List (Nat × Operation)}
    (hpos : ∀ c, HasHad initial operations c → 0 < c) :
    (run { capacity := initial, maxSize } operations).2.Bounded initial operations := by
  induction operations using List.reverseRecOn with
  | nil => exact ⟨List.nodup_nil, .inl rfl, initial, .inl rfl, Nat.zero_le _⟩
  | append_singleton seen last ih =>
      obtain ⟨now, operation⟩ := last
      have hbefore := ih fun c hhad => hpos c (hhad.mono (List.prefix_append _ _))
      rw [run_concat]
      exact hbefore.apply (hpos _ (hbefore.had.mono (List.prefix_append _ _))) now operation

/-- One operation keeps the bound, unless it sets the capacity to less than there are documents. -/
theorem size_le_capacity_apply_iff {s : Store} (hdistinct : s.Distinct) (hpos : 0 < s.capacity)
    (hwithin : s.size ≤ s.capacity) (now : Nat) (operation : Operation) :
    (s.apply now operation).2.size ≤ (s.apply now operation).2.capacity ↔
      ∀ c, operation = .setCapacity c → s.size ≤ c := by
  cases operation with
  | setCapacity c =>
      have hset : (s.apply now (.setCapacity c)).2.size = s.size := rfl
      rw [hset, capacity_apply]
      simp [Operation.capacity]
  | openDocument | change | get | contains | remove | clear | setMaxSize =>
      refine iff_of_true ?_ (by simp)
      rcases size_apply_le hdistinct hpos now _ with hle | ⟨hroom, hsize⟩
      · rw [capacity_apply]
        exact Nat.le_trans hle hwithin
      · rw [capacity_apply, hsize]
        exact hroom

/-- **How a store comes to hold more documents than its capacity.** Opening a document leaves a store
within its capacity exactly if it was within it before. A store is within its capacity at all times
exactly if the capacity is never set to less than the number of open documents. In any case it holds
no more documents than some capacity that it has had. -/
theorem size_le_capacity_along_iff (initial maxSize : Nat) (operations : List (Nat × Operation))
    (hpos : ∀ c, HasHad initial operations c → 0 < c) :
    let after := fun seen => (run { capacity := initial, maxSize } seen).2
    (∀ seen now uri document, seen ++ [(now, .openDocument uri document)] <+: operations →
      let opened := after (seen ++ [(now, .openDocument uri document)])
      (opened.size ≤ opened.capacity ↔ (after seen).size ≤ (after seen).capacity)) ∧
    ((∀ seen, seen <+: operations → (after seen).size ≤ (after seen).capacity) ↔
      ∀ seen now c, seen ++ [(now, .setCapacity c)] <+: operations → (after seen).size ≤ c) ∧
    ∀ seen, seen <+: operations → ∃ c, HasHad initial seen c ∧ (after seen).size ≤ c := by
  intro after
  have hbounded : ∀ seen, seen <+: operations → (after seen).Bounded initial seen := by
    intro seen hseen
    exact bounded_run fun c hhad => hpos c (hhad.mono hseen)
  have hpositive : ∀ seen, seen <+: operations → 0 < (after seen).capacity := by
    intro seen hseen
    exact hpos _ ((hbounded seen hseen).had.mono hseen)
  have hlast : ∀ seen now operation,
      after (seen ++ [(now, operation)]) = ((after seen).apply now operation).2 := by
    intro seen now operation
    exact run_concat _ seen now operation
  refine ⟨?_, ⟨?_, ?_⟩, fun seen hseen => (hbounded seen hseen).within⟩
  · intro seen now uri document hseen
    have hbefore := (List.prefix_append seen _).trans hseen
    simp only [hlast]
    exact size_openDocument_le_iff (hbounded seen hbefore).distinct (hpositive seen hbefore) now uri
      document
  · intro hwithin seen now c hseen
    have hafter := hwithin _ hseen
    rw [hlast] at hafter
    exact hafter
  · intro hset seen hseen
    -- By induction on what has been asked so far: the last operation has kept the bound.
    induction seen using List.reverseRecOn with
    | nil => exact Nat.zero_le _
    | append_singleton seen last ih =>
        obtain ⟨now, operation⟩ := last
        have hbefore := (List.prefix_append seen _).trans hseen
        rw [hlast, size_le_capacity_apply_iff (hbounded seen hbefore).distinct
          (hpositive seen hbefore) (ih hbefore)]
        rintro c rfl
        exact hset seen now c hseen

/-- Two documents in a store for two, which is then for one, and one document more. -/
def lowered : List (Nat × Operation) :=
  [(1, .openDocument ⟨"file:///a"⟩ ⟨"p", "html", 1⟩),
   (2, .openDocument ⟨"file:///b"⟩ ⟨"p", "html", 1⟩),
   (3, .setCapacity 1),
   (4, .openDocument ⟨"file:///c"⟩ ⟨"p", "html", 1⟩)]

theorem size_le_capacity_along_iff_lowered :
    (∀ c, HasHad 2 lowered c → 0 < c) ∧
    ¬ (∀ seen, seen <+: lowered →
      (run { capacity := 2, maxSize := 100 } seen).2.size ≤
        (run { capacity := 2, maxSize := 100 } seen).2.capacity) := by
  have hpos : ∀ c, HasHad 2 lowered c → 0 < c := by
    rintro c (rfl | ⟨now, hmem⟩)
    · decide
    · obtain ⟨_, rfl⟩ : now = 3 ∧ c = 1 := by simpa [lowered] using hmem
      decide
  refine ⟨hpos, ?_⟩
  rw [(size_le_capacity_along_iff 2 100 lowered hpos).2.1]
  intro hset
  exact absurd (hset (lowered.take 2) 3 1 (by decide)) (by decide +kernel)

/-- A document is opened, accepted, and one of the two that were open before is dropped for it; that
leaves two, and there may be one. -/
theorem size_exceeds_lowered_capacity :
    let outcome := run { capacity := 2, maxSize := 100 } lowered
    outcome.1.getLast? = some (.verdict true) ∧ outcome.2.capacity < outcome.2.size := by
  decide +kernel

end Shorthand.Editor.Store
