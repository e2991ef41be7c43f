import Shorthand.Proofs.Editor.FetchCells

/-!
# FetchRuns — a settings cache and its log, whatever is done

`Sound` says that the log is orderly, that every cell has to do with it what it should
(`CellSound`), and that the entries name cells of their documents. Every action keeps that
(`Sound.step`), so it holds after any number of actions (`sound_watch`).
-/

namespace Shorthand.Editor.SettingsCache

/-- Whether the cell `n` is one of the document. -/
def IsCellOf (c : SettingsCache) (uri : Uri) (n : Nat) : Prop :=
  ∃ state, c.cells[n]? = some ⟨uri, state⟩

theorem IsCellOf.unique {c : SettingsCache} {uri other : Uri} {n : Nat} (h : c.IsCellOf uri n)
    (hother : c.IsCellOf other n) : uri = other := by
  obtain ⟨state, hcell⟩ := h
  obtain ⟨state', hcell'⟩ := hother
  rw [hcell] at hcell'
  cases hcell'
  rfl

/-- What the cells and the entries of a cache have to do with the log. -/
structure Sound (w : Watched) : Prop where
  orderly : Orderly w.log
  numbered : ∀ note ∈ w.log, note.lookup < w.cache.lookups
  obtained : ∀ l uri n, .asked l uri (some n) ∈ w.log → w.cache.IsCellOf uri n
  entered : ∀ uri n, w.cache.entries.lookup uri = some n → w.cache.IsCellOf uri n
  cells : ∀ n cell, w.cache.cells[n]? = some cell → CellSound w.log n cell.state

namespace Sound

variable {log notes : List Note} {c : SettingsCache}

/-- A lookup has got a cell that there is. -/
theorem cell_of_joined {w : Watched} (h : Sound w) {l n : Nat} (hl : Joined w.log l n) :
    ∃ cell, w.cache.cells[n]? = some cell ∧ CellSound w.log n cell.state := by
  obtain ⟨uri, hasked⟩ := hl
  obtain ⟨state, hcell⟩ := h.obtained l uri n hasked
  exact ⟨_, hcell, h.cells n _ hcell⟩

/-- Nobody has got the next cell yet. -/
theorem not_joined_next {w : Watched} (h : Sound w) (l : Nat) :
    ¬ Joined w.log l w.cache.cells.length := by
  intro hl
  obtain ⟨cell, hcell, _⟩ := h.cell_of_joined hl
  exact Nat.lt_irrefl _ (List.getElem?_eq_some_iff.mp hcell).1

/-- Entries may go, and fetching may be supported or not: no lookup at a cell notices. -/
theorem weaken {w : Watched} (h : Sound w) {c : SettingsCache}
    (hlookups : c.lookups = w.cache.lookups) (hcells : c.cells = w.cache.cells)
    (hentries : ∀ uri n, c.entries.lookup uri = some n → w.cache.entries.lookup uri = some n) :
    Sound { w with cache := c } where
  orderly := h.orderly
  numbered := by simpa only [hlookups] using h.numbered
  obtained := by simpa only [IsCellOf, hcells] using h.obtained
  entered := by
    intro uri n hentry
    rw [IsCellOf, hcells]
    exact h.entered uri n (hentries uri n hentry)
  cells := by simpa only [hcells] using h.cells

/-- Notes on lookups at one cell, and another state for that cell. -/
theorem update (h : Sound ⟨log, c⟩) {n : Nat} {uri : Uri} {state state' : CellState}
    (hcell : c.cells[n]? = some ⟨uri, state⟩) {lookups : Nat} (hlookups : c.lookups ≤ lookups)
    (horderly : Orderly (log ++ notes)) (hnumbered : ∀ note ∈ notes, note.lookup < lookups)
    (hjoined : ∀ note ∈ notes, Joined (log ++ notes) note.lookup n)
    (hasked : ∀ l other m, .asked l other (some m) ∈ notes → other = uri ∧ m = n)
    (hsound : CellSound (log ++ notes) n state') :
    Sound ⟨log ++ notes, { c with lookups, cells := c.cells.set n ⟨uri, state'⟩ }⟩ := by
  have hlt : n < c.cells.length := (List.getElem?_eq_some_iff.mp hcell).1
  have hget : ∀ m, (c.cells.set n ⟨uri, state'⟩)[m]? =
      if m = n then some ⟨uri, state'⟩ else c.cells[m]? := by
    intro m
    rw [List.getElem?_set]
    by_cases hm : m = n
    · simp [hm, hlt]
    · simp [hm, Ne.symm hm]
  -- another state, but the same document
  have hkept : ∀ m other, c.IsCellOf other m →
      IsCellOf { c with lookups, cells := c.cells.set n ⟨uri, state'⟩ } other m := by
    rintro m other ⟨old, hold⟩
    rw [IsCellOf, hget]
    split
    · next hm =>
      subst hm
      rw [hcell] at hold
      cases hold
      exact ⟨state', rfl⟩
    · exact ⟨old, hold⟩
  constructor
  · exact horderly
  · intro note hmem
    rcases List.mem_append.mp hmem with hmem | hmem
    · exact Nat.lt_of_lt_of_le (h.numbered note hmem) hlookups
    · exact hnumbered note hmem
  · intro l other m hmem
    rcases List.mem_append.mp hmem with hmem | hmem
    · exact hkept m other (h.obtained l other m hmem)
    · obtain ⟨rfl, rfl⟩ := hasked l other m hmem
      exact hkept m other ⟨state, hcell⟩
  · intro other m hentry
    exact hkept m other (h.entered other m hentry)
  · intro m cell hm
    rw [hget] at hm
    split at hm
    · next heq =>
      cases hm
      exact heq ▸ hsound
    · next hne =>
      refine (h.cells m cell hm).append fun note hmem => ?_
      -- the notes are on lookups of the cell `n`, and no lookup has two cells
      rintro ⟨other, hother⟩
      obtain ⟨_, hn⟩ := hjoined note hmem
      exact hne (Option.some.inj (horderly.asked_once hother hn).2)

/-- The next lookup is not in the log yet. -/
theorem fresh {w : Watched} (h : Sound w) : ∀ note ∈ w.log, note.lookup ≠ w.cache.lookups :=
  fun note hmem => Nat.ne_of_lt (h.numbered note hmem)

end Sound

/-! ## One action -/

/-- The cache with a new cell for a document. -/
def addCell (uri : Uri) (c : SettingsCache) : SettingsCache :=
  { c with
    entries := c.entries ++ [(uri, c.cells.length)]
    cells := c.cells ++ [⟨uri, .pending []⟩] }

theorem lookup_entries_addCell (uri other : Uri) (c : SettingsCache) :
    (c.addCell uri).entries.lookup other =
      (c.entries.lookup other).or (if other = uri then some c.cells.length else none) := by
  rw [addCell, List.lookup_append, List.lookup_cons]
  by_cases hother : other = uri
  · simp [hother]
  · simp [hother, beq_false_of_ne hother]

theorem getElem?_cells_addCell (uri : Uri) (n : Nat) (c : SettingsCache) :
    (c.addCell uri).cells[n]? =
      if n = c.cells.length then some ⟨uri, .pending []⟩ else c.cells[n]? := by
  rw [addCell, List.getElem?_append]
  rcases Nat.lt_trichotomy n c.cells.length with hlt | rfl | hgt
  · simp [hlt, Nat.ne_of_lt hlt]
  · simp
  · simp [Nat.not_lt_of_gt hgt, Nat.ne_of_gt hgt, Nat.sub_ne_zero_of_lt hgt]

namespace Sound

variable {log notes : List Note} {c : SettingsCache} {n : Nat} {uri : Uri}

theorem orderly_ask {w : Watched} (h : Sound w) (uri : Uri) (cell : Option Nat) :
    Orderly (w.log ++ [.asked w.cache.lookups uri cell]) :=
  h.orderly.concat h.fresh

theorem not_answered_ask {w : Watched} (h : Sound w) (uri : Uri) (cell : Option Nat) :
    ¬ Answered (w.log ++ [.asked w.cache.lookups uri cell]) w.cache.lookups := by
  rintro ⟨held, hmem⟩
  exact h.fresh _ (by simpa using hmem : .answered w.cache.lookups held ∈ w.log) rfl

/-- A lookup that is not supported gets no cell and the default. -/
theorem refuse {w : Watched} (h : Sound w) (uri : Uri) :
    Sound ⟨w.log ++ [.asked w.cache.lookups uri none, .answered w.cache.lookups .default],
      { w.cache with lookups := w.cache.lookups + 1 }⟩ := by
  have hnot : ∀ n, ¬ Joined (w.log ++ [.asked w.cache.lookups uri none,
      .answered w.cache.lookups .default]) w.cache.lookups n := by
    rintro n ⟨other, hmem⟩
    exact h.fresh _ (by simpa using hmem : .asked w.cache.lookups other (some n) ∈ w.log) rfl
  constructor
  · rw [List.append_cons]
    refine (h.orderly_ask uri none).concat ⟨h.not_answered_ask uri none, uri, none, ?_, rfl⟩
    exact List.mem_append_right _ List.mem_cons_self
  · intro note hmem
    rcases List.mem_append.mp hmem with hmem | hmem
    · exact Nat.lt_succ_of_lt (h.numbered note hmem)
    · have hown : note.lookup = w.cache.lookups := by
        rcases List.mem_pair.mp hmem with rfl | rfl <;> rfl
      exact hown ▸ Nat.lt_succ_self _
  · intro l other n hmem
    exact h.obtained l other n (by simpa using hmem)
  · exact h.entered
  · intro n cell hcell
    refine (h.cells n cell hcell).append fun note hmem => ?_
    rcases List.mem_pair.mp hmem with rfl | rfl <;> exact hnot n

/-- A document gets a new cell. -/
theorem addCell {w : Watched} (h : Sound w) (uri : Uri) :
    Sound { w with cache := w.cache.addCell uri } := by
  have hkept : ∀ other n, w.cache.IsCellOf other n → (w.cache.addCell uri).IsCellOf other n := by
    rintro other n ⟨state, hcell⟩
    have hlt : n < w.cache.cells.length := (List.getElem?_eq_some_iff.mp hcell).1
    exact ⟨state, by rw [getElem?_cells_addCell, if_neg (Nat.ne_of_lt hlt), hcell]⟩
  constructor
  · exact h.orderly
  · exact h.numbered
  · intro l other n hmem
    exact hkept other n (h.obtained l other n hmem)
  · intro other n hentry
    rw [lookup_entries_addCell] at hentry
    rcases Option.or_eq_some_iff.mp hentry with hold | ⟨_, hnew⟩
    · exact hkept other n (h.entered other n hold)
    · split at hnew
      · next heq =>
        cases hnew
        exact ⟨.pending [], by rw [getElem?_cells_addCell, if_pos rfl, heq]⟩
      · cases hnew
  · intro n cell hcell
    rw [getElem?_cells_addCell] at hcell
    split at hcell
    · next heq =>
      cases hcell
      exact heq ▸ CellSound.empty h.not_joined_next
    · exact h.cells n cell hcell

/-- A lookup gets a cell, and what follows for it at once is noted with it. -/
theorem ask (h : Sound ⟨log, c⟩) {state : CellState} (hcell : c.cells[n]? = some ⟨uri, state⟩)
    (notes : List Note) (state' : CellState) (hown : ∀ note ∈ notes, note.lookup = c.lookups)
    (hasked : ∀ l other cell, .asked l other cell ∉ notes)
    (horderly : Orderly (log ++ .asked c.lookups uri (some n) :: notes))
    (hsound : CellSound (log ++ .asked c.lookups uri (some n) :: notes) n state') :
    Sound ⟨log ++ .asked c.lookups uri (some n) :: notes,
      { c with lookups := c.lookups + 1, cells := c.cells.set n ⟨uri, state'⟩ }⟩ := by
  have hall : ∀ note ∈ .asked c.lookups uri (some n) :: notes, note.lookup = c.lookups := by
    intro note hmem
    rcases List.mem_cons.mp hmem with rfl | hmem
    · rfl
    · exact hown note hmem
  refine h.update hcell (Nat.le_succ _) horderly ?_ ?_ ?_ hsound
  · intro note hmem
    exact hall note hmem ▸ Nat.lt_succ_self _
  · intro note hmem
    rw [hall note hmem]
    exact ⟨uri, by simp⟩
  · intro l other m hmem
    rcases List.mem_cons.mp hmem with heq | hmem
    · cases heq
      exact ⟨rfl, rfl⟩
    · exact absurd hmem (hasked l other (some m))

/-- A lookup joins the cell of its document. -/
theorem joined (h : Sound ⟨log, c⟩) (hentry : c.entries.lookup uri = some n) {state : CellState}
    (hcell : c.cells[n]? = some ⟨uri, state⟩) :
    let outcome := { c with lookups := c.lookups + 1 }.join c.lookups n ⟨uri, state⟩
    Sound ⟨log ++ .asked c.lookups uri (outcome.2.entries.lookup uri) ::
      outcome.1.map Note.ofEffect, outcome.2⟩ := by
  have hsound := h.cells n _ hcell
  have hasked : Orderly (log ++ [.asked c.lookups uri (some n)]) := h.orderly_ask uri (some n)
  have hmem : .asked c.lookups uri (some n) ∈ log ++ [.asked c.lookups uri (some n)] :=
    List.mem_append_right _ List.mem_cons_self
  cases state with
  | filled source settings =>
      obtain ⟨⟨other, hsource⟩, hended⟩ := (hsound.filled source settings).mpr rfl
      have hset : c.cells.set n ⟨uri, .filled source settings⟩ = c.cells := by
        obtain ⟨hlt, hget⟩ := List.getElem?_eq_some_iff.mp hcell
        rw [← hget]
        exact List.set_getElem_self hlt
      have hask := h.ask hcell [.answered c.lookups (.fetched source settings)]
        (.filled source settings) (by simp [Note.lookup]) (by simp) ?_ ?_
      · rw [hset] at hask
        simp only [join, hentry]
        exact hask
      · rw [List.append_cons]
        refine hasked.concat ⟨h.not_answered_ask uri (some n), uri, some n, hmem, .inl ?_⟩
        exact ⟨source, settings, rfl, ⟨other, List.mem_append_left _ hsource⟩,
          List.mem_append_left _ hended⟩
      · refine hsound.join h.fresh (by simp [Note.lookup]) ⟨uri, by simp⟩ (by simp)
          (.inl ⟨⟨.fetched source settings, by simp⟩, rfl⟩) (by simp [queue]) (by simp)
  | pending queue =>
      cases queue with
      | nil =>
          have hask := h.ask hcell [.started c.lookups uri] (.pending [c.lookups])
            (by simp [Note.lookup]) (by simp) ?_ ?_
          · simp only [join, setCell, hentry]
            exact hask
          · rw [List.append_cons]
            refine hasked.concat ⟨fun other hstarted => ?_, n, hmem, ?_⟩
            · exact h.fresh _ (by simpa using hstarted : .started c.lookups other ∈ log) rfl
            · exact hsound.unserved_asked h.fresh uri
          · exact hsound.join h.fresh (by simp [Note.lookup]) ⟨uri, by simp⟩ (by simp)
              (.inr ⟨by simp [Answered], rfl⟩) (by simp [SettingsCache.queue]) (by simp)
      | cons first waiting =>
          have hne : first ≠ c.lookups := by
            obtain ⟨other, hfirst⟩ := ((hsound.waiting first).mp List.mem_cons_self).1
            exact h.fresh _ hfirst
          have hask := h.ask hcell [] (.pending (first :: waiting ++ [c.lookups])) (by simp)
            (by simp) hasked ?_
          · simp only [join, setCell, hentry]
            exact hask
          · exact hsound.join h.fresh (by simp [Note.lookup]) ⟨uri, by simp⟩ (by simp)
              (.inr ⟨by simp [Answered], rfl⟩) (by simpa [SettingsCache.queue] using hne) (by simp)

end Sound

/-! ### Lookups -/

theorem lookup_of_unsupported {c : SettingsCache} (h : c.supported = false) (uri : Uri) :
    c.lookup uri = ([.answer c.lookups .default], { c with lookups := c.lookups + 1 }) := by
  simp [lookup, h]

theorem lookup_of_entry {c : SettingsCache} (h : c.supported = true) {uri : Uri} {n : Nat}
    (hentry : c.entries.lookup uri = some n) {cell : Cell} (hcell : c.cells[n]? = some cell) :
    c.lookup uri = { c with lookups := c.lookups + 1 }.join c.lookups n cell := by
  simp [lookup, h, hentry, hcell]

theorem lookup_of_new {c : SettingsCache} (h : c.supported = true) {uri : Uri}
    (hentry : c.entries.lookup uri = none) : c.lookup uri = (c.addCell uri).lookup uri := by
  have hnew : (c.addCell uri).entries.lookup uri = some c.cells.length := by
    simp [lookup_entries_addCell, hentry]
  have hcell : (c.addCell uri).cells[c.cells.length]? = some ⟨uri, .pending []⟩ := by
    simp [getElem?_cells_addCell]
  have hsupported : (c.addCell uri).supported = true := h
  rw [lookup_of_entry hsupported hnew hcell]
  simp [lookup, h, hentry, addCell]

namespace Sound

variable {w : Watched}

theorem lookup_entry (h : Sound w) (hsupported : w.cache.supported = true) {uri : Uri} {n : Nat}
    (hentry : w.cache.entries.lookup uri = some n) : Sound (w.step (.lookup uri)) := by
  obtain ⟨log, c⟩ := w
  obtain ⟨state, hcell⟩ := h.entered uri n hentry
  have hjoined := h.joined hentry hcell
  rw [← lookup_of_entry hsupported hentry hcell] at hjoined
  rw [Watched.step]
  dsimp only
  rw [if_pos hsupported]
  exact hjoined

theorem lookup (h : Sound w) (uri : Uri) : Sound (w.step (.lookup uri)) := by
  cases hsupported : w.cache.supported with
  | false =>
      have hrefused := h.refuse uri
      rw [Watched.step, lookup_of_unsupported hsupported]
      dsimp only
      rw [if_neg (by simp [hsupported])]
      exact hrefused
  | true =>
      cases hentry : w.cache.entries.lookup uri with
      | some n => exact h.lookup_entry hsupported hentry
      | none =>
          have hnew : (w.cache.addCell uri).entries.lookup uri = some w.cache.cells.length := by
            simp [lookup_entries_addCell, hentry]
          have hstep : w.step (.lookup uri) =
              { w with cache := w.cache.addCell uri }.step (.lookup uri) := by
            rw [Watched.step, lookup_of_new hsupported hentry]
            rfl
          rw [hstep]
          exact (h.addCell uri).lookup_entry hsupported hnew

end Sound

/-! ### Ends of fetches -/

theorem find_eq_some {l k n : Nat} {cells : List Cell} {cell : Cell} {waiting : List Nat}
    (h : fetching?.find l k cells = some (n, cell, waiting)) :
    ∃ i, n = k + i ∧ cells[i]? = some cell ∧ cell.state = .pending (l :: waiting) := by
  induction cells generalizing k with
  | nil => cases h
  | cons first rest ih =>
      rw [fetching?.find] at h
      have hlater : fetching?.find l (k + 1) rest = some (n, cell, waiting) → ∃ i, n = k + i ∧
          (first :: rest)[i]? = some cell ∧ cell.state = .pending (l :: waiting) := by
        intro hrest
        obtain ⟨i, hn, hcell, hstate⟩ := ih hrest
        exact ⟨i + 1, by omega, hcell, hstate⟩
      split at h
      · next head behind hstate =>
        split at h
        · next heq =>
          cases h
          exact ⟨0, rfl, rfl, heq ▸ hstate⟩
        · exact hlater h
      · exact hlater h

theorem find_eq_none {l k : Nat} {cells : List Cell} (h : fetching?.find l k cells = none) :
    ∀ cell ∈ cells, (queue cell.state).head? ≠ some l := by
  induction cells generalizing k with
  | nil => simp
  | cons first rest ih =>
      rw [fetching?.find] at h
      intro cell hmem
      split at h
      · next head behind hstate =>
        split at h
        · cases h
        · next hne =>
          rcases List.mem_cons.mp hmem with rfl | hmem
          · simpa [hstate, queue] using hne
          · exact ih h cell hmem
      · next hstate =>
        rcases List.mem_cons.mp hmem with rfl | hmem
        · cases hqueue : cell.state with
          | filled => simp [queue]
          | pending waiting =>
              cases waiting with
              | nil => simp [queue]
              | cons head behind => exact absurd hqueue (hstate head behind)
        · exact ih h cell hmem

namespace Sound

variable {log : List Note} {c : SettingsCache} {n l : Nat} {cell : Cell} {waiting : List Nat}

/-- The lookups in the queue of a cell are noted, and it gets another state. -/
theorem serve (h : Sound ⟨log, c⟩) (hcell : c.cells[n]? = some cell) (notes : List Note)
    (state : CellState) (hown : ∀ note ∈ notes, note.lookup ∈ queue cell.state)
    (hasked : ∀ l other m, .asked l other m ∉ notes) (horderly : Orderly (log ++ notes))
    (hsound : CellSound (log ++ notes) n state) :
    Sound ⟨log ++ notes, c.setCell n { cell with state }⟩ := by
  have hjoined : ∀ note ∈ notes, Joined log note.lookup n :=
    fun note hmem => (((h.cells n cell hcell).waiting _).mp (hown note hmem)).1
  refine h.update hcell (Nat.le_refl _) horderly ?_ ?_ ?_ hsound
  · intro note hmem
    obtain ⟨uri, hold⟩ := hjoined note hmem
    exact h.numbered (.asked note.lookup uri (some n)) hold
  · intro note hmem
    obtain ⟨uri, hold⟩ := hjoined note hmem
    exact ⟨uri, List.mem_append_left _ hold⟩
  · intro l other m hmem
    exact absurd hmem (hasked l other (some m))

/-- A lookup in the queue of a cell has asked for the document of the cell. -/
theorem asked_of_queue (h : Sound ⟨log, c⟩) (hcell : c.cells[n]? = some cell)
    (hl : l ∈ queue cell.state) : .asked l cell.uri (some n) ∈ log := by
  obtain ⟨uri, hasked⟩ := (((h.cells n cell hcell).waiting l).mp hl).1
  obtain rfl : uri = cell.uri := (h.obtained l uri n hasked).unique ⟨cell.state, hcell⟩
  exact hasked

theorem inFlight_iff_head (h : Sound ⟨log, c⟩) :
    inFlight log l = true ↔ ∃ cell ∈ c.cells, (queue cell.state).head? = some l := by
  constructor
  · intro hflight
    obtain ⟨⟨uri, hstarted⟩, _⟩ := inFlight_iff.mp hflight
    obtain ⟨n, hasked⟩ := h.orderly.asked_of_started hstarted
    obtain ⟨cell, hcell, hsound⟩ := h.cell_of_joined ⟨uri, hasked⟩
    exact ⟨cell, List.mem_of_getElem? hcell, (hsound.flying l ⟨uri, hasked⟩).mp hflight⟩
  · rintro ⟨cell, hmem, hhead⟩
    obtain ⟨n, hcell⟩ := List.mem_iff_getElem?.mp hmem
    have hl : l ∈ queue cell.state := List.mem_of_mem_head? hhead
    have hjoined := (((h.cells n cell hcell).waiting l).mp hl).1
    exact ((h.cells n cell hcell).flying l hjoined).mpr hhead

/-- The fetch for a cell has brought settings. -/
theorem fill (h : Sound ⟨log, c⟩) (hcell : c.cells[n]? = some cell)
    (hstate : cell.state = .pending (l :: waiting)) (settings : Settings) :
    Sound ⟨log ++ .ended l (some settings) ::
      (l :: waiting).map (.answered · (.fetched l settings)),
      c.setCell n { cell with state := .filled l settings }⟩ := by
  have hsound := h.cells n cell hcell
  have hqueue : queue cell.state = l :: waiting := by rw [hstate]; rfl
  have hflight : inFlight log l = true :=
    h.inFlight_iff_head.mpr ⟨cell, List.mem_of_getElem? hcell, by rw [hqueue]; rfl⟩
  refine h.serve hcell _ _ ?_ ?_ ?_ ?_
  · intro note hmem
    rw [hqueue]
    rcases List.mem_cons.mp hmem with rfl | hmem
    · exact List.mem_cons_self
    · obtain ⟨other, hother, rfl⟩ := List.mem_map.mp hmem
      exact hother
  · simp
  · have hdistinct := hsound.distinct
    rw [hqueue] at hdistinct
    have hended : Orderly (log ++ [.ended l (some settings)]) := h.orderly.concat hflight
    rw [List.append_cons]
    refine hended.answers hdistinct fun other hother => ?_
    rw [← hqueue] at hother
    refine ⟨?_, cell.uri, some n, List.mem_append_left _ (h.asked_of_queue hcell hother), .inl ?_⟩
    · rintro ⟨held, hmem⟩
      exact ((hsound.waiting other).mp hother).2 ⟨held, by simpa using hmem⟩
    · have hasked := h.asked_of_queue hcell (l := l) (by simp [hqueue])
      exact ⟨l, settings, rfl, ⟨cell.uri, List.mem_append_left _ hasked⟩, by simp⟩
  · exact CellSound.fill (hstate ▸ hsound) settings

/-- The fetch for a cell was in vain. -/
theorem fail (h : Sound ⟨log, c⟩) (hcell : c.cells[n]? = some cell)
    (hstate : cell.state = .pending (l :: waiting)) {next : List Nat} (hnext : next.Perm waiting) :
    Sound ⟨log ++ .ended l none :: .answered l .default ::
      next.head?.toList.map (.started · cell.uri),
      c.setCell n { cell with state := .pending next }⟩ := by
  have hsound := h.cells n cell hcell
  have hqueue : queue cell.state = l :: waiting := by rw [hstate]; rfl
  have hl : l ∈ queue cell.state := by simp [hqueue]
  have hflight : inFlight log l = true :=
    h.inFlight_iff_head.mpr ⟨cell, List.mem_of_getElem? hcell, by rw [hqueue]; rfl⟩
  have hended : Orderly (log ++ [.ended l none]) := h.orderly.concat hflight
  have hanswered : Orderly (log ++ [.ended l none] ++ [.answered l .default]) := by
    refine hended.concat ⟨?_, cell.uri, some n,
      List.mem_append_left _ (h.asked_of_queue hcell hl), .inr ⟨rfl, by simp⟩⟩
    rintro ⟨held, hmem⟩
    exact ((hsound.waiting l).mp hl).2 ⟨held, by simpa using hmem⟩
  refine h.serve hcell _ _ ?_ ?_ ?_ ?_
  · intro note hmem
    rw [hqueue]
    simp only [List.mem_cons, List.mem_map, Option.mem_toList] at hmem
    rcases hmem with rfl | rfl | ⟨heir, hheir, rfl⟩
    · exact List.mem_cons_self
    · exact List.mem_cons_self
    · exact List.mem_cons_of_mem _ (hnext.mem_iff.mp (List.mem_of_mem_head? hheir))
  · simp
  · rw [List.append_cons, List.append_cons]
    cases next with
    | nil => simpa using hanswered
    | cons heir rest =>
        have hwaits : heir ∈ waiting := hnext.mem_iff.mp List.mem_cons_self
        have hheir : heir ∈ queue cell.state := by simp [hqueue, hwaits]
        have hasked := h.asked_of_queue hcell hheir
        refine hanswered.concat ⟨fun other hstarted => ?_, n,
          List.mem_append_left _ (List.mem_append_left _ hasked),
          CellSound.unserved_ended (hstate ▸ hsound)⟩
        -- else the heir would have a fetch in flight as well, and be the first itself
        have hflying := inFlight_iff.mpr
          ⟨⟨other, by simpa using hstarted⟩, hsound.unended heir hheir⟩
        have hhead := (hsound.flying heir ((hsound.waiting heir).mp hheir).1).mp hflying
        have hdistinct := hsound.distinct
        rw [hqueue] at hhead hdistinct
        cases hhead
        exact (List.nodup_cons.mp hdistinct).1 hwaits
  · exact CellSound.fail (hstate ▸ hsound) hnext cell.uri

theorem complete {w : Watched} (h : Sound w) (l : Nat) (reply : Reply) (next : Nat) :
    Sound (w.step (.complete l reply next)) := by
  obtain ⟨log, c⟩ := w
  rw [Watched.step, SettingsCache.complete, fetching?]
  cases hfind : fetching?.find l 0 c.cells with
  | none =>
      have hflight : ¬ inFlight log l = true := by
        rw [h.inFlight_iff_head]
        rintro ⟨cell, hmem, hhead⟩
        exact find_eq_none hfind cell hmem hhead
      simpa [hflight] using h
  | some found =>
      obtain ⟨n, cell, waiting⟩ := found
      obtain ⟨i, hn, hcell, hstate⟩ := find_eq_some hfind
      obtain rfl : n = i := by omega
      have hflight : inFlight log l = true :=
        h.inFlight_iff_head.mpr ⟨cell, List.mem_of_getElem? hcell, by rw [hstate]; rfl⟩
      cases hreply : reply.settings? with
      | some settings =>
          have hfill := h.fill hcell hstate settings
          simpa [hflight, hreply, Note.ofEffect, Function.comp_def] using hfill
      | none =>
          have hfail := h.fail hcell hstate (perm_promote next waiting)
          simpa [hflight, hreply, Note.ofEffect, Function.comp_def] using hfail

end Sound

/-! ### Runs -/

theorem lookup_entries_evict (uri other : Uri) (c : SettingsCache) :
    (c.evict uri).2.entries.lookup other = if other = uri then none else c.entries.lookup other := by
  rw [evict]
  generalize c.entries = entries
  induction entries with
  | nil => simp
  | cons first rest ih =>
      obtain ⟨key, n⟩ := first
      by_cases hkey : key = uri
      · subst hkey
        by_cases hother : other = key
        · simpa [hother] using ih
        · simpa [hother, List.lookup_cons, beq_false_of_ne hother] using ih
      · rw [List.filter_cons_of_pos (by simpa using hkey), List.lookup_cons, List.lookup_cons, ih]
        by_cases hother : other = key
        · simp [hother, hkey]
        · simp [beq_false_of_ne hother]

namespace Sound

theorem step {w : Watched} (h : Sound w) (action : Action) : Sound (w.step action) := by
  cases action with
  | setSupported supported => exact h.weaken rfl rfl fun _ _ hentry => hentry
  | lookup uri => exact h.lookup uri
  | complete l reply next => exact h.complete l reply next
  | evict uri =>
      refine h.weaken rfl rfl fun other m hentry => ?_
      rw [lookup_entries_evict] at hentry
      split at hentry
      · cases hentry
      · exact hentry
  | clear => exact h.weaken rfl rfl fun _ _ hentry => by cases hentry

end Sound

theorem sound_watch (actions : List Action) : Sound (watch actions) := by
  induction actions using List.reverseRecOn with
  | nil =>
      constructor <;> simp [watch, orderly_nil]
  | append_singleton actions action ih =>
      rw [watch_concat]
      exact ih.step action

end Shorthand.Editor.SettingsCache
