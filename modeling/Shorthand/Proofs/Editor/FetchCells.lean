import Mathlib.Data.List.Perm.Basic
import Shorthand.Proofs.Editor.FetchLog

/-!
# FetchCells — one cell of a settings cache and the log

The cells are never seen from outside; what is seen is the log. `CellSound` says what the state of a
cell has to do with the log: who is in its queue, that the first in the queue is the one whose fetch
is in flight, and that the cell is filled with what a fetch for it has brought. A cell may be joined
(`CellSound.join`), its fetch may bring settings (`CellSound.fill`) or nothing (`CellSound.fail`), and
notes on other cells change nothing (`CellSound.append`).
-/

namespace Shorthand.Editor.SettingsCache

/-- The lookups at a cell that is not filled: the one that fetches, and behind it the ones that
wait. -/
def queue : CellState → List Nat
  | .pending queue => queue
  | .filled .. => []

/-- Nobody is lost and nobody is added when a waiting lookup comes to the front. -/
theorem perm_promote (position : Nat) (queue : List Nat) : (promote position queue).Perm queue := by
  rw [promote]
  cases h : queue[position]? with
  | none =>
      rw [List.eraseIdx_of_length_le (List.getElem?_eq_none_iff.mp h)]
      exact List.Perm.refl queue
  | some lookup =>
      obtain ⟨hlt, rfl⟩ := List.getElem?_eq_some_iff.mp h
      exact List.getElem_cons_eraseIdx_perm hlt

/-- What the state of the cell `n` has to do with the log. -/
structure CellSound (log : List Note) (n : Nat) (state : CellState) : Prop where
  waiting : ∀ l, l ∈ queue state ↔ Joined log l n ∧ ¬ Answered log l
  distinct : (queue state).Nodup
  unended : ∀ l ∈ queue state, ∀ settings, .ended l settings ∉ log
  flying : ∀ l, Joined log l n → (inFlight log l = true ↔ (queue state).head? = some l)
  filled : ∀ l settings, Joined log l n ∧ .ended l (some settings) ∈ log ↔
    state = .filled l settings

/-- A cell has nothing to do with notes on lookups of other cells. -/
theorem CellSound.append {log : List Note} {n : Nat} {state : CellState}
    (h : CellSound log n state) {notes : List Note}
    (hother : ∀ note ∈ notes, ¬ Joined (log ++ notes) note.lookup n) :
    CellSound (log ++ notes) n state := by
  have hsame : ∀ note : Note, Joined (log ++ notes) note.lookup n →
      (note ∈ log ++ notes ↔ note ∈ log) := by
    intro note hjoined
    rw [List.mem_append]
    exact or_iff_left fun hmem => hother note hmem hjoined
  have hjoined : ∀ l, Joined (log ++ notes) l n ↔ Joined log l n := by
    intro l
    constructor
    · rintro ⟨uri, hmem⟩
      exact ⟨uri, (hsame (.asked l uri (some n)) ⟨uri, hmem⟩).mp hmem⟩
    · rintro ⟨uri, hmem⟩
      exact ⟨uri, List.mem_append_left _ hmem⟩
  have hanswered : ∀ l, Joined log l n → (Answered (log ++ notes) l ↔ Answered log l) := by
    intro l hl
    exact exists_congr fun held => hsame (.answered l held) ((hjoined l).mpr hl)
  have hended : ∀ l, Joined log l n → ∀ settings,
      (.ended l settings ∈ log ++ notes ↔ .ended l settings ∈ log) := by
    intro l hl settings
    exact hsame (.ended l settings) ((hjoined l).mpr hl)
  constructor
  · intro l
    rw [h.waiting, hjoined]
    exact and_congr_right fun hl => not_congr (hanswered l hl).symm
  · exact h.distinct
  · intro l hl settings
    rw [hended l ((h.waiting l).mp hl).1]
    exact h.unended l hl settings
  · intro l hl
    rw [hjoined] at hl
    rw [← h.flying l hl, inFlight_iff, inFlight_iff]
    have hstarted : ∀ uri, .started l uri ∈ log ++ notes ↔ .started l uri ∈ log :=
      fun uri => hsame (.started l uri) ((hjoined l).mpr hl)
    simp only [hstarted, hended l hl]
  · intro l settings
    rw [← h.filled, hjoined]
    exact and_congr_right fun hl => hended l hl (some settings)

/-- A new cell is empty, and nobody has got it. -/
theorem CellSound.empty {log : List Note} {n : Nat} (h : ∀ l, ¬ Joined log l n) :
    CellSound log n (.pending []) where
  waiting l := by simp [queue, h l]
  distinct := List.nodup_nil
  unended l hl := by cases hl
  flying l hl := absurd hl (h l)
  filled l settings := by simp [h l]

/-- A new lookup joins a cell: it goes to the end of the queue, unless it is answered at once. -/
theorem CellSound.join {log notes : List Note} {n id : Nat} {state state' : CellState}
    (h : CellSound log n state) (hfresh : ∀ note ∈ log, note.lookup ≠ id)
    (hown : ∀ note ∈ notes, note.lookup = id) (hjoined : Joined notes id n)
    (hended : ∀ settings, .ended id settings ∉ notes)
    (hqueue : Answered notes id ∧ queue state' = queue state ∨
      ¬ Answered notes id ∧ queue state' = queue state ++ [id])
    (hflying : (∃ uri, .started id uri ∈ notes) ↔ (queue state').head? = some id)
    (hfilled : ∀ l settings, state' = .filled l settings ↔ state = .filled l settings) :
    CellSound (log ++ notes) n state' := by
  have hold : ∀ note : Note, note.lookup ≠ id → (note ∈ log ++ notes ↔ note ∈ log) := by
    intro note hne
    rw [List.mem_append]
    exact or_iff_left fun hmem => hne (hown note hmem)
  have hnew : ∀ note : Note, note.lookup = id → (note ∈ log ++ notes ↔ note ∈ notes) := by
    intro note heq
    rw [List.mem_append]
    exact or_iff_right fun hmem => hfresh note hmem heq
  have hnot : id ∉ queue state := by
    intro hmem
    obtain ⟨uri, hasked⟩ := ((h.waiting id).mp hmem).1
    exact hfresh _ hasked rfl
  have hmem : ∀ l, l ≠ id → (l ∈ queue state' ↔ l ∈ queue state) := by
    intro l hne
    rcases hqueue with ⟨_, hqueue⟩ | ⟨_, hqueue⟩
    · rw [hqueue]
    · simp [hqueue, hne]
  have hjoined_old : ∀ l, l ≠ id → (Joined (log ++ notes) l n ↔ Joined log l n) :=
    fun l hne => exists_congr fun uri => hold (.asked l uri (some n)) hne
  have hjoined_new : Joined (log ++ notes) id n := by
    obtain ⟨uri, hasked⟩ := hjoined
    exact ⟨uri, List.mem_append_right _ hasked⟩
  constructor
  · intro l
    by_cases hl : l = id
    · subst hl
      have hanswered : Answered (log ++ notes) l ↔ Answered notes l :=
        exists_congr fun held => hnew (.answered l held) rfl
      rw [hanswered, and_iff_right hjoined_new]
      rcases hqueue with ⟨hyes, hqueue⟩ | ⟨hno, hqueue⟩
      · rw [hqueue]
        exact iff_of_false hnot (not_not_intro hyes)
      · simp [hqueue, hno]
    · have hanswered : Answered (log ++ notes) l ↔ Answered log l :=
        exists_congr fun held => hold (.answered l held) hl
      rw [hmem l hl, h.waiting l, hjoined_old l hl, hanswered]
  · rcases hqueue with ⟨_, hqueue⟩ | ⟨_, hqueue⟩
    · rw [hqueue]
      exact h.distinct
    · rw [hqueue]
      exact List.Nodup.append h.distinct (List.nodup_singleton id) (by simpa using hnot)
  · intro l hl settings
    by_cases hid : l = id
    · subst hid
      rw [hnew (.ended l settings) rfl]
      exact hended settings
    · rw [hold (.ended l settings) hid]
      exact h.unended l ((hmem l hid).mp hl) settings
  · intro l hl
    rw [inFlight_iff]
    by_cases hid : l = id
    · subst hid
      rw [← hflying]
      simp only [hnew (.started l _) rfl, hnew (.ended l _) rfl]
      exact and_iff_left hended
    · have hhead : (queue state').head? = some l ↔ (queue state).head? = some l := by
        rcases hqueue with ⟨_, hqueue⟩ | ⟨_, hqueue⟩
        · rw [hqueue]
        · cases hold : queue state with
          | nil => simp [hqueue, hold, Ne.symm hid]
          | cons first rest => simp [hqueue, hold]
      rw [hhead, ← h.flying l ((hjoined_old l hid).mp hl), inFlight_iff]
      simp only [hold (.started l _) hid, hold (.ended l _) hid]
  · intro l settings
    rw [hfilled, ← h.filled]
    by_cases hid : l = id
    · subst hid
      refine iff_of_false ?_ ?_
      · rintro ⟨_, hmem⟩
        exact hended (some settings) ((hnew _ rfl).mp hmem)
      · rintro ⟨_, hmem⟩
        exact hfresh _ hmem rfl
    · rw [hjoined_old l hid, hold (.ended l (some settings)) hid]

/-- The first in the queue is the one whose fetch is in flight. -/
theorem CellSound.not_inFlight {log : List Note} {n first : Nat} {waiting : List Nat}
    (h : CellSound log n (.pending (first :: waiting))) {l : Nat} (hl : Joined log l n)
    (hne : l ≠ first) : ¬ ((∃ uri, .started l uri ∈ log) ∧ ∀ settings, .ended l settings ∉ log) := by
  rw [← inFlight_iff, h.flying l hl]
  simpa [queue] using hne.symm

/-- Nobody is fetching for an empty cell, and a new lookup there may. -/
theorem CellSound.unserved_asked {log : List Note} {n id : Nat} (h : CellSound log n (.pending []))
    (hfresh : ∀ note ∈ log, note.lookup ≠ id) (uri : Uri) :
    Unserved (log ++ [.asked id uri (some n)]) n := by
  rintro l ⟨other, hmem⟩
  rw [← Bool.not_eq_true, inFlight_iff]
  simp only [List.mem_append, List.mem_singleton, reduceCtorEq, or_false] at hmem ⊢
  rcases hmem with hmem | heq
  · have hl : Joined log l n := ⟨other, hmem⟩
    rw [← inFlight_iff, h.flying l hl]
    refine ⟨by simp [queue], fun settings hended => ?_⟩
    cases (h.filled l settings).mp ⟨hl, hended⟩
  · cases heq
    exact ⟨fun ⟨⟨_, hstarted⟩, _⟩ => hfresh _ hstarted rfl, fun _ hended => hfresh _ hended rfl⟩

/-- When the fetch of the first in the queue has ended in vain, nobody is fetching for the cell. -/
theorem CellSound.unserved_ended {log : List Note} {n first : Nat} {waiting : List Nat}
    (h : CellSound log n (.pending (first :: waiting))) :
    Unserved (log ++ [.ended first none] ++ [.answered first .default]) n := by
  rintro l ⟨other, hmem⟩
  rw [← Bool.not_eq_true, inFlight_iff]
  simp only [List.mem_append, List.mem_singleton, reduceCtorEq, or_false] at hmem ⊢
  have hl : Joined log l n := ⟨other, hmem⟩
  constructor
  · rintro ⟨hstarted, hopen⟩
    have hne : l ≠ first := by
      rintro rfl
      exact hopen none (.inr rfl)
    exact h.not_inFlight hl hne ⟨hstarted, fun settings hended => hopen settings (.inl hended)⟩
  · rintro settings (hended | heq)
    · cases (h.filled l settings).mp ⟨hl, hended⟩
    · cases heq

/-- The fetch of the first in the queue has brought settings: all are answered, and the cell is
filled. -/
theorem CellSound.fill {log : List Note} {n first : Nat} {waiting : List Nat}
    (h : CellSound log n (.pending (first :: waiting))) (settings : Settings) :
    CellSound (log ++ .ended first (some settings) ::
      (first :: waiting).map (.answered · (.fetched first settings))) n
      (.filled first settings) := by
  have hfirst := ((h.waiting first).mp List.mem_cons_self).1
  constructor
  · intro l
    refine iff_of_false (by simp [queue]) ?_
    rintro ⟨⟨uri, hasked⟩, hopen⟩
    have hjoined : Joined log l n := ⟨uri, by simpa using hasked⟩
    -- whoever was not answered before was in the queue, and is answered now
    have hqueue : l ∈ first :: waiting := by
      refine (h.waiting l).mpr ⟨hjoined, ?_⟩
      rintro ⟨held, hmem⟩
      exact hopen ⟨held, List.mem_append_left _ hmem⟩
    refine hopen ⟨.fetched first settings, List.mem_append_right _ (List.mem_cons_of_mem _ ?_)⟩
    exact List.mem_map_of_mem hqueue
  · exact List.nodup_nil
  · intro l hl
    cases hl
  · rintro l ⟨uri, hasked⟩
    have hjoined : Joined log l n := ⟨uri, by simpa using hasked⟩
    rw [inFlight_iff]
    refine iff_of_false ?_ (by simp [queue])
    rintro ⟨⟨other, hstarted⟩, hended⟩
    have hne : l ≠ first := by
      rintro rfl
      exact hended (some settings) (by simp)
    refine h.not_inFlight hjoined hne ⟨⟨other, by simpa using hstarted⟩, fun old hmem => ?_⟩
    exact hended old (List.mem_append_left _ hmem)
  · intro l got
    have hold := h.filled l got
    constructor
    · rintro ⟨⟨uri, hasked⟩, hended⟩
      have hjoined : Joined log l n := ⟨uri, by simpa using hasked⟩
      have hcases : .ended l (some got) ∈ log ∨ l = first ∧ got = settings := by
        simpa using hended
      rcases hcases with hmem | ⟨rfl, rfl⟩
      · cases hold.mp ⟨hjoined, hmem⟩
      · rfl
    · rintro ⟨⟩
      obtain ⟨uri, hasked⟩ := hfirst
      exact ⟨⟨uri, List.mem_append_left _ hasked⟩, by simp⟩

/-- The fetch of the first in the queue was in vain: it is answered, and of the others, in whatever
order, the next one fetches. -/
theorem CellSound.fail {log : List Note} {n first : Nat} {waiting next : List Nat}
    (h : CellSound log n (.pending (first :: waiting))) (hnext : next.Perm waiting) (uri : Uri) :
    CellSound (log ++ .ended first none :: .answered first .default ::
      next.head?.toList.map (.started · uri)) n (.pending next) := by
  have hdistinct : first ∉ waiting ∧ waiting.Nodup := List.nodup_cons.mp h.distinct
  have hjoined : ∀ l, Joined (log ++ .ended first none :: .answered first .default ::
      next.head?.toList.map (.started · uri)) l n ↔ Joined log l n := by
    intro l
    simp [Joined]
  have hended : ∀ l settings, .ended l settings ∈ log ++ .ended first none ::
      .answered first .default :: next.head?.toList.map (.started · uri) ↔
        .ended l settings ∈ log ∨ l = first ∧ settings = none := by
    intro l settings
    simp
  constructor
  · intro l
    have hanswered : Answered (log ++ .ended first none :: .answered first .default ::
        next.head?.toList.map (.started · uri)) l ↔ Answered log l ∨ l = first := by
      simp [Answered, exists_or]
    have hold := h.waiting l
    rw [hjoined, hanswered]
    simp only [queue, List.mem_cons, hnext.mem_iff] at hold ⊢
    constructor
    · intro hl
      obtain ⟨hin, hopen⟩ := hold.mp (.inr hl)
      exact ⟨hin, not_or.mpr ⟨hopen, fun heq => hdistinct.1 (heq ▸ hl)⟩⟩
    · rintro ⟨hin, hopen⟩
      obtain ⟨hopen, hne⟩ := not_or.mp hopen
      exact (hold.mpr ⟨hin, hopen⟩).resolve_left hne
  · exact hnext.nodup_iff.mpr hdistinct.2
  · intro l hl settings
    have hwaits : l ∈ waiting := hnext.mem_iff.mp hl
    rw [hended]
    rintro (hmem | ⟨rfl, _⟩)
    · exact h.unended l (List.mem_cons_of_mem _ hwaits) settings hmem
    · exact hdistinct.1 hwaits
  · intro l hl
    rw [hjoined] at hl
    rw [inFlight_iff]
    simp only [hended, queue]
    constructor
    · rintro ⟨⟨other, hstarted⟩, hopen⟩
      have hcases : .started l other ∈ log ∨ next.head? = some l := by
        rcases List.mem_append.mp hstarted with hmem | hmem
        · exact .inl hmem
        · obtain ⟨hhead, _⟩ : next.head? = some l ∧ uri = other := by simpa using hmem
          exact .inr hhead
      rcases hcases with hmem | hhead
      · have hne : l ≠ first := by
          rintro rfl
          exact hopen none (.inr ⟨rfl, rfl⟩)
        exact absurd ⟨⟨other, hmem⟩, fun settings hmem => hopen settings (.inl hmem)⟩
          (h.not_inFlight hl hne)
      · exact hhead
    · intro hhead
      have hwaits : l ∈ waiting := hnext.mem_iff.mp (List.mem_of_mem_head? hhead)
      refine ⟨⟨uri, List.mem_append_right _ (by simp [hhead])⟩, fun settings => ?_⟩
      rintro (hmem | ⟨rfl, _⟩)
      · exact h.unended l (List.mem_cons_of_mem _ hwaits) settings hmem
      · exact hdistinct.1 hwaits
  · intro l settings
    rw [hjoined, hended]
    refine iff_of_false ?_ (by simp)
    rintro ⟨hin, hmem | ⟨_, hnone⟩⟩
    · cases (h.filled l settings).mp ⟨hin, hmem⟩
    · cases hnone

end Shorthand.Editor.SettingsCache
