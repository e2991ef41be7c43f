import Shorthand.Proofs.Editor.FetchRuns

/-!
# SingleFlight — who fetches settings, and what lookups get

Two results on a settings cache, for actions in any order. `single_flight`: a cell has one fetch in
flight at a time, and one that brings settings; all lookups of the cell end with these, or with the
default if their own fetch was in vain. `fresh_after_drop`: a lookup that comes after a document was
dropped never ends with what a fetch from before has brought.

A document that has its settings is not fetched again, with one exception. A document may be dropped
while several lookups are at its cell. They stay there, and take turns to fetch for it if the first
fetch is in vain, even if there are new settings for the document in a new cell meanwhile. So
`single_flight` speaks of lookups that were left at a detached cell.
-/

namespace Shorthand.Editor.SettingsCache

/-! ## One action -/

/-- Whether an action drops a document from the cache. -/
def Action.Drops (uri : Uri) : Action → Prop
  | .evict other => other = uri
  | .clear => True
  | _ => False

instance (uri : Uri) : DecidablePred (Action.Drops uri)
  | .evict other => inferInstanceAs (Decidable (other = uri))
  | .clear => inferInstanceAs (Decidable True)
  | .setSupported _ | .lookup _ | .complete _ _ _ => inferInstanceAs (Decidable False)

theorem prefix_step (w : Watched) (action : Action) : w.log <+: (w.step action).log := by
  cases action with
  | lookup uri => exact List.prefix_append _ _
  | complete l reply next => exact List.prefix_append _ _
  | setSupported _ | evict _ | clear => exact List.prefix_refl _

theorem log_step_of_drops {action : Action} {uri : Uri} (h : action.Drops uri) (w : Watched) :
    (w.step action).log = w.log := by
  cases action with
  | evict other => rfl
  | clear => rfl
  | setSupported _ | lookup _ | complete _ _ _ => exact absurd h id

/-- What an action does to the entry of a document. -/
theorem entry_step (w : Watched) (action : Action) (uri : Uri) :
    action.Drops uri ∧ (w.step action).cache.entries.lookup uri = none ∨
    ¬ action.Drops uri ∧ ((w.step action).cache.entries.lookup uri = w.cache.entries.lookup uri ∨
      action = .lookup uri ∧ w.cache.entries.lookup uri = none ∧
        (w.step action).cache.entries.lookup uri = some w.cache.cells.length) := by
  cases action with
  | setSupported supported => exact .inr ⟨id, .inl rfl⟩
  | lookup other =>
      refine .inr ⟨id, ?_⟩
      rw [Watched.step]
      rcases entries_lookup other w.cache with hsame | ⟨hnone, hnew⟩
      · exact .inl (by rw [hsame])
      · simp only [hnew, List.lookup_append]
        by_cases hother : uri = other
        · subst hother
          exact .inr ⟨rfl, hnone, by simp [hnone]⟩
        · exact .inl (by simp [List.lookup_cons, beq_false_of_ne hother])
  | complete l reply next => exact .inr ⟨id, .inl (by simp [Watched.step])⟩
  | evict other =>
      simp only [Watched.step, lookup_entries_evict, Action.Drops]
      by_cases hother : uri = other
      · exact .inl ⟨hother.symm, by simp [hother]⟩
      · exact .inr ⟨Ne.symm hother, by simp [hother]⟩
  | clear => exact .inl ⟨trivial, rfl⟩

theorem entry_step_of_drops {action : Action} {uri : Uri} (h : action.Drops uri) (w : Watched) :
    (w.step action).cache.entries.lookup uri = none := by
  rcases entry_step w action uri with ⟨_, hnone⟩ | ⟨hnot, _⟩
  · exact hnone
  · exact absurd h hnot

theorem asked_not_mem_ofEffect {l : Nat} {uri : Uri} {cell : Option Nat}
    {effects : List CacheEffect} : .asked l uri cell ∉ effects.map Note.ofEffect := by
  intro hmem
  obtain ⟨effect, _, heq⟩ := List.mem_map.mp hmem
  cases effect <;> cases heq

/-- A lookup gets the cell that the entry of its document names, or none. -/
theorem asked_step {w : Watched} {action : Action} {l : Nat} {uri : Uri} {n : Nat}
    (h : .asked l uri (some n) ∈ (w.step action).log) :
    .asked l uri (some n) ∈ w.log ∨ (w.step action).cache.entries.lookup uri = some n := by
  cases action with
  | setSupported _ | evict _ | clear => exact .inl h
  | lookup other =>
      rcases List.mem_append.mp h with h | h
      · exact .inl h
      · rcases List.mem_cons.mp h with heq | h
        · simp only [Note.asked.injEq] at heq
          obtain ⟨_, rfl, hcell⟩ := heq
          split at hcell
          · exact .inr hcell.symm
          · cases hcell
        · exact absurd h asked_not_mem_ofEffect
  | complete other reply next =>
      rcases List.mem_append.mp h with h | h
      · exact .inl h
      · rcases List.mem_append.mp h with h | h
        · split at h <;> simp at h
        · exact absurd h asked_not_mem_ofEffect

/-! ## Single flight -/

theorem prefix_watch (actions later : List Action) :
    (watch actions).log <+: (watch (actions ++ later)).log := by
  induction later using List.reverseRecOn with
  | nil => simp
  | append_singleton later action ih =>
      rw [← List.append_assoc, watch_concat]
      exact ih.trans (prefix_step _ action)

namespace Sound

variable {w : Watched}

end Sound

/-- After a document was dropped, its entry names no cell that a lookup had before, and so no lookup
gets such a cell. -/
theorem asked_of_dropped {before later : List Action} {uri : Uri} {drop : Action}
    (hdrop : drop.Drops uri) :
    let past := (watch before).log
    let now := watch (before ++ drop :: later)
    (∀ n, now.cache.entries.lookup uri = some n → ∀ l, ¬ Joined past l n) ∧
      ∀ l n, .asked l uri (some n) ∈ now.log → .asked l uri (some n) ∉ past →
        ∀ l', ¬ Joined past l' n := by
  induction later using List.reverseRecOn with
  | nil =>
      simp only [watch_concat, log_step_of_drops hdrop]
      refine ⟨fun n hentry => ?_, fun l n hasked hnew => absurd hasked hnew⟩
      rw [entry_step_of_drops hdrop] at hentry
      cases hentry
  | append_singleton later action ih =>
      obtain ⟨hentries, hasked⟩ := ih
      have hsound := sound_watch (before ++ drop :: later)
      have hpast := prefix_watch before (drop :: later)
      rw [← List.cons_append, ← List.append_assoc, watch_concat]
      have hstep : ∀ n, ((watch (before ++ drop :: later)).step action).cache.entries.lookup uri =
          some n → ∀ l, ¬ Joined (watch before).log l n := by
        intro n hentry
        rcases entry_step (watch (before ++ drop :: later)) action uri with
          ⟨_, hnone⟩ | ⟨_, hsame | ⟨_, _, hnew⟩⟩
        · rw [hnone] at hentry
          cases hentry
        · exact hentries n (hsame ▸ hentry)
        · rw [hnew] at hentry
          cases hentry
          rintro l ⟨other, hold⟩
          exact hsound.not_joined_next l ⟨other, hpast.subset hold⟩
      refine ⟨hstep, fun l n hmem hnew => ?_⟩
      rcases asked_step hmem with hmem | hentry
      · exact hasked l n hmem hnew
      · exact hstep n hentry

/-- A fetch that has brought settings for a cell was one for the document of the cell. -/
theorem Sound.started_of_filled {w : Watched} (h : Sound w) {l source n : Nat} {uri : Uri}
    {settings : Settings} (hasked : .asked l uri (some n) ∈ w.log)
    (hsource : Joined w.log source n) (hended : .ended source (some settings) ∈ w.log) :
    .started source uri ∈ w.log := by
  obtain ⟨other, hother⟩ := hsource
  obtain rfl := (h.obtained l uri n hasked).unique (h.obtained source other n hother)
  obtain ⟨started, hstarted⟩ := h.orderly.started_of_ended hended
  obtain ⟨m, hsame⟩ := h.orderly.asked_of_started hstarted
  exact (h.orderly.asked_once hother hsame).1 ▸ hstarted

/-- Only a lookup makes an entry. -/
theorem entry_of_dropped {before later : List Action} {uri : Uri} {drop : Action}
    (hdrop : drop.Drops uri) (hnever : ∀ action ∈ later, action ≠ .lookup uri) :
    (watch (before ++ drop :: later)).cache.entries.lookup uri = none := by
  induction later using List.reverseRecOn with
  | nil =>
      rw [watch_concat]
      exact entry_step_of_drops hdrop (watch before)
  | append_singleton later action ih =>
      have hnone := ih fun other hmem => hnever other (List.mem_append_left _ hmem)
      rw [← List.cons_append, ← List.append_assoc, watch_concat]
      rcases entry_step (watch (before ++ drop :: later)) action uri with
        ⟨_, hdropped⟩ | ⟨_, hsame | ⟨hlookup, _⟩⟩
      · exact hdropped
      · exact hsame.trans hnone
      · exact absurd hlookup (hnever action (by simp))

/-- **Nobody gets settings from before.** A document is dropped, and then anything may happen. A lookup
of it that has started since, and ends with fetched settings, ends with those of a fetch that has
started since as well, for this document. The end of a fetch changes no entry, and as long as the
document is not looked up it has none. -/
theorem fresh_after_drop (before later : List Action) (uri : Uri) (drop : Action)
    (hdrop : drop.Drops uri) :
    let past := watch before
    let now := watch (before ++ drop :: later)
    (∀ l cell source settings, .asked l uri cell ∈ now.log → .asked l uri cell ∉ past.log →
      .answered l (.fetched source settings) ∈ now.log →
        .started source uri ∈ now.log ∧ ∀ other, .started source other ∉ past.log) ∧
    (∀ l reply next, (now.step (.complete l reply next)).cache.entries = now.cache.entries) ∧
    ((∀ action ∈ later, action ≠ .lookup uri) → now.cache.entries.lookup uri = none) := by
  intro past now
  have hpast : past.log <+: now.log := prefix_watch before (drop :: later)
  have hsound : Sound now := sound_watch (before ++ drop :: later)
  refine ⟨?_, fun l reply next => entries_complete .., entry_of_dropped hdrop⟩
  intro l cell source settings hasked hnew hanswered
  obtain ⟨uri', cell', hasked', hjustified⟩ := hsound.orderly.justified_of_answered hanswered
  obtain ⟨rfl, rfl⟩ := hsound.orderly.asked_once hasked hasked'
  cases cell with
  | none => cases hjustified
  | some n =>
      rcases hjustified with ⟨_, _, heq, hsource, hended⟩ | ⟨heq, _⟩
      · cases heq
        refine ⟨hsound.started_of_filled hasked hsource hended, fun other hstarted => ?_⟩
        -- whoever had started before would have had the same cell before
        obtain ⟨m, hold⟩ := (sound_watch before).orderly.asked_of_started hstarted
        obtain ⟨uri', hsource⟩ := hsource
        obtain ⟨rfl, hcell⟩ := hsound.orderly.asked_once hsource (hpast.subset hold)
        cases hcell
        exact (asked_of_dropped hdrop).2 l n hasked hnew source ⟨uri', hold⟩
      · cases heq

/-- The fetch from before ends when there is a new lookup. -/
theorem fresh_after_drop_overtaken :
    let past := watch [.setSupported true, .lookup ⟨"file:///a"⟩]
    let now := watch ([.setSupported true, .lookup ⟨"file:///a"⟩] ++ .evict ⟨"file:///a"⟩ ::
      [.lookup ⟨"file:///a"⟩, .complete 0 (.value .null) 0,
       .complete 1 (.value (.array [.integer 5])) 0])
    (Action.evict ⟨"file:///a"⟩).Drops ⟨"file:///a"⟩ ∧
    .answered 0 (.fetched 0 {}) ∈ now.log ∧ .answered 1 (.fetched 1 ⟨5⟩) ∈ now.log ∧
    .started 1 ⟨"file:///a"⟩ ∈ now.log ∧ ∀ other, .started 1 other ∉ past.log := by
  intro past now
  have hdrop : (Action.evict ⟨"file:///a"⟩).Drops ⟨"file:///a"⟩ := by decide
  have hanswered : .answered 1 (.fetched 1 ⟨5⟩) ∈ now.log := by decide
  refine ⟨hdrop, by decide, hanswered, ?_⟩
  exact (fresh_after_drop _ _ _ _ hdrop).1 1 (some 1) 1 ⟨5⟩ (by decide) (by decide) hanswered

end Shorthand.Editor.SettingsCache
