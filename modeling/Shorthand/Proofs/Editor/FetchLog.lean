import Mathlib.Data.List.Induction
import Mathlib.Data.List.Nodup
import Shorthand.Editor.SettingsCache

/-!
# FetchLog — what can be seen of a settings cache

Lookups, answers to fetches, evictions and clearings come in any order. A log keeps what can be seen
of that from outside: which lookup has asked for which document and what cell it has got, which
fetches have started and ended, and which lookups have been answered with what. Whether a fetch is in
flight, and so whether there is anything to end, is read off the log and not off the cache.

Finding the cell of a document and joining it are one action. The first touches only the entries and
the second only the cell, so what comes between them might as well come before or after.

`Orderly` says of a log alone that every note has its reasons in the notes before it; most of what
one wants to know of a cache follows from that.
-/

namespace Shorthand.Editor.SettingsCache

/-! ## Logs -/

/-- What can be done to a cache. Who goes on when a fetch has ended in vain is up to the action. -/
inductive Action where
  | setSupported (supported : Bool)
  | lookup (uri : Uri)
  | complete (lookup : Nat) (reply : Reply) (next : Nat)
  | evict (uri : Uri)
  | clear
  deriving Repr

/-- What can be seen of a cache; every note is about one lookup. -/
inductive Note where
  /-- A lookup of a document has started, and has got a cell unless fetching is not supported. -/
  | asked (lookup : Nat) (uri : Uri) (cell : Option Nat)
  /-- A lookup has started its fetch. -/
  | started (lookup : Nat) (uri : Uri)
  /-- The fetch of a lookup has ended, with settings or in vain. -/
  | ended (lookup : Nat) (settings : Option Settings)
  /-- A lookup has ended. -/
  | answered (lookup : Nat) (held : Held)
  deriving Repr, DecidableEq

namespace Note

def lookup : Note → Nat
  | .asked l .. | .started l _ | .ended l _ | .answered l _ => l

def isStart (l : Nat) : Note → Bool
  | .started l' _ => l' == l
  | _ => false

def isEnd (l : Nat) : Note → Bool
  | .ended l' _ => l' == l
  | _ => false

theorem isStart_iff {l : Nat} {note : Note} :
    note.isStart l = true ↔ ∃ uri, note = .started l uri := by
  cases note <;> simp [isStart]

theorem isEnd_iff {l : Nat} {note : Note} :
    note.isEnd l = true ↔ ∃ settings, note = .ended l settings := by
  cases note <;> simp [isEnd]

def ofEffect : CacheEffect → Note
  | .fetch l uri => .started l uri
  | .answer l held => .answered l held

end Note

/-- Whether the fetch of a lookup has started and not ended. -/
def inFlight (log : List Note) (l : Nat) : Bool :=
  log.any (Note.isStart l) && !log.any (Note.isEnd l)

theorem inFlight_iff {log : List Note} {l : Nat} :
    inFlight log l = true ↔ (∃ uri, .started l uri ∈ log) ∧ ∀ settings, .ended l settings ∉ log := by
  have hstart : log.any (Note.isStart l) = true ↔ ∃ uri, .started l uri ∈ log := by
    simp only [List.any_eq_true, Note.isStart_iff]
    exact ⟨fun ⟨_, hmem, uri, heq⟩ => ⟨uri, heq ▸ hmem⟩, fun ⟨uri, hmem⟩ => ⟨_, hmem, uri, rfl⟩⟩
  have hend : log.any (Note.isEnd l) = true ↔ ∃ settings, .ended l settings ∈ log := by
    simp only [List.any_eq_true, Note.isEnd_iff]
    exact ⟨fun ⟨_, hmem, r, heq⟩ => ⟨r, heq ▸ hmem⟩, fun ⟨r, hmem⟩ => ⟨_, hmem, r, rfl⟩⟩
  rw [inFlight, Bool.and_eq_true, hstart, Bool.not_eq_true', ← Bool.not_eq_true, hend, not_exists]

/-- A cache, and the log of all that has been seen of it. -/
structure Watched where
  log : List Note := []
  cache : SettingsCache := {}
  deriving Repr

/-- Does something to a cache and takes notes. A fetch ends when it is completed in flight. -/
def Watched.step (w : Watched) : Action → Watched
  | .setSupported supported => { w with cache := w.cache.setSupported supported }
  | .lookup uri =>
    let outcome := w.cache.lookup uri
    let cell := if w.cache.supported then outcome.2.entries.lookup uri else none
    { log := w.log ++ .asked w.cache.lookups uri cell :: outcome.1.map Note.ofEffect
      cache := outcome.2 }
  | .complete l reply next =>
    let outcome := w.cache.complete l reply next
    let ended := if inFlight w.log l then [.ended l reply.settings?] else []
    { log := w.log ++ (ended ++ outcome.1.map Note.ofEffect), cache := outcome.2 }
  | .evict uri => { w with cache := (w.cache.evict uri).2 }
  | .clear => { w with cache := w.cache.clear }

/-- A new cache, after what has been done to it. -/
def watch (actions : List Action) : Watched := actions.foldl Watched.step {}

@[simp] theorem watch_concat (actions : List Action) (action : Action) :
    watch (actions ++ [action]) = (watch actions).step action := by
  simp [watch]

/-- Whether a lookup has got the cell with the number `n`. -/
def Joined (log : List Note) (l n : Nat) : Prop := ∃ uri, .asked l uri (some n) ∈ log

def Answered (log : List Note) (l : Nat) : Prop := ∃ held, .answered l held ∈ log

/-- Whether a lookup is rightly answered with `held`: without a cell, it gets the default; with one,
it gets what has been fetched for the cell, or the default if its own fetch was in vain. -/
def Justified (log : List Note) (l : Nat) (held : Held) : Option Nat → Prop
  | none => held = .default
  | some n =>
    (∃ source settings, held = .fetched source settings ∧ Joined log source n ∧
      .ended source (some settings) ∈ log) ∨
    (held = .default ∧ .ended l none ∈ log)

theorem Justified.mono {log log' : List Note} (hsub : log ⊆ log') {l : Nat} {held : Held}
    {cell : Option Nat} (h : Justified log l held cell) : Justified log' l held cell := by
  cases cell with
  | none => exact h
  | some n =>
      rcases h with ⟨source, settings, rfl, ⟨uri, hjoined⟩, hended⟩ | ⟨rfl, hended⟩
      · exact .inl ⟨source, settings, rfl, ⟨uri, hsub hjoined⟩, hsub hended⟩
      · exact .inr ⟨rfl, hsub hended⟩

/-! ## Orderly logs -/

/-- Whether no fetch for the cell `n` is in flight, and none has brought settings. -/
def Unserved (log : List Note) (n : Nat) : Prop :=
  ∀ l, Joined log l n → inFlight log l = false ∧ ∀ settings, .ended l (some settings) ∉ log

/-- What a note must find in the log before it. -/
def Note.Fits (log : List Note) : Note → Prop
  | .asked l _ _ => ∀ note ∈ log, note.lookup ≠ l
  | .started l uri =>
    (∀ other, .started l other ∉ log) ∧ ∃ n, .asked l uri (some n) ∈ log ∧ Unserved log n
  | .ended l _ => inFlight log l = true
  | .answered l held =>
    ¬ Answered log l ∧ ∃ uri cell, .asked l uri cell ∈ log ∧ Justified log l held cell

/-- Whether every note fits to the ones before it. -/
def Orderly (log : List Note) : Prop :=
  ∀ before note, before ++ [note] <+: log → note.Fits before

theorem orderly_nil : Orderly [] := by
  intro before note h
  simp at h

theorem orderly_concat {log : List Note} {note : Note} :
    Orderly (log ++ [note]) ↔ Orderly log ∧ note.Fits log := by
  constructor
  · intro h
    exact ⟨fun before other hbefore => h before other (hbefore.trans (List.prefix_append _ _)),
      h log note (List.prefix_refl _)⟩
  · rintro ⟨hlog, hnote⟩ before other hbefore
    rcases List.prefix_concat_iff.mp hbefore with heq | hbefore
    · obtain ⟨rfl, hlast⟩ := List.append_inj' heq rfl
      cases hlast
      exact hnote
    · exact hlog before other hbefore

namespace Orderly

variable {log : List Note}

/-- A note that is in the log has fitted to some log before it. -/
theorem fits (h : Orderly log) {note : Note} (hmem : note ∈ log) :
    ∃ before, before <+: log ∧ note.Fits before := by
  obtain ⟨before, after, rfl⟩ := List.append_of_mem hmem
  refine ⟨before, List.prefix_append _ _, h before note ⟨after, ?_⟩⟩
  simp

theorem concat (h : Orderly log) {note : Note} (hfits : note.Fits log) : Orderly (log ++ [note]) :=
  orderly_concat.mpr ⟨h, hfits⟩

/-- Different lookups may be answered with the same. -/
theorem answers (h : Orderly log) {held : Held} {ls : List Nat} (hdistinct : ls.Nodup)
    (hopen : ∀ l ∈ ls, (Note.answered l held).Fits log) :
    Orderly (log ++ ls.map (.answered · held)) := by
  induction ls using List.reverseRecOn with
  | nil => simpa using h
  | append_singleton ls last ih =>
      obtain ⟨hls, _, hlast⟩ := List.nodup_append.mp hdistinct
      have hbefore := ih hls fun l hl => hopen l (List.mem_append_left _ hl)
      obtain ⟨hnot, uri, cell, hasked, hjustified⟩ := hopen last (by simp)
      rw [List.map_append, ← List.append_assoc]
      refine hbefore.concat ⟨?_, uri, cell, List.mem_append_left _ hasked,
        hjustified.mono (List.subset_append_left _ _)⟩
      rintro ⟨other, hmem⟩
      rcases List.mem_append.mp hmem with hmem | hmem
      · exact hnot ⟨other, hmem⟩
      · obtain ⟨l, hl, heq⟩ := List.mem_map.mp hmem
        cases heq
        exact hlast _ hl _ (by simp) rfl

theorem asked_once (h : Orderly log) {l : Nat} {uri uri' : Uri} {cell cell' : Option Nat}
    (hasked : .asked l uri cell ∈ log) (hasked' : .asked l uri' cell' ∈ log) :
    uri = uri' ∧ cell = cell' := by
  induction log using List.reverseRecOn with
  | nil => cases hasked
  | append_singleton log last ih =>
      obtain ⟨hlog, hlast⟩ := orderly_concat.mp h
      rw [List.mem_append, List.mem_singleton] at hasked hasked'
      rcases hasked with hasked | rfl
      · rcases hasked' with hasked' | rfl
        · exact ih hlog hasked hasked'
        · exact absurd rfl (hlast _ hasked)
      · rcases hasked' with hasked' | heq
        · exact absurd rfl (hlast _ hasked')
        · cases heq
          exact ⟨rfl, rfl⟩

/-- Only a lookup that has got a cell starts a fetch, and it does so for its own document. -/
theorem asked_of_started (h : Orderly log) {l : Nat} {uri : Uri} (hmem : .started l uri ∈ log) :
    ∃ n, .asked l uri (some n) ∈ log := by
  obtain ⟨before, hbefore, _, n, hasked, _⟩ := h.fits hmem
  exact ⟨n, hbefore.subset hasked⟩

theorem started_of_ended (h : Orderly log) {l : Nat} {settings : Option Settings}
    (hmem : .ended l settings ∈ log) : ∃ uri, .started l uri ∈ log := by
  obtain ⟨before, hbefore, hflight⟩ := h.fits hmem
  obtain ⟨⟨uri, hstarted⟩, _⟩ := inFlight_iff.mp hflight
  exact ⟨uri, hbefore.subset hstarted⟩

theorem justified_of_answered (h : Orderly log) {l : Nat} {held : Held}
    (hmem : .answered l held ∈ log) :
    ∃ uri cell, .asked l uri cell ∈ log ∧ Justified log l held cell := by
  obtain ⟨before, hbefore, _, uri, cell, hasked, hjustified⟩ := h.fits hmem
  exact ⟨uri, cell, hbefore.subset hasked, hjustified.mono hbefore.subset⟩

end Orderly

end Shorthand.Editor.SettingsCache
