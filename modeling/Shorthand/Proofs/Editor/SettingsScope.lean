import Mathlib.Data.List.Induction
import Shorthand.Editor.Session
import Shorthand.Proofs.Editor.StoreRuns

/-!
# SettingsScope — which documents have cached settings

Settings are looked up for open documents only, and closing a document drops its settings. So one
would expect settings for no document but the open ones (`Session.SettingsHeld`). There is one way
out: opening a document into a full store drops another document, and nobody drops the settings of
that one. `settingsHeld_step` says that this is the only event after which the expectation can fail,
and that it does fail then; `settingsHeld_along_iff` says the same of a whole session, and
`settings_outlive_document` is a session of four events in which it happens.
-/

namespace Shorthand.Editor

/-! ## The documents in the cache -/

namespace SettingsCache

/-- The documents that have an entry in the cache. -/
def uris (c : SettingsCache) : List Uri := c.entries.map Prod.fst

@[simp] theorem uris_complete (lookup : Nat) (reply : Reply) (next : Nat) (c : SettingsCache) :
    (c.complete lookup reply next).2.uris = c.uris := by
  rw [uris, uris, entries_complete]

/-- A lookup makes an entry for its own document at most. -/
theorem mem_uris_lookup {uri other : Uri} {c : SettingsCache}
    (h : other ∈ (c.lookup uri).2.uris) : other ∈ c.uris ∨ other = uri := by
  rcases entries_lookup uri c with hsame | ⟨_, hnew⟩
  · rw [uris, hsame] at h
    exact .inl h
  · rw [uris, hnew, List.map_append] at h
    rcases List.mem_append.mp h with h | h
    · exact .inl h
    · exact .inr (by simpa using h)

/-- The fetch that a lookup may take makes no entry either. -/
theorem mem_uris_get {uri other : Uri} {reply : Reply} {c : SettingsCache}
    (h : other ∈ (c.get uri reply).2.2.uris) : other ∈ c.uris ∨ other = uri := by
  apply mem_uris_lookup
  simp only [get] at h
  split at h
  · next hlookup => rwa [hlookup]
  · next id _ _ c' hlookup =>
    rw [hlookup, ← uris_complete id reply 0]
    split at h
    · next hcomplete => rwa [hcomplete]
    · next hcomplete => rwa [hcomplete]
  · next hlookup => rwa [hlookup]

theorem mem_uris_evict {uri other : Uri} {c : SettingsCache}
    (h : other ∈ (c.evict uri).2.uris) : other ∈ c.uris ∧ other ≠ uri := by
  obtain ⟨entry, hentry, rfl⟩ := List.mem_map.mp h
  obtain ⟨hmem, hne⟩ := List.mem_filter.mp hentry
  exact ⟨List.mem_map_of_mem hmem, by simpa using hne⟩

end SettingsCache

namespace Session

/-! ## One event -/

/-- Whether every document that has cached settings is open. -/
def SettingsHeld (s : Session) : Prop := ∀ uri ∈ s.settings.uris, s.store.contains uri = true

instance (s : Session) : Decidable s.SettingsHeld := inferInstanceAs (Decidable (∀ _ ∈ _, _))

/-- Whether an event opens a new document into a full store in which the document that has to go has
cached settings. -/
def DropsSettled (s : Session) : Event → Prop
  | .opened uri document =>
    textSize document.text ≤ s.store.maxSize ∧ s.store.contains uri = false ∧
      ∃ oldest ∈ s.store.surplus?, oldest.uri ∈ s.settings.uris
  | _ => False

/-- Opening a document leaves settings without a document exactly if it drops one that has some. -/
theorem settingsHeld_openDocument {s : Session} (h : s.SettingsHeld) (uri : Uri)
    (document : Document) :
    (s.openDocument uri document).session.SettingsHeld ↔
      ¬ s.DropsSettled (.opened uri document) := by
  rcases Nat.lt_or_ge s.store.maxSize (textSize document.text) with hlarge | hfits
  · simp [openDocument, DropsSettled, hlarge, Nat.not_le_of_lt hlarge, h]
  have hsession : (s.openDocument uri document).session =
      { s with store := (s.store.openDocument s.now uri document).2 } := by
    simp only [openDocument, if_neg (Nat.not_lt_of_ge hfits)]
  rw [hsession]
  cases hopen : s.store.contains uri with
  | true =>
      have hkept : ∀ other, (s.store.openDocument s.now uri document).2.contains other =
          s.store.contains other := by
        intro other
        rw [Store.openDocument_of_open hfits hopen]
        exact Store.contains_replace s.now uri other document s.store
      simpa [DropsSettled, SettingsHeld, hopen, hkept] using h
  | false =>
      rw [Store.openDocument_of_new hfits hopen]
      simp only [DropsSettled, SettingsHeld, hfits, hopen, true_and, Store.contains_takeIn,
        not_exists, not_and]
      constructor
      · intro hheld oldest hgone hsettled
        -- The document that goes has settings, is not the new one, and is not open any more.
        rcases hheld oldest.uri hsettled with ⟨_, hstays⟩ | rfl
        · exact hstays oldest hgone rfl
        · rw [h _ hsettled] at hopen
          cases hopen
      · intro hspared other hsettled
        refine .inl ⟨h other hsettled, ?_⟩
        rintro oldest hgone rfl
        exact hspared oldest hgone hsettled

theorem session_complete (uri : Uri) (position : Position) (s : Session) :
    (s.complete uri position).session =
      { s with store := (s.store.complete s.now uri position).2 } := by
  rw [complete]
  split
  · next hcomplete => rw [hcomplete]
  · next hcomplete => rw [hcomplete]

/-- The only event after which a document that is not open has settings, where none had before, is
the opening of a document that drops one with settings. -/
theorem settingsHeld_react {s : Session} (h : s.SettingsHeld) (event : Event) :
    (s.react event).session.SettingsHeld ↔ ¬ s.DropsSettled event := by
  cases event with
  | opened uri document => exact settingsHeld_openDocument h uri document
  | connected _ | ready | workspaceFoldersChanged | setCapacity _ | setMaxSize _ | shutdown =>
      exact iff_of_true h id
  | changed uri version changes =>
      refine iff_of_true ?_ id
      simp only [react]
      split
      · exact h
      · simpa [SettingsHeld] using h
  | closed uri =>
      refine iff_of_true ?_ id
      intro other hother
      obtain ⟨hsettled, hne⟩ := SettingsCache.mem_uris_evict hother
      exact (Store.contains_remove uri other s.store).mpr ⟨h other hsettled, hne⟩
  | configurationChanged =>
      refine iff_of_true ?_ id
      intro other hother
      cases hother
  | completion uri position =>
      refine iff_of_true ?_ id
      intro other hother
      rw [react, session_complete, Store.contains_complete]
      rw [react, session_complete] at hother
      exact h other hother
  | documentSettings uri reply =>
      refine iff_of_true ?_ id
      simp only [react, documentSettings]
      split
      · next hopen =>
        intro other hother
        rcases SettingsCache.mem_uris_get hother with hsettled | rfl
        · exact h other hsettled
        · exact hopen
      · exact h

/-- One event leaves settings without a document exactly if it drops a document that has some; that
time goes on with it does not matter. -/
theorem settingsHeld_step {s : Session} (h : s.SettingsHeld) (event : Event) :
    (s.step event).session.SettingsHeld ↔ ¬ s.DropsSettled event := by
  have hlater : { s with now := s.now + 1 }.SettingsHeld := h
  rw [step, settingsHeld_react hlater]
  cases event <;> exact Iff.rfl

/-! ## Whole sessions -/

/-- The session of a server that has just been started with the given limits. -/
def start (capacity maxSize : Nat) : Session := { store := { capacity, maxSize } }

/-- The session after the given events. -/
def after (s : Session) (events : List Event) : Session :=
  events.foldl (fun s event => (s.step event).session) s

@[simp] theorem after_concat (s : Session) (events : List Event) (event : Event) :
    s.after (events ++ [event]) = ((s.after events).step event).session := by
  simp [after]

/-- All along a session no document but the open ones has settings, exactly if no event of it drops
a document that has some. -/
theorem settingsHeld_along_iff (capacity maxSize : Nat) (events : List Event) :
    (∀ seen, seen <+: events → ((start capacity maxSize).after seen).SettingsHeld) ↔
      ∀ seen event, seen ++ [event] <+: events →
        ¬ ((start capacity maxSize).after seen).DropsSettled event := by
  constructor
  · intro hheld seen event hseen
    have hbefore := hheld seen ((List.prefix_append seen [event]).trans hseen)
    rw [← settingsHeld_step hbefore, ← after_concat]
    exact hheld _ hseen
  · intro hspared seen hseen
    -- By induction on the events seen so far: the last of them has spared the settled documents.
    induction seen using List.reverseRecOn with
    | nil =>
        intro uri huri
        cases huri
    | append_singleton seen event ih =>
        have hbefore := ih ((List.prefix_append seen [event]).trans hseen)
        rw [after_concat, settingsHeld_step hbefore]
        exact hspared seen event hseen

/-- A document is opened and its settings are looked up. The next document takes its place, and the
settings stay. -/
theorem settings_outlive_document :
    ¬ ((start 1 100).after
        [.connected { configuration := true },
          .opened ⟨"file:///a"⟩ { language := "html", version := 1, text := "p" },
          .documentSettings ⟨"file:///a"⟩
            (.value (.object [("maxNumberOfProblems", .integer 7)])),
          .opened ⟨"file:///b"⟩ { language := "html", version := 1, text := "p" }]).SettingsHeld := by
  decide +kernel

end Session

end Shorthand.Editor
