import Shorthand.Editor.Settings
import Shorthand.Editor.Document

/-!
# SettingsCache — settings, fetched once per document

Settings are fetched from the editor when they are first looked up, and kept. A fetch takes time,
and meanwhile there may be other lookups of the same document: they wait, and share what is fetched.
If the fetch fails, the lookup that started it gets the default, and one of those that wait fetches
anew, whichever comes first.

Each document has a cell, which is empty, being filled, or filled. Dropping a document from the
cache detaches its cell: lookups that hold it still end with what it gets, but later ones get a new
cell.

Lookups are numbered in the order they start. A lookup starts at most one fetch, so the number of a
lookup names its fetch as well.
-/

namespace Shorthand.Editor

/-- What a lookup ends with: the default settings, or the ones that a lookup has fetched. Two
results are the same object exactly if they are equal. -/
inductive Held where
  | default
  | fetched (lookup : Nat) (settings : Settings)
  deriving Repr, DecidableEq

def Held.settings : Held → Settings
  | .default => {}
  | .fetched _ settings => settings

/-- The state of a cell. -/
inductive CellState where
  /-- Not filled yet. The first lookup of the queue is fetching and the others wait for it, in no
  order that matters; with no queue, the cell is empty and nobody is fetching. -/
  | pending (queue : List Nat)
  /-- Filled with what a lookup has fetched. -/
  | filled (lookup : Nat) (settings : Settings)
  deriving Repr, DecidableEq

/-- A cell for the settings of a document. -/
structure Cell where
  uri : Uri
  state : CellState
  deriving Repr, DecidableEq

/-- What happens at once when the cache is used: a fetch starts, or a lookup ends. -/
inductive CacheEffect where
  | fetch (lookup : Nat) (uri : Uri)
  | answer (lookup : Nat) (held : Held)
  deriving Repr, DecidableEq

/-- The cached settings. -/
structure SettingsCache where
  /-- Whether the editor can be asked for settings at all. -/
  supported : Bool := false
  /-- The documents in the cache, with the numbers of their cells. -/
  entries : List (Uri × Nat) := []
  /-- Every cell there has been; a cell that no entry names is detached. -/
  cells : List Cell := []
  /-- How many lookups have started. -/
  lookups : Nat := 0
  deriving Repr, DecidableEq

namespace SettingsCache

/-- How many documents are in the cache. -/
def size (c : SettingsCache) : Nat := c.entries.length

def setSupported (supported : Bool) (c : SettingsCache) : SettingsCache := { c with supported }

/-- Gives a cell another state. -/
def setCell (number : Nat) (cell : Cell) (c : SettingsCache) : SettingsCache :=
  { c with cells := c.cells.set number cell }

/-- Joins a lookup to the cell of its document: it ends if the cell is filled, it waits if another
lookup is fetching, and else it fetches. -/
def join (lookup number : Nat) (cell : Cell) (c : SettingsCache) :
    List CacheEffect × SettingsCache :=
  match cell.state with
  | .filled source settings => ([.answer lookup (.fetched source settings)], c)
  | .pending [] =>
    ([.fetch lookup cell.uri], c.setCell number { cell with state := .pending [lookup] })
  | .pending queue => ([], c.setCell number { cell with state := .pending (queue ++ [lookup]) })

/-- Starts a lookup. Its number is the number of lookups before it. -/
def lookup (uri : Uri) (c : SettingsCache) : List CacheEffect × SettingsCache :=
  let id := c.lookups
  let c := { c with lookups := id + 1 }
  if !c.supported then ([.answer id .default], c)
  else
    match c.entries.lookup uri with
    | some number =>
      match c.cells[number]? with
      | some cell => c.join id number cell
      | none => ([.answer id .default], c)
    | none =>
      let number := c.cells.length
      let cell := { uri, state := .pending [] }
      { c with entries := c.entries ++ [(uri, number)], cells := c.cells ++ [cell] }.join
        id number cell

/-- The cell that a lookup is filling, and the lookups that wait for it. -/
def fetching? (lookup : Nat) (c : SettingsCache) : Option (Nat × Cell × List Nat) :=
  let rec find (number : Nat) : List Cell → Option (Nat × Cell × List Nat)
    | [] => none
    | cell :: rest =>
      match cell.state with
      | .pending (first :: waiting) =>
        if first = lookup then some (number, cell, waiting) else find (number + 1) rest
      | _ => find (number + 1) rest
  find 0 c.cells

/-- The queue with the lookup at a position in front, if there is one. -/
def promote (position : Nat) (queue : List Nat) : List Nat :=
  queue[position]?.toList ++ queue.eraseIdx position

/-- Ends the fetch of a lookup with what the editor has answered. If that is nothing, the lookup
that waits at position `next` fetches, or the first one. -/
def complete (lookup : Nat) (reply : Reply) (next : Nat) (c : SettingsCache) :
    List CacheEffect × SettingsCache :=
  match c.fetching? lookup with
  | none => ([], c)
  | some (number, cell, waiting) =>
    match reply.settings? with
    | some settings =>
      ((lookup :: waiting).map (.answer · (.fetched lookup settings)),
        c.setCell number { cell with state := .filled lookup settings })
    | none =>
      let queue := promote next waiting
      (.answer lookup .default :: queue.head?.toList.map (.fetch · cell.uri),
        c.setCell number { cell with state := .pending queue })

/-- Drops a document from the cache. -/
def evict (uri : Uri) (c : SettingsCache) : Bool × SettingsCache :=
  (c.entries.any (·.1 == uri), { c with entries := c.entries.filter (·.1 != uri) })

/-- Drops all documents from the cache. -/
def clear (c : SettingsCache) : SettingsCache := { c with entries := [] }

/-- Looks settings up while nothing else happens: if that takes a fetch, `reply` is the answer to
it. Also says whether there was a fetch. -/
def get (uri : Uri) (reply : Reply) (c : SettingsCache) : Held × Bool × SettingsCache :=
  match c.lookup uri with
  | (.answer _ held :: _, c) => (held, false, c)
  | (.fetch id _ :: _, c) =>
    match c.complete id reply 0 with
    | (.answer _ held :: _, c) => (held, true, c)
    | (_, c) => (.default, true, c)
  | ([], c) => (.default, false, c)

/-! ## Entries -/

@[simp] theorem entries_join (lookup number : Nat) (cell : Cell) (c : SettingsCache) :
    (c.join lookup number cell).2.entries = c.entries := by
  rw [join]
  split <;> rfl

@[simp] theorem entries_complete (lookup : Nat) (reply : Reply) (next : Nat) (c : SettingsCache) :
    (c.complete lookup reply next).2.entries = c.entries := by
  rw [complete]
  split
  · rfl
  · split <;> rfl

/-- A lookup makes an entry for its document if there is none, and else changes no entry. -/
theorem entries_lookup (uri : Uri) (c : SettingsCache) :
    (c.lookup uri).2.entries = c.entries ∨ c.entries.lookup uri = none ∧
      (c.lookup uri).2.entries = c.entries ++ [(uri, c.cells.length)] := by
  simp only [lookup]
  split
  · exact .inl rfl
  · split
    · split
      · exact .inl (entries_join ..)
      · exact .inl rfl
    · next hnone => exact .inr ⟨hnone, entries_join ..⟩

end SettingsCache

end Shorthand.Editor
