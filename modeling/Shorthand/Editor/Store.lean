import Shorthand.Editor.Completion
import Shorthand.Editor.Document

/-!
# Store — the open documents

The store keeps a bounded number of documents, each of a bounded size. When a document more is
opened than fits, the one that was not used for longest has to go. Every use of a document is dated,
so each operation takes the time it happens at.
-/

namespace Shorthand.Editor

/-- A stored document and when it was last used. -/
structure StoreEntry where
  uri : Uri
  document : Document
  lastUsed : Nat
  deriving Repr, DecidableEq

/-- The open documents, the bounds on them, and counts of what has happened. -/
structure Store where
  entries : List StoreEntry := []
  /-- How many documents there may be. -/
  capacity : Nat
  /-- How many bytes a document may have. -/
  maxSize : Nat
  /-- Documents opened that were open already. -/
  hits : Nat := 0
  /-- Documents opened that were not. -/
  misses : Nat := 0
  /-- Documents dropped to make room. -/
  evictions : Nat := 0
  deriving Repr, DecidableEq

namespace Store

/-- How many documents are open. -/
def size (s : Store) : Nat := s.entries.length

/-- The names of the open documents, sorted. -/
def uris (s : Store) : List String :=
  (s.entries.map (·.uri.text)).mergeSort fun a b => decide (a ≤ b)

def find? (uri : Uri) (s : Store) : Option StoreEntry := s.entries.find? (·.uri == uri)

def contains (uri : Uri) (s : Store) : Bool := s.entries.any (·.uri == uri)

/-- Puts another document in the place of the one called `uri`. -/
def replace (now : Nat) (uri : Uri) (document : Document) (s : Store) : Store :=
  { s with
    entries := s.entries.map fun e =>
      if e.uri == uri then { uri, document, lastUsed := now } else e }

/-- The entry that was not used for longest. -/
def leastRecent? : List StoreEntry → Option StoreEntry
  | [] => none
  | e :: rest =>
    match leastRecent? rest with
    | none => some e
    | some oldest => if oldest.lastUsed < e.lastUsed then some oldest else some e

/-- Drops the document that was not used for longest, if there is any. -/
def evict (s : Store) : Store :=
  match leastRecent? s.entries with
  | none => s
  | some oldest =>
    { s with
      entries := s.entries.filter (·.uri != oldest.uri)
      evictions := s.evictions + 1 }

/-- Makes room for a document if there is none. -/
def makeRoom (s : Store) : Store := if s.capacity ≤ s.size then s.evict else s

/-- Opens a document, unless it is too large. -/
def openDocument (now : Nat) (uri : Uri) (document : Document) (s : Store) : Bool × Store :=
  if s.maxSize < textSize document.text then (false, s)
  else if s.contains uri then
    let s := s.replace now uri document
    (true, { s with hits := s.hits + 1 })
  else
    let s := { s with misses := s.misses + 1 }.makeRoom
    (true, { s with entries := s.entries ++ [{ uri, document, lastUsed := now }] })

/-- Applies changes to a document, all or none: it must be open, and it must not get too large. -/
def change (now : Nat) (uri : Uri) (version : Int) (changes : List Change) (s : Store) :
    Bool × Store :=
  match s.find? uri with
  | none => (false, s)
  | some e =>
    let text := Change.applyAll changes e.document.text
    if s.maxSize < textSize text then (false, s)
    else (true, s.replace now uri { e.document with text, version })

/-- Looks a document up and uses it. -/
def get (now : Nat) (uri : Uri) (s : Store) : Option Document × Store :=
  match s.find? uri with
  | none => (none, s)
  | some e => (some e.document, s.replace now uri e.document)

/-- Closes a document. -/
def remove (uri : Uri) (s : Store) : Bool × Store :=
  (s.contains uri, { s with entries := s.entries.filter (·.uri != uri) })

/-- Closes all documents and starts counting anew. -/
def clear (s : Store) : Store := { s with entries := [], hits := 0, misses := 0, evictions := 0 }

def setCapacity (capacity : Nat) (s : Store) : Store := { s with capacity }

def setMaxSize (maxSize : Nat) (s : Store) : Store := { s with maxSize }

/-- The completions at a position of an open document. -/
def complete (now : Nat) (uri : Uri) (position : Position) (s : Store) :
    Except CompletionError (List CompletionItem) × Store :=
  match s.get now uri with
  | (none, s) => (.error (.documentNotFound uri), s)
  | (some document, s) =>
    let attempt := Attempt.finished (Editor.complete document.language document.text position)
    (attempt.result, s)

end Store

end Shorthand.Editor
