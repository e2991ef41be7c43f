import Shorthand.Editor.SettingsCache
import Shorthand.Editor.Store

/-!
# Session — a server and its editor

An editor opens, changes and closes documents, asks for completions, and says when its configuration
has changed. The server answers, and sends messages of its own. A session is the server's side of
that conversation; each event dates the documents it uses with the time it happens at.
-/

namespace Shorthand.Editor

/-- The name of the server. -/
def serverName : String := "emmet-lsp"

/-- The version of the server. -/
def serverVersion : String := "1.0.0"

/-- The part of the editor's configuration that the settings are in. -/
def settingsSection : String := "emmet"

/-- What the log message of an error starts with. -/
def logErrorStart : String := "ERR: "

/-- How many documents are kept. -/
def defaultCapacity : Nat := 1000

def bytesPerMegabyte : Nat := 1024 * 1024

/-- How many bytes a document may have. -/
def defaultMaxSize : Nat := 500 * bytesPerMegabyte

/-- The characters that bring up completions when they are typed: operators and closing brackets,
letters and digits. -/
def triggerCharacters : List String :=
  ">)]\x7d@*$+abcdefghijklmnopqrstuvwxyz0123456789".toList.map String.singleton

/-- What an editor says that it can do. -/
structure ClientCapabilities where
  /-- It answers requests for its configuration. -/
  configuration : Bool := false
  /-- It has workspace folders. -/
  workspaceFolders : Bool := false
  deriving Repr, DecidableEq

/-- What the server says that it can do. All but the following is always the same. -/
structure ServerCapabilities where
  /-- It wants to know of changes to the workspace folders. -/
  workspaceFolders : Bool
  deriving Repr, DecidableEq

/-- What the server sends to the editor of its own accord. -/
inductive Message where
  /-- A line for the log. -/
  | log (text : String)
  /-- An error to show to the user. -/
  | showError (text : String)
  /-- A request to be told of events. -/
  | register (id method : String)
  /-- A request for the configuration of a document. -/
  | askConfiguration (uri : Uri) (part : String)
  deriving Repr, DecidableEq

/-- What an editor tells the server, or asks it for. -/
inductive Event where
  /-- The first event of a session. -/
  | connected (capabilities : ClientCapabilities)
  /-- The editor has taken note of the server's capabilities. -/
  | ready
  | opened (uri : Uri) (document : Document)
  | changed (uri : Uri) (version : Int) (changes : List Change)
  | closed (uri : Uri)
  | configurationChanged
  | workspaceFoldersChanged
  | completion (uri : Uri) (position : Position)
  /-- The settings of a document; `reply` is what the editor answers if it is asked for them. -/
  | documentSettings (uri : Uri) (reply : Reply)
  | setCapacity (capacity : Nat)
  | setMaxSize (maxSize : Nat)
  | shutdown
  deriving Repr

/-- The server's answer to an event. -/
inductive Response where
  | nothing
  | capabilities (c : ServerCapabilities)
  | completions (items : List CompletionItem)
  | settings (settings : Option Settings)
  | limit (n : Nat)
  deriving Repr, DecidableEq

/-- The state of the server. -/
structure Session where
  store : Store := { capacity := defaultCapacity, maxSize := defaultMaxSize }
  settings : SettingsCache := {}
  /-- The time: how many events there have been. -/
  now : Nat := 0
  deriving Repr, DecidableEq

/-- What comes of an event. -/
structure Outcome where
  session : Session
  response : Response := .nothing
  messages : List Message := []
  deriving Repr, DecidableEq

namespace Session

/-- The message about a document of `size` bytes that is too large. -/
def tooLarge (size maxSize : Nat) : String :=
  let megabytes := maxSize / bytesPerMegabyte
  s!"Document too large: {size} bytes exceeds maximum of {maxSize} bytes ({megabytes} MB)"

/-- Opens a document, or tells the user that it is too large. -/
def openDocument (uri : Uri) (document : Document) (s : Session) : Outcome :=
  let size := textSize document.text
  if s.store.maxSize < size then
    { session := s, messages := [.showError (tooLarge size s.store.maxSize)] }
  else { session := { s with store := (s.store.openDocument s.now uri document).2 } }

/-- Completes at a position. What goes wrong goes to the log, and there are no completions then. -/
def complete (uri : Uri) (position : Position) (s : Session) : Outcome :=
  match s.store.complete s.now uri position with
  | (.ok items, store) => { session := { s with store }, response := .completions items }
  | (.error e, store) =>
    { session := { s with store }
      response := .completions []
      messages := [.log (logErrorStart ++ e.message)] }

/-- Looks up the settings of a document, if it is open. -/
def documentSettings (uri : Uri) (reply : Reply) (s : Session) : Outcome :=
  if s.store.contains uri then
    match s.settings.get uri reply with
    | (held, asked, settings) =>
      { session := { s with settings }
        response := .settings (some held.settings)
        messages := if asked then [.askConfiguration uri settingsSection] else [] }
  else { session := s, response := .settings none }

/-- What an event does to a session. -/
def react (s : Session) : Event → Outcome
  | .connected capabilities =>
    { session := { s with settings := s.settings.setSupported capabilities.configuration }
      response := .capabilities { workspaceFolders := capabilities.workspaceFolders } }
  | .ready =>
    { session := s
      messages :=
        if s.settings.supported then
          [.register "emmet-lsp/didChangeConfiguration" "workspace/didChangeConfiguration"]
        else [] }
  | .opened uri document => s.openDocument uri document
  | .changed uri version changes =>
    if changes.isEmpty then { session := s }
    else { session := { s with store := (s.store.change s.now uri version changes).2 } }
  | .closed uri =>
    { session :=
        { s with store := (s.store.remove uri).2, settings := (s.settings.evict uri).2 } }
  | .configurationChanged => { session := { s with settings := s.settings.clear } }
  | .workspaceFoldersChanged => { session := s }
  | .completion uri position => s.complete uri position
  | .documentSettings uri reply => s.documentSettings uri reply
  | .setCapacity capacity =>
    { session := { s with store := s.store.setCapacity capacity }, response := .limit capacity }
  | .setMaxSize maxSize =>
    { session := { s with store := s.store.setMaxSize maxSize }, response := .limit maxSize }
  | .shutdown => { session := s }

/-- One event: time goes on, and the session reacts. -/
def step (s : Session) (event : Event) : Outcome := { s with now := s.now + 1 }.react event

end Session

end Shorthand.Editor
