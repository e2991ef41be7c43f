import Shorthand.Editor.Session

/-!
# Call — what the editor says, from JSON

An editor calls methods of the server by name, with parameters. Most of them are events of a
session.
-/

namespace Shorthand

def Position.ofJson? (j : Json) : Option Position := do
  let line ← (← j.get? "line").natural?
  let character ← (← j.get? "character").natural?
  return { line, character }

def Range.ofJson? (j : Json) : Option Range := do
  let start ← Position.ofJson? (← j.get? "start")
  let stop ← Position.ofJson? (← j.get? "end")
  return { start, stop }

namespace Editor

/-- The name in a description of a document. -/
def Uri.ofJson? (j : Json) : Option Uri := do
  let text ← (← j.get? "uri").string?
  return Uri.ofString text

def Document.ofJson? (j : Json) : Option Document := do
  let text ← (← j.get? "text").string?
  let language ← (← j.get? "languageId").string?
  let version ← (← j.get? "version").integer?
  return { text, language, version }

/-- A change. A range that is missing or null means all of the document. -/
def Change.ofJson? (j : Json) : Option Change := do
  let text ← (← j.get? "text").string?
  match j.get? "range" with
  | none => return { text }
  | some .null => return { text }
  | some range => return { range := some (← Range.ofJson? range), text }

/-- Whether a capability is declared: one that is missing is not. -/
def declares (name : String) (capabilities : Option Json) : Bool :=
  match capabilities.bind (Json.get? name) with
  | some (.bool declared) => declared
  | _ => false

def ClientCapabilities.ofJson (params : Json) : ClientCapabilities :=
  let workspace := (params.get? "capabilities").bind (Json.get? "workspace")
  { configuration := declares "configuration" workspace
    workspaceFolders := declares "workspaceFolders" workspace }

/-- A call of the editor. -/
inductive Call where
  | event (e : Event)
  /-- To complete what is known about a completion: everything is known already. -/
  | resolve (item : Json)
  /-- To stop. -/
  | exit
  deriving Repr

/-- Why a call is not understood. -/
inductive CallError where
  | unknownMethod
  | invalidParams
  deriving Repr, DecidableEq

namespace Call

/-- An event that was read from parameters, if it could be. -/
def ofEvent? : Option Event → Except CallError Call
  | some e => .ok (.event e)
  | none => .error .invalidParams

def opened? (params : Json) : Option Event := do
  let document ← params.get? "textDocument"
  return .opened (← Uri.ofJson? document) (← Document.ofJson? document)

def changed? (params : Json) : Option Event := do
  let document ← params.get? "textDocument"
  let version ← (← document.get? "version").integer?
  let changes ← (← params.get? "contentChanges").array?
  return .changed (← Uri.ofJson? document) version (← changes.mapM Change.ofJson?)

def closed? (params : Json) : Option Event := do
  return .closed (← Uri.ofJson? (← params.get? "textDocument"))

def completion? (params : Json) : Option Event := do
  let uri ← Uri.ofJson? (← params.get? "textDocument")
  return .completion uri (← Position.ofJson? (← params.get? "position"))

/-- The call of a method. -/
def ofMethod (method : String) (params : Json) : Except CallError Call :=
  match method with
  | "initialize" => .ok (.event (.connected (ClientCapabilities.ofJson params)))
  | "initialized" => .ok (.event .ready)
  | "shutdown" => .ok (.event .shutdown)
  | "exit" => .ok .exit
  | "textDocument/didOpen" => ofEvent? (opened? params)
  | "textDocument/didChange" => ofEvent? (changed? params)
  | "textDocument/didClose" => ofEvent? (closed? params)
  | "textDocument/completion" => ofEvent? (completion? params)
  | "completionItem/resolve" => .ok (.resolve params)
  | "workspace/didChangeConfiguration" => .ok (.event .configurationChanged)
  | "workspace/didChangeWorkspaceFolders" => .ok (.event .workspaceFoldersChanged)
  | _ => .error .unknownMethod

end Call

end Editor

end Shorthand
