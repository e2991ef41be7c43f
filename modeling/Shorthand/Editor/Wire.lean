import Shorthand.Editor.Session

/-!
# Wire — what the server says, as JSON

The shapes in which answers and messages go to the editor. The numbers in them are those of the
language server protocol.
-/

namespace Shorthand

def Position.toJson (p : Position) : Json :=
  .object [("line", .integer p.line), ("character", .integer p.character)]

def Range.toJson (r : Range) : Json :=
  .object [("start", r.start.toJson), ("end", r.stop.toJson)]

namespace Editor

/-- The kind of completion that inserts a snippet. -/
def snippetKind : Json := .integer 15

/-- The text format in which tab-stops have a meaning. -/
def snippetFormat : Json := .integer 2

/-- What a completion carries along. -/
def CompletionData.toJson (data : CompletionData) : Json :=
  .object [("range", data.range.toJson), ("textResult", .string data.textResult)]

/-- A completion. Its range and text are there twice: as an edit, and as data that comes back when
the completion is resolved. -/
def CompletionItem.toJson (item : CompletionItem) : Json :=
  .object
    [("label", .string item.label),
     ("kind", snippetKind),
     ("detail", .string item.detail),
     ("documentation", .string item.documentation),
     ("insertTextFormat", snippetFormat),
     ("textEdit",
      .object [("range", item.range.toJson), ("newText", .string item.newText)]),
     ("data", item.data.toJson)]

/-- Documents are sent when they open and close, and their changes as ranges. -/
def documentSync : Json := .object [("openClose", .bool true), ("change", .integer 2)]

/-- When completions are offered, and that they can be resolved. -/
def completionProvider : Json :=
  .object
    [("resolveProvider", .bool true),
     ("triggerCharacters", .array (triggerCharacters.map .string))]

/-- That the server wants to know of changes to the workspace folders. -/
def workspaceFolderSupport : Json :=
  .object
    [("workspaceFolders",
      .object [("supported", .bool true), ("changeNotifications", .bool true)])]

/-- The server's introduction: what it can do, and who it is. -/
def ServerCapabilities.toJson (c : ServerCapabilities) : Json :=
  let workspace := if c.workspaceFolders then [("workspace", workspaceFolderSupport)] else []
  .object
    [("capabilities",
      .object
        ([("textDocumentSync", documentSync), ("completionProvider", completionProvider)] ++
          workspace)),
     ("serverInfo",
      .object [("name", .string serverName), ("version", .string serverVersion)])]

def Response.toJson : Response → Json
  | .nothing => .null
  | .capabilities c => c.toJson
  | .completions items => .array (items.map CompletionItem.toJson)
  | .settings none => .null
  | .settings (some found) => .integer found.maxNumberOfProblems
  | .limit n => .integer n

namespace Message

/-- The method a message calls in the editor. -/
def method : Message → String
  | .log _ => "window/logMessage"
  | .showError _ => "window/showMessage"
  | .register .. => "client/registerCapability"
  | .askConfiguration .. => "workspace/configuration"

/-- The parameters of the call. -/
def params : Message → Json
  | .log text => .object [("type", .integer 4), ("message", .string text)]
  | .showError text => .object [("type", .integer 1), ("message", .string text)]
  | .register id method =>
    .object
      [("registrations",
        .array [.object [("id", .string id), ("method", .string method)]])]
  | .askConfiguration uri part =>
    .object
      [("items",
        .array [.object [("scopeUri", .string uri.text), ("section", .string part)]])]

/-- Whether the editor answers a message. -/
def isRequest : Message → Bool
  | .log _ => false
  | .showError _ => false
  | .register .. => true
  | .askConfiguration .. => true

end Message

end Editor

end Shorthand
