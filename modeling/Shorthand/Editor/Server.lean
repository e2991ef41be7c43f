import Shorthand.Editor.Call
import Shorthand.Editor.Wire
import Shorthand.Json.Reader
import Shorthand.Text.Character

/-!
# Server — a session behind a wire

The editor and the server send each other JSON texts. A text with a method and an id is a request
and gets an answer; one with a method only is a notification; one without a method answers a request
of the server.

A server first has to be connected. Requests that come earlier, or after the session was shut down,
are refused, and notifications then have no effect.

On the wire each text has a header in front. The header is a number of lines, of which one gives the
length of the text in bytes, and an empty line.
-/

namespace Shorthand.Editor.Frame

open Text

/-- A text without the blanks at its ends. -/
def trim (s : List Char) : List Char :=
  ((s.dropWhile isBlank).reverse.dropWhile isBlank).reverse

/-- The length that a header line gives, if it is the line for it. -/
def lengthOfLine? (line : String) : Option Nat :=
  let name := Span.ofClass (· != ':') line.toList
  if lower (String.ofList (trim name.read)) == "content-length" then
    let digits := trim (name.rest.drop 1)
    if digits.all Char.isDigit then decimal? digits else none
  else none

/-- Whether a line is the empty one that ends a header. -/
def endsHeader (line : String) : Bool := (trim line.toList).isEmpty

/-- A text with its header. -/
def wrap (text : String) : String :=
  let size := text.utf8ByteSize
  s!"Content-Length: {size}\r\n\r\n" ++ text

end Shorthand.Editor.Frame

namespace Shorthand.Editor

/-- How far the life of a server has come. -/
inductive Stage where
  | fresh
  | running
  | shutDown
  deriving Repr, DecidableEq

/-- The stage after an event. -/
def Stage.after (stage : Stage) : Event → Stage
  | .connected _ => .running
  | .shutdown => .shutDown
  | _ => stage

/-- Why a text of the editor is refused. -/
inductive Refusal where
  | unreadable
  | invalidRequest
  | unknownMethod
  | invalidParams
  | notConnected
  deriving Repr, DecidableEq

namespace Refusal

/-- The number of a refusal in the protocol. -/
def code : Refusal → Int
  | .unreadable => -32700
  | .invalidRequest => -32600
  | .unknownMethod => -32601
  | .invalidParams => -32602
  | .notConnected => -32002

/-- What the editor is told. -/
def message : Refusal → String
  | .unreadable => "Parse error"
  | .invalidRequest => "Invalid request"
  | .unknownMethod => "Method not found"
  | .invalidParams => "Invalid params"
  | .notConnected => "Server not initialized"

def ofCallError : CallError → Refusal
  | .unknownMethod => .unknownMethod
  | .invalidParams => .invalidParams

end Refusal

/-- A server. -/
structure Server where
  session : Session := {}
  stage : Stage := .fresh
  /-- How many requests the server has made, which gives the next one its id. -/
  requests : Nat := 0
  deriving Repr

/-- What comes of a text: the server after it, what it sends, and whether it goes on. -/
structure Reaction where
  server : Server
  sent : List Json := []
  goesOn : Bool := true
  deriving Repr

namespace Server

def protocolVersion : String × Json := ("jsonrpc", .string "2.0")

/-- The answer to a request. -/
def answer (id result : Json) : Json :=
  .object [protocolVersion, ("result", result), ("id", id)]

/-- The refusal of a request. -/
def refuse (id : Json) (reason : Refusal) : Json :=
  .object
    [protocolVersion,
     ("error",
      .object [("code", .integer reason.code), ("message", .string reason.message)]),
     ("id", id)]

/-- The texts of the messages that follow the first `requests` requests. -/
def messageTexts (requests : Nat) : List Message → List Json
  | [] => []
  | m :: rest =>
    let call := [protocolVersion, ("method", .string m.method), ("params", m.params)]
    if m.isRequest then
      .object (call ++ [("id", .integer requests)]) :: messageTexts (requests + 1) rest
    else .object call :: messageTexts requests rest

/-- Lets the session react to an event. Returns the answer as well. -/
def react (e : Event) (s : Server) : Json × Reaction :=
  let outcome := s.session.step e
  let server :=
    { session := outcome.session
      stage := s.stage.after e
      requests := s.requests + (outcome.messages.filter Message.isRequest).length }
  (outcome.response.toJson, { server, sent := messageTexts s.requests outcome.messages })

/-- Whether a call has to wait for another stage, and what it is told then. -/
def refusal? (stage : Stage) (call : Call) : Option Refusal :=
  match stage, call with
  | .fresh, .event (.connected _) => none
  | .fresh, _ => some .notConnected
  | .running, .event (.connected _) => some .invalidRequest
  | .running, _ => none
  | .shutDown, _ => some .invalidRequest

/-- Carries out a call. The answer to it is sent after the messages that it causes. -/
def carryOut (id : Option Json) (call : Call) (s : Server) : Reaction :=
  match call, refusal? s.stage call with
  | .exit, _ => { server := s, goesOn := false }
  | _, some reason => { server := s, sent := id.toList.map (refuse · reason) }
  | .resolve item, none => { server := s, sent := id.toList.map (answer · item) }
  | .event e, none =>
    let (result, reaction) := s.react e
    { reaction with sent := reaction.sent ++ id.toList.map (answer · result) }

/-- Reacts to a text of the editor. -/
def receive (text : String) (s : Server) : Reaction :=
  match Json.ofString? text with
  | none => { server := s, sent := [refuse .null .unreadable] }
  | some j =>
    let id := j.get? "id"
    match j.get? "method" with
    | some (.string method) =>
      match Call.ofMethod method ((j.get? "params").getD .null) with
      | .ok call => s.carryOut id call
      | .error e => { server := s, sent := id.toList.map (refuse · (.ofCallError e)) }
    | some _ => { server := s, sent := [refuse (id.getD .null) .invalidRequest] }
    | none => { server := s }

end Server

end Shorthand.Editor
