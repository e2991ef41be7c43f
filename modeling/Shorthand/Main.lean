import Shorthand.CommandLine
import Shorthand.Editor.Server
import Shorthand.Json.Basic

/-!
# The program

A language server over standard input and output: texts of the editor are read and given to the
server, and what the server sends is written.
-/

namespace Shorthand.Main

open Editor

/-- Reads the rest of a header, and the length it gives. None at the end of the input. -/
partial def readHeader (input : IO.FS.Stream) (length : Option Nat) : IO (Option Nat) := do
  let line ← input.getLine
  if line.isEmpty then return none
  else if Frame.endsHeader line then return some (length.getD 0)
  else readHeader input ((Frame.lengthOfLine? line).or length)

/-- Reads `missing` bytes, or what is left of the input. -/
partial def readBytes (input : IO.FS.Stream) (missing : Nat) (read : ByteArray) : IO ByteArray := do
  if missing = 0 then return read
  let chunk ← input.read missing.toUSize
  if chunk.isEmpty then return read
  readBytes input (missing - chunk.size) (read ++ chunk)

/-- Serves an editor until it ends the session or its input ends. -/
partial def serve (input output : IO.FS.Stream) (server : Server) : IO Unit := do
  let some length ← readHeader input none | return
  let bytes ← readBytes input length .empty
  let reaction := server.receive ((String.fromUTF8? bytes).getD "")
  for text in reaction.sent do
    output.putStr (Frame.wrap text.compact)
  output.flush
  if reaction.goesOn then serve input output reaction.server

end Shorthand.Main

/-- Runs the program. -/
def main (arguments : List String) : IO UInt32 := do
  match Shorthand.CommandLine.action arguments with
  | .serve _ =>
    Shorthand.Main.serve (← IO.getStdin) (← IO.getStdout) {}
    return 0
  | .showHelp =>
    IO.println Shorthand.CommandLine.helpText
    return 0
  | .showVersion =>
    IO.println Shorthand.CommandLine.versionText
    return 0
  | .reject reason =>
    IO.eprintln (reason.message ++ "\n\n" ++ Shorthand.CommandLine.hint)
    return 2
