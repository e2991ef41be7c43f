import Shorthand.Editor.Session

/-!
# CommandLine — the options of the program

The program speaks with its editor over standard input and output, and there is no other way; the
option for it is accepted because editors give it. It keeps no log of its own, so a log filter is
accepted and has no effect.
-/

namespace Shorthand.CommandLine

/-- The options of a run. -/
structure Flags where
  stdio : Bool := false
  logFilter : Option String := none
  deriving Repr, DecidableEq

/-- Why a command line is not understood. -/
inductive Misuse where
  | unexpected (argument : String)
  | repeated (option : String)
  | missingValue
  deriving Repr, DecidableEq

/-- What the program is asked to do. -/
inductive Action where
  | serve (flags : Flags)
  | showHelp
  | showVersion
  | reject (reason : Misuse)
  deriving Repr, DecidableEq

/-- How the log filter is written in messages. -/
def logOption : String := "--log-level <FILTER>"

/-- The lines about a misuse. -/
def Misuse.message : Misuse → String
  | .unexpected argument =>
    s!"error: unexpected argument '{argument}' found\n\nUsage: emmet-lsp [OPTIONS]"
  | .repeated option =>
    s!"error: the argument '{option}' cannot be used multiple times\n\nUsage: emmet-lsp [OPTIONS]"
  | .missingValue =>
    s!"error: a value is required for '{logOption}' but none was supplied"

/-- What every message about a misuse ends with. -/
def hint : String := "For more information, try '--help'."

def versionText : String := Editor.serverName ++ " " ++ Editor.serverVersion

def helpText : String :=
  "Emmet abbreviation expansion language server\n\n" ++
  "Usage: emmet-lsp [OPTIONS]\n\n" ++
  "Options:\n" ++
  "      --stdio               Communicate over stdin/stdout (the only supported transport)\n" ++
  "      --log-level <FILTER>  Log filter directives (e.g. \"emmet_lsp=debug\")\n" ++
  "  -h, --help                Print help\n" ++
  "  -V, --version             Print version"

/-- Takes a log filter, of which there may be one. -/
def setFilter (filter : String) (flags : Flags) : Except Misuse Flags :=
  if flags.logFilter.isSome then .error (.repeated logOption)
  else .ok { flags with logFilter := some filter }

/-- What the arguments ask for, after the options in `flags`. -/
def actionFrom (flags : Flags) : List String → Action
  | [] => .serve flags
  | "--help" :: _ => .showHelp
  | "-h" :: _ => .showHelp
  | "--version" :: _ => .showVersion
  | "-V" :: _ => .showVersion
  | "--stdio" :: rest =>
    if flags.stdio then .reject (.repeated "--stdio")
    else actionFrom { flags with stdio := true } rest
  | ["--log-level"] => .reject .missingValue
  | "--log-level" :: filter :: rest =>
    match setFilter filter flags with
    | .ok flags => actionFrom flags rest
    | .error reason => .reject reason
  | argument :: rest =>
    match "--log-level=".toList.isPrefixOf? argument.toList with
    | some filter =>
      match setFilter (String.ofList filter) flags with
      | .ok flags => actionFrom flags rest
      | .error reason => .reject reason
    | none => .reject (.unexpected argument)

/-- What the arguments ask for. -/
def action (arguments : List String) : Action := actionFrom {} arguments

end Shorthand.CommandLine
