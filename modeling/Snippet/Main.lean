import Snippet.CommandLine
import Snippet.Config
import Snippet.Engine
import Snippet.Json.Writer

/-!
The command line program. It reads the files that the command line names, runs the snippet and prints
its report.
-/

namespace Snippet.CommandLine

def usage : String :=
  "Usage: snippet [-c FILE] run FILE [-l LANGUAGE] [--stdin FILE]\n" ++
  "       snippet [-c FILE] serve\n"

def Refusal.text : Refusal → String
  | .displayHelp => usage
  | .displayVersion => "snippet 0.1.0\n"
  | .unknownArgument => "error: unexpected argument\n\n" ++ usage
  | .invalidSubcommand => "error: unrecognized subcommand\n\n" ++ usage
  | .missingRequiredArgument => "error: a required argument was not provided\n\n" ++ usage
  | .invalidValue => "error: a value is required\n\n" ++ usage
  | .tooManyValues => "error: unexpected value\n\n" ++ usage
  | .argumentConflict => "error: an argument cannot be used multiple times\n\n" ++ usage

def Refusal.isAnswer (r : Refusal) : Bool := r == .displayHelp || r == .displayVersion

def reportText (r : Report) : String :=
  String.ofList (Json.write (.indented [' ', ' ']) r.toJson)

def readConfig (path? : Option String) : IO Config := do
  match path? with
  | none => return {}
  | some path =>
    match Config.ofText? (← IO.FS.readFile path) with
    | some config => return config
    | none => throw (IO.userError "Failed to load configuration")

def runFile (config : Config) (file : String) (language stdin : Option String) : IO Unit := do
  let source ← IO.FS.readFile file
  let input ←
    match stdin with
    | some path => IO.FS.readFile path
    | none => pure ""
  let budget := Budget.ofMilliseconds config.engine.timeLimitMs
  let report := Engine.execute budget source (language.getD (languageOfPath file)) input
  IO.println (reportText report)

def perform (c : CommandLine) : IO UInt32 := do
  let config ← readConfig c.config
  match c.command with
  | some (.run file language stdin) =>
    runFile config file language stdin
    return 0
  | _ =>
    IO.eprintln "Serving requests needs a network, which this program does not have."
    return 1

end Snippet.CommandLine

def main (arguments : List String) : IO UInt32 := do
  match Snippet.CommandLine.ofArguments arguments with
  | .ok c => c.perform
  | .error refusal =>
    if refusal.isAnswer then
      IO.print refusal.text
      return 0
    else
      IO.eprint refusal.text
      return 2
