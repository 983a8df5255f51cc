import Easel.CommandLine.Arguments
import Easel.CommandLine.Program

/-!
# The executable

The program on the files and streams of the system, with a reader of command lines and a library for documents of its
own.
-/

namespace Easel.CommandLine

/-- An error of the system in the words of the library. -/
def fileError : IO.Error → FileError
  | .inappropriateType _ 20 _ => .notDirectory
  | .inappropriateType .. => .isDirectory
  | .invalidArgument _ 36 _ => .nameTooLong
  | .permissionDenied .. => .denied
  | _ => .notFound

/-- The result of an action, its error included. -/
def attempt {α : Type} (action : IO α) : IO (Except FileError α) := do
  try
    return .ok (← action)
  catch e => return .error (fileError e)

def Severity.label : Severity → String
  | trace => "TRACE"
  | debug => "DEBUG"
  | info => "INFO"
  | warning => "WARN"

/-- Whether the log shows an event. -/
def isShown (verbose : Bool) (event : Event) : Bool :=
  match event.severity with
  | .trace => false
  | .debug | .info => verbose
  | .warning => true

instance : Host IO where
  settingsFile := attempt do
    let home := (← IO.getEnv "HOME").getD "."
    IO.FS.readBinFile (home ++ "/" ++ settingsPath)
  readFile path := attempt (IO.FS.readBinFile path)
  readInput := do (← IO.getStdin).readBinToEnd
  writeFile path bytes := attempt (IO.FS.writeBinFile path bytes)
  print text := do
    let out ← IO.getStdout
    out.putStr text
    out.flush
  printError text := do (← IO.getStderr).putStr text
  log verbose events := do
    let out ← IO.getStderr
    for event in events do
      if isShown verbose event then out.putStr (event.severity.label ++ " " ++ event.message ++ "\n")

end Easel.CommandLine

def main (arguments : List String) : IO UInt32 :=
  Easel.CommandLine.execute ⟨Easel.CommandLine.Arguments.parse, Easel.Yaml.Tree.library⟩ arguments
