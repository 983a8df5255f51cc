import Easel.Canvas.Framebuffer
import Easel.CommandLine.Log
import Easel.CommandLine.Request
import Easel.Listing

/-!
# The program

What a request does, on any host that has files, two outputs and a log. A source is read before it is drawn,
and it is drawn before any file is written; a request that fails prints nothing to the standard output.

Command lines and documents are left to libraries (`Libraries`).
-/

namespace Easel.CommandLine

/-- A monad with the files and the streams of a program. -/
class Host (m : Type → Type) where
  /-- The file of settings in the home directory. -/
  settingsFile : m (Except FileError ByteArray)
  readFile (path : String) : m (Except FileError ByteArray)
  readInput : m ByteArray
  /-- Replaces what a file holds, or makes the file. -/
  writeFile (path : String) (bytes : ByteArray) : m (Except FileError Unit)
  print (text : String) : m Unit
  printError (text : String) : m Unit
  /-- Notes events in the log, which may show more if it is verbose. It shows them on the standard error. -/
  log (verbose : Bool) (events : List Event) : m Unit

/-- What the program is built on. -/
structure Libraries where
  /-- Reads a command line. -/
  arguments : List String → Except Exit Request
  yaml : Yaml.Library

inductive Failure
  | file (e : FileError)
  | source (e : SyntaxError)
  | document (reason : String)
  /-- An index is not within its buffer, which stops the program at once. -/
  | bounds
deriving DecidableEq, Repr

namespace Failure

def message : Failure → String
  | file e => e.message
  | source e => e.message
  | document reason => reason
  | bounds => "index out of bounds"

/-- The exit code. The system has one of its own for a program that was stopped. -/
def code : Failure → UInt32
  | bounds => 101
  | _ => 1

/-- What is printed. The words for a program that was stopped are the system's. -/
def report : Failure → String
  | bounds => "panic: " ++ bounds.message ++ "\n"
  | failure => "error: " ++ failure.message ++ "\n"

end Failure

section
variable {m : Type → Type} [Monad m] [Host m]

instance : Host (ExceptT Failure m) where
  settingsFile := ExceptT.lift Host.settingsFile
  readFile path := ExceptT.lift (Host.readFile path)
  readInput := ExceptT.lift Host.readInput
  writeFile path bytes := ExceptT.lift (Host.writeFile path bytes)
  print text := ExceptT.lift (Host.print text)
  printError text := ExceptT.lift (Host.printError text)
  log verbose events := ExceptT.lift (Host.log verbose events)

/-- A path that names the standard input: a dash, which slashes and single dots may follow. -/
def isInput (path : String) : Bool :=
  match path.splitOn "/" with
  | "-" :: rest => rest.all fun part => part == "" || part == "."
  | _ => false

/-- The text of a source file. -/
def readSource (path : String) : ExceptT Failure m String := do
  let bytes ← if isInput path then Except.ok <$> Host.readInput else Host.readFile path
  match bytes >>= FileError.decode with
  | .ok text => return text
  | .error e => throw (.file e)

/-- A source file as a program. -/
def readProgram (r : Request) : ExceptT Failure m Program := do
  let source ← readSource r.file
  Host.log r.verbose ((Program.strays source).map .stray)
  match Program.read source with
  | .ok p => return p
  | .error e => throw (.source e)

/-- The settings of the user, or the defaults if there are none. -/
def readSettings (yaml : Yaml.Library) (r : Request) : ExceptT Failure m Settings := do
  match Settings.load yaml (← Host.settingsFile) with
  | .ok settings =>
    Host.log r.verbose [.settings settings]
    return settings
  | .error reason =>
    Host.log r.verbose [.noSettings reason]
    return {}

def printDocument (yaml : Yaml.Library) (node : Yaml.Node) : ExceptT Failure m Unit :=
  match yaml.write node with
  | .ok text => Host.print text
  | .error reason => throw (.document reason)

/-! ## Tasks -/

/-- The size of a drawing. -/
def Drawing.size (d : Drawing) (settings : Settings) : Nat × Nat :=
  (d.width.getD settings.width, d.height.getD settings.height)

/-- What a program leaves of a blank framebuffer. -/
def Drawing.machine (d : Drawing) (settings : Settings) (program : Program) : Machine (Option Framebuffer) :=
  let (width, height) := d.size settings
  (Machine.fresh (some (.blank (UInt64.ofNat width) (UInt64.ofNat height)))).execute program

/-- What there is, unless an index was out of bounds. -/
def within {α : Type} : Option α → ExceptT Failure m α
  | some a => return a
  | none => throw .bounds

/-- Writes the image of a drawing if it is asked for. -/
def writeImage (r : Request) (d : Drawing) (f : Framebuffer) : ExceptT Failure m Unit :=
  match d.out with
  | none => return
  | some path => do
    match ← Host.writeFile path f.toPgm with
    | .ok () => Host.log r.verbose [.wroteImage path]
    | .error e => throw (.file e)

/-- Shows the preview of a drawing if it is asked for. -/
def showPreview (settings : Settings) (d : Drawing) (f : Framebuffer) : ExceptT Failure m Unit :=
  if d.preview then do Host.print (← within (f.preview? (UInt64.ofNat settings.previewColumns)))
  else return

/-- Draws a program, then writes the image, then shows the preview. -/
def draw (yaml : Yaml.Library) (r : Request) (d : Drawing) : ExceptT Failure m Unit := do
  let settings ← readSettings yaml r
  let program ← readProgram r
  let (width, height) := d.size settings
  Host.log r.verbose (.drawing program.length width height :: eventsAll program)
  let machine := d.machine settings program
  let f ← within machine.surface
  Host.log r.verbose [.finished machine.vars]
  writeImage r d f
  showPreview settings d f

/-- Does what a request says. -/
def Request.perform (yaml : Yaml.Library) (r : Request) : ExceptT Failure m Unit :=
  match r.task with
  | .run d => draw yaml r d
  | .check => do
    let program ← readProgram r
    Host.print ("ok: " ++ toString program.length ++ " top-level commands\n")
  | .tokens => do
    let source ← readSource r.file
    printDocument yaml (Listing.tokens (tokenize source))
  | .ast => do
    let program ← readProgram r
    printDocument yaml (Listing.program program)
  | .trace => do
    let settings ← readSettings yaml r
    let program ← readProgram r
    Host.log r.verbose (eventsAll program)
    let blank := Recording.blank (Float.ofNat settings.width) (Float.ofNat settings.height)
    printDocument yaml (Listing.trace ((Machine.fresh blank).execute program))

/-- Runs the program with its arguments. The result is the exit code. -/
def execute (libraries : Libraries) (arguments : List String) : m UInt32 := do
  match libraries.arguments arguments with
  | .error exit =>
    Host.print exit.printed
    Host.printError exit.printedErrors
    return exit.code
  | .ok request =>
    match ← (request.perform libraries.yaml).run with
    | .ok () => return 0
    | .error failure =>
      Host.printError failure.report
      return failure.code

end

end Easel.CommandLine
