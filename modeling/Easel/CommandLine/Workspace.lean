import Easel.CommandLine.Program

/-!
# Workspaces

A host without a machine: one directory of files, a standard input, a file of settings, and what has
been printed and noted so far. There are no directories in it and nothing but directories around it, apart from the
null device and the name that the standard input has as a file.
-/

namespace Easel.CommandLine

/-- What goes to the standard error: a text, or an event of the log. -/
inductive Note
  | text (text : String)
  | event (verbose : Bool) (event : Event)

/-- The text of a note, where `shown` is what the log makes of an event. It may depend on when that was. -/
def Note.render (shown : Nat → Bool → Event → String) (time : Nat) : Note → String
  | text s => s
  | event verbose e => shown time verbose e

structure Workspace where
  files : List (String × ByteArray)
  input : ByteArray
  settings : Option ByteArray
  printed : String
  notes : List Note

namespace Workspace

/-- The text on the standard error. -/
def errors (shown : Nat → Bool → Event → String) (w : Workspace) : String :=
  String.join (w.notes.mapIdx (Note.render shown))

/-- What a path leads to. -/
inductive Place
  | directory
  /-- A file, whether or not it is there. -/
  | file (name : String)
  /-- The name of a file with slashes after it. -/
  | slashed (name : String)
  /-- Something below a file. -/
  | below (name : String)
  /-- The device that holds nothing and takes everything. -/
  | nullDevice
  | input
  /-- Nothing, because the path is too long. -/
  | unreachable
deriving DecidableEq, Repr

/-- What the parts of a path lead to from a directory whose files have names that start with `base`. Empty
parts and single dots lead nowhere, and two dots lead out of the directory. -/
def locateFrom (base : String) : List String → Place
  | [] => .directory
  | part :: parts =>
    if part = "" ∨ part = "." then locateFrom base parts
    else if part = ".." then locateFrom (base ++ "../") parts
    else if parts.isEmpty then .file (base ++ part)
    else if parts.all (· = "") then .slashed (base ++ part)
    else .below (base ++ part)

/-- The greatest length of a path in bytes. -/
def longestPath : Nat := 4095

/-- What a path leads to. A path that starts with a slash leads out of the directory at once. -/
def locate (path : String) : Place :=
  if longestPath < path.utf8ByteSize then .unreachable
  else if path = "/dev/null" then .nullDevice
  else if path = "/dev/stdin" then .input
  else locateFrom (if path.startsWith "/" then "/" else "") (path.splitOn "/")

/-- The greatest length of the name of a file in bytes. -/
def longestName : Nat := 255

/-- Whether a name is too long, without the directories before it. -/
def isTooLong (name : String) : Bool :=
  longestName < ((name.splitOn "/").getLastD "").utf8ByteSize

/-- Why nothing is found where a file with this name is needed. -/
def missing (w : Workspace) (name : String) : FileError :=
  if isTooLong name then .nameTooLong
  else if (w.files.lookup name).isSome then .notDirectory
  else .notFound

def read (w : Workspace) (path : String) : Except FileError ByteArray :=
  match locate path with
  | .directory => .error .isDirectory
  | .slashed name | .below name => .error (w.missing name)
  | .file name =>
    match w.files.lookup name with
    | some bytes => .ok bytes
    | none => .error (w.missing name)
  | .nullDevice => .ok ByteArray.empty
  | .input => .ok w.input
  | .unreachable => .error .nameTooLong

/-- Replaces a file, or adds it. -/
def put (files : List (String × ByteArray)) (name : String) (bytes : ByteArray) : List (String × ByteArray) :=
  (name, bytes) :: files.filter (·.1 != name)

/-- A file cannot be made at the name of a directory, nor at a name with slashes after it. -/
def write (w : Workspace) (path : String) (bytes : ByteArray) : Except FileError Workspace :=
  match locate path with
  | .directory | .slashed _ => .error .isDirectory
  | .below name => .error (w.missing name)
  | .file name => if isTooLong name then .error .nameTooLong else .ok { w with files := put w.files name bytes }
  | .nullDevice | .input => .ok w
  | .unreachable => .error .nameTooLong

def settingsFile (w : Workspace) : Except FileError ByteArray :=
  match w.settings with
  | some bytes => .ok bytes
  | none => .error .notFound

def note (w : Workspace) (notes : List Note) : Workspace := { w with notes := w.notes ++ notes }

instance : Host (StateM Workspace) where
  settingsFile := return (← get).settingsFile
  readFile path := return (← get).read path
  readInput := return (← get).input
  writeFile path bytes := do
    match (← get).write path bytes with
    | .ok w => set w; return .ok ()
    | .error e => return .error e
  print text := modify fun w => { w with printed := w.printed ++ text }
  printError text := modify fun w => w.note [.text text]
  log verbose events := modify fun w => w.note (events.map (.event verbose))

/-- Runs the program here: the exit code, and the workspace afterwards. -/
def run (libraries : Libraries) (arguments : List String) (w : Workspace) : UInt32 × Workspace :=
  (execute libraries arguments : StateM Workspace UInt32).run w

end Workspace

end Easel.CommandLine
