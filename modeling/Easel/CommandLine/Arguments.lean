import Easel.CommandLine.Request
import Easel.Number.Whole

/-!
# Arguments

A reader of command lines, which stands in where the program is run by itself: a task, the file it works on, and
switches. A switch has a long name, some a letter too, and some take a value, which may stand in the same argument or in
the next one.

Arguments are read from left to right, and the first thing that ends the reading decides
(`Arguments.read`). What is printed then are words of its own (`Arguments.exit`).
-/

namespace Easel.CommandLine

/-- What ends the reading of arguments before there is a request. -/
inductive Stop
  | usage
  | help
  | version
deriving DecidableEq, Repr

namespace Arguments

/-! ## Switches -/

inductive Switch
  | verbose | help | version | out | width | height | preview
deriving DecidableEq, Repr

namespace Switch

def long : Switch → String
  | verbose => "verbose"
  | help => "help"
  | version => "version"
  | out => "out"
  | width => "width"
  | height => "height"
  | preview => "preview"

def letter? : Switch → Option Char
  | verbose => some 'v'
  | help => some 'h'
  | version => some 'V'
  | out => some 'o'
  | _ => none

def takesValue : Switch → Bool
  | out | width | height => true
  | _ => false

end Switch

/-- The names of the tasks. -/
inductive Name
  | run | check | tokens | ast | trace
deriving DecidableEq, Repr

def Name.ofWord? : String → Option Name
  | "run" => some .run
  | "check" => some .check
  | "tokens" => some .tokens
  | "ast" => some .ast
  | "trace" => some .trace
  | _ => none

/-- The switches before the task, and after it. -/
def known : Option Name → List Switch
  | none => [.verbose, .help, .version]
  | some .run => [.verbose, .help, .out, .width, .height, .preview]
  | some _ => [.verbose, .help]

/-! ## What is given so far -/

/-- The switches and files given so far, none of them twice. -/
structure Given where
  verbose : Bool := false
  preview : Bool := false
  out : Option String := none
  width : Option Nat := none
  height : Option Nat := none
  file : Option String := none

/-- A number of cells: digits after at most one plus sign, less than `2^64`. -/
def number? (text : String) : Option Nat :=
  let digits :=
    match text.toList with
    | '+' :: cs => cs
    | cs => cs
  let n := digits.foldl (fun n c => 10 * n + (c.toNat - '0'.toNat)) 0
  if !digits.isEmpty && digits.all Char.isDigit && n ≤ Number.greatestWord then some n else none

namespace Given

/-- Notes a switch without a value. -/
def turnOn (g : Given) : Switch → Except Stop Given
  | .verbose => if g.verbose then .error .usage else .ok { g with verbose := true }
  | .preview => if g.preview then .error .usage else .ok { g with preview := true }
  | .help => .error .help
  | .version => .error .version
  | _ => .error .usage

/-- Notes a switch with its value. -/
def assign (g : Given) (value : String) : Switch → Except Stop Given
  | .out => if g.out.isSome || value.isEmpty then .error .usage else .ok { g with out := some value }
  | .width =>
    match g.width, number? value with
    | none, some n => .ok { g with width := some n }
    | _, _ => .error .usage
  | .height =>
    match g.height, number? value with
    | none, some n => .ok { g with height := some n }
    | _, _ => .error .usage
  | _ => .error .usage

/-- Notes the file. -/
def addFile (g : Given) (file : String) : Except Stop Given :=
  if g.file.isSome || file.isEmpty then .error .usage else .ok { g with file := some file }

end Given

/-! ## Single arguments -/

/-- A lone dash is a value. -/
def isSwitch (argument : String) : Bool :=
  match argument.toList with
  | '-' :: _ :: _ => true
  | _ => false

/-- A long name, with a value if an equals sign follows it. The second result is the switch that still
needs a value. -/
def readLong (allowed : List Switch) (g : Given) (text : List Char) : Except Stop (Given × Option Switch) :=
  let name := String.ofList (text.takeWhile (· ≠ '='))
  match allowed.find? (·.long == name), text.dropWhile (· ≠ '=') with
  | none, _ => .error .usage
  | some s, [] => if s.takesValue then .ok (g, some s) else (g.turnOn s).map (·, none)
  | some s, _ :: value =>
    if s.takesValue then (g.assign (String.ofList value) s).map (·, none) else .error .usage

/-- Letters, of which the first that takes a value takes the rest, without an equals sign before it. The
second result is the switch that still needs a value. -/
def readLetters (allowed : List Switch) (g : Given) : List Char → Except Stop (Given × Option Switch)
  | [] => .ok (g, none)
  | c :: cs =>
    match allowed.find? (·.letter? == some c) with
    | none => .error .usage
    | some s =>
      if s.takesValue then
        match cs with
        | [] => .ok (g, some s)
        | '=' :: value => (g.assign (String.ofList value) s).map (·, none)
        | value => (g.assign (String.ofList value) s).map (·, none)
      else
        match g.turnOn s with
        | .error e => .error e
        | .ok g => readLetters allowed g cs

/-- A switch. -/
def readSwitch (allowed : List Switch) (g : Given) (argument : String) : Except Stop (Given × Option Switch) :=
  match argument.toList with
  | '-' :: '-' :: name => readLong allowed g name
  | _ :: letters => readLetters allowed g letters
  | [] => .error .usage

/-! ## All arguments -/

/-- The arguments after the task. Two dashes alone end the switches. -/
def readTask (name : Name) (g : Given) : List String → Except Stop Given
  | [] => .ok g
  | a :: rest =>
    if a = "--" then rest.foldlM Given.addFile g
    else if isSwitch a then
      match readSwitch (known (some name)) g a, rest with
      | .error e, _ => .error e
      | .ok (g, none), rest => readTask name g rest
      | .ok (_, some _), [] => .error .usage
      | .ok (g, some s), value :: rest =>
        if isSwitch value then .error .usage
        else
          match g.assign value s with
          | .error e => .error e
          | .ok g => readTask name g rest
    else
      match g.addFile a with
      | .error e => .error e
      | .ok g => readTask name g rest

/-- The task with the switches that were given to it. -/
def task (g : Given) : Name → Task
  | .run => .run ⟨g.out, g.width, g.height, g.preview⟩
  | .check => .check
  | .tokens => .tokens
  | .ast => .ast
  | .trace => .trace

/-- What follows the word `help`: nothing, or one word that help can be given on. -/
def readHelp : List String → Stop
  | [] => .help
  | [word] => if word = "help" ∨ (Name.ofWord? word).isSome then .help else .usage
  | _ => .usage

/-- The request that the arguments make. The switches before the task are on their own: they may be
given once more after it. -/
def readFrom (g : Given) : List String → Except Stop Request
  | [] => .error .usage
  | a :: rest =>
    if a = "help" then .error (readHelp rest)
    else
      match Name.ofWord? a with
      | some name => do
        let given ← readTask name {} rest
        match given.file with
        | some file => .ok ⟨task given name, file, g.verbose || given.verbose⟩
        | none => .error .usage
      | none =>
        if isSwitch a ∧ a ≠ "--" then
          match readSwitch (known none) g a with
          | .ok (g, none) => readFrom g rest
          | .ok (_, some _) => .error .usage
          | .error e => .error e
        else .error .usage

/-- The request that the arguments make. -/
def read (arguments : List String) : Except Stop Request :=
  readFrom {} arguments

/-! ## Ends -/

def versionText : String := "dbn 0.1.0\n"

def usageText : String :=
  "Usage: dbn [-v] run FILE [-o PATH] [--width N] [--height N] [--preview]\n" ++
  "       dbn [-v] check|tokens|ast|trace FILE\n" ++
  "       dbn --version\n"

def exit : Stop → Exit
  | .usage => ⟨2, "", usageText⟩
  | .help => ⟨0, usageText, ""⟩
  | .version => ⟨0, versionText, ""⟩

/-- The request that the arguments make, or how they end the program. -/
def parse (arguments : List String) : Except Exit Request :=
  (read arguments).mapError exit

end Arguments

end Easel.CommandLine
