import Easel.Number.Whole
import Easel.Program.Parser
import Easel.Surface

/-!
# Running programs

A machine is a surface and a table of variables. Commands act on it from left to right; a repeat acts
`iterations count` times.
-/

namespace Easel

/-! ## Variables -/

/-- Names with their last values, by increasing name. -/
structure Variables where
  entries : List (String × Float)

namespace Variables

def empty : Variables := ⟨[]⟩

/-- Puts a value in the place of an equal name, or before the first greater one. -/
def insert (name : String) (value : Float) : List (String × Float) → List (String × Float)
  | [] => [(name, value)]
  | (n, v) :: rest =>
    if name = n then (name, value) :: rest
    else if name < n then (name, value) :: (n, v) :: rest
    else (n, v) :: insert name value rest

def assign (vars : Variables) (name : String) (value : Float) : Variables :=
  ⟨insert name value vars.entries⟩

def get? (vars : Variables) (name : String) : Option Float :=
  vars.entries.lookup name

end Variables

/-! ## Machines -/

/-- A surface with the variables of the program that draws on it. -/
structure Machine (σ : Type) where
  vars : Variables
  surface : σ

/-- How often a repeat runs: the whole part of its count, at most `2^64 - 1`, and not at all if the
count is negative or not finite. -/
def iterations (count : Float) : Nat :=
  min (Number.wholePart count) Number.greatestWord

section
variable {σ : Type} [Surface σ]

mutual

/-- What a command makes of a machine. -/
def Command.run (m : Machine σ) : Command → Machine σ
  | .draw call => { m with surface := Surface.apply m.surface call }
  | .set name value => { m with vars := m.vars.assign name value }
  | .repeat count body => Nat.repeat (fun m => runAll m body) (iterations count) m
  | .comment => m

/-- What commands in a row make of a machine. -/
def runAll (m : Machine σ) : List Command → Machine σ
  | [] => m
  | c :: cs => runAll (c.run m) cs

end

namespace Machine

/-- A machine with no variables set. -/
def fresh (surface : σ) : Machine σ := ⟨.empty, surface⟩

/-- Runs a program. The variables set before are forgotten first, the surface stays as it is. -/
def execute (m : Machine σ) (p : Program) : Machine σ :=
  runAll (fresh m.surface) p

/-- Reads a text and runs it. -/
def play (m : Machine σ) (source : String) : Except SyntaxError (Machine σ) := do
  return m.execute (← Program.read source)

end Machine

end

end Easel
