/-!
# Requests

What the program is asked for on its command line. A library reads the command line; it ends the program itself where
there is nothing to do, after it has printed what there is to say (`Exit`).
-/

namespace Easel.CommandLine

/-- How to draw and what to do with the drawing. -/
structure Drawing where
  out : Option String
  width : Option Nat
  height : Option Nat
  preview : Bool
deriving DecidableEq, Repr

inductive Task
  | run (drawing : Drawing)
  | check
  | tokens
  | ast
  | trace
deriving DecidableEq, Repr

/-- A task for a file; the file `-` is the standard input. -/
structure Request where
  task : Task
  file : String
  /-- Whether the log shows more. -/
  verbose : Bool
deriving DecidableEq, Repr

/-- An end of the program before there is a request: its code, and what it prints to both outputs. -/
structure Exit where
  code : UInt32
  printed : String
  printedErrors : String
deriving DecidableEq, Repr

end Easel.CommandLine
