import Easel.Number.Whole
import Easel.Yaml.Node
import Easel.Yaml.Tree

/-!
# Libraries for documents

The program leaves documents to a library: it reads its settings from one and writes its listings as such. What it asks
for is a `Library`, and everything else takes one.

`Tree.library` reads a document as a tree and writes it line by line. It stands in where the program is run by itself.
-/

namespace Easel.Yaml

/-- Reads and writes documents. -/
structure Library where
  /-- What stands behind a key. -/
  Value : Type
  /-- The entries of a text that is a mapping whose keys are texts. A text that holds nothing has none. -/
  entries? (text : String) : Option (List (String × Value))
  /-- The number that a value is, if that is less than `2^64`. -/
  number? (value : Value) : Option Nat
  /-- A node as a text, or why there is none for it. -/
  write (node : Node) : Except String String

/-! ## Trees -/

namespace Tree

/-- The tag of integers. -/
def integerTag : List UInt8 := octets "tag:yaml.org,2002:int"

/-- A number is a plain scalar with any tag, or a literal one with the tag of integers. -/
def number? : Tree → Option Nat
  | .scalar s =>
    if s.spelling = .plain ∨ (s.spelling = .literal ∧ s.tag = some integerTag) then do
      let n ← Plain.natural? s.text.toList
      if n ≤ Number.greatestWord then some n else none
    else none
  | _ => none

/-- A key has to be a scalar. -/
def pair? : Tree × Tree → Option (String × Tree)
  | (.scalar key, value) => some (key.text, value)
  | _ => none

def entries? : Tree → Option (List (String × Tree))
  | .mapping entries => entries.mapM pair?
  | .scalar s => if s.spelling = .plain ∧ s.text = "" then some [] else none
  | _ => none

def library : Library where
  Value := Tree
  entries? text := do (← ofText? text).entries?
  number? := number?
  write node := .ok node.render

end Tree

end Easel.Yaml
