import Easel.Yaml.Scalar

/-!
# Writing documents

A document is a tree of scalars, lists and mappings, some of them with a tag. It is written in block
style: an item of a list after a dash, a value after its key, and what does not fit on that line below
it. A list in a mapping is no deeper than its key; everything else is two columns deeper.
-/

namespace Easel.Yaml

inductive Node
  /-- Written as it is: a number. -/
  | number (text : String)
  /-- A text, with quotes where they are needed. -/
  | text (text : String)
  | list (items : List Node)
  | mapping (entries : List (String × Node))
  | tagged (tag : String) (node : Node)

/-! ## Columns -/

namespace Line

/-- A line two columns further to the right. -/
def indent (l : Line) : Line := { l with column := l.column + 2 }

/-- Lines with a mark of two characters before the first, and the others below what follows it. -/
def hang (mark : String) : List Line → List Line
  | [] => []
  | l :: ls => { l with text := mark ++ l.text } :: ls.map indent

/-- Lines of which the first follows `head` on its line. -/
def follow (head : String) : List Line → List Line
  | [] => []
  | l :: ls => { l with text := head ++ " " ++ l.text } :: ls

/-- A line as it is written; an empty one has no blanks. -/
def render (l : Line) : String :=
  let margin := if l.text = "" then "" else String.ofList (List.replicate l.column ' ')
  (margin ++ l.text).push l.ending

end Line

namespace Node

def float (x : Float) : Node := .number (Scalar.ofFloat x)

def nat (n : Nat) : Node := .number (toString n)

/-- The lines of a value that has `lines` of its own, after its key. -/
def put (head : String) (lines : List Line) : Node → List Line
  | .list (_ :: _) => .plain head :: lines
  | .mapping (_ :: _) => .plain head :: lines.map Line.indent
  | _ => Line.hang (head ++ " ") lines

/-- Keys longer than this take a line of their own, after a question mark. -/
def longestKey : Nat := 128

/-- The lines of an entry. -/
def entry (key : String) (lines : List Line) (value : Node) : List Line :=
  let keyLines := Scalar.write key
  if key.utf8ByteSize ≤ longestKey then
    put (String.join (keyLines.map Line.text) ++ ":") lines value
  else Line.hang "? " keyLines ++ Line.hang ": " lines

/-! ## Lines -/

mutual

/-- The lines of a node, from its own column on. -/
def lines : Node → List Line
  | .number s => [.plain s]
  | .text s => Scalar.write s
  | .list [] => [.plain "[]"]
  | .list items => itemLines items
  | .mapping [] => [.plain "\x7b\x7d"]
  | .mapping entries => entryLines entries
  | .tagged tag node =>
    match node with
    | .list (_ :: _) | .mapping (_ :: _) => .plain ("!" ++ tag) :: lines node
    | _ => Line.follow ("!" ++ tag) (lines node)

def itemLines : List Node → List Line
  | [] => []
  | n :: ns => Line.hang "- " (lines n) ++ itemLines ns

def entryLines : List (String × Node) → List Line
  | [] => []
  | (key, value) :: es => entry key (lines value) value ++ entryLines es

end

/-- The whole document. -/
def render (n : Node) : String :=
  String.join (n.lines.map Line.render)

end Node

end Easel.Yaml
