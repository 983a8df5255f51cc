/-!
# Tokens

Positions in a text, the reserved words, and the tokens that a text is made of.
-/

namespace Easel

/-- A place in a text: the line counted from 1, the column from 0, in characters. -/
structure Position where
  line : Nat
  column : Nat
deriving DecidableEq, Repr

namespace Position

/-- Where every text starts. -/
def start : Position := ⟨1, 0⟩

/-- The place after one character. -/
def advance (p : Position) (c : Char) : Position :=
  if c = '\n' then ⟨p.line + 1, 0⟩ else ⟨p.line, p.column + 1⟩

/-- The place after a run of characters. -/
def advanceAll (p : Position) (cs : List Char) : Position :=
  cs.foldl advance p

end Position

/-- The reserved words. -/
inductive Keyword
  | pen | paper | color | line | rect | circle | repeat | set
deriving DecidableEq, Repr

namespace Keyword

/-- The lower-case spelling. -/
def spelling : Keyword → String
  | pen => "pen"
  | paper => "paper"
  | color => "color"
  | line => "line"
  | rect => "rect"
  | circle => "circle"
  | .repeat => "repeat"
  | set => "set"

def all : List Keyword := [pen, paper, color, line, rect, circle, .repeat, set]

/-- The reserved word with this spelling; upper and lower case of ASCII letters are the same. -/
def ofWord? (word : String) : Option Keyword :=
  all.find? fun k => k.spelling == word.map Char.toLower

theorem ofWord?_eq_some_iff (word : String) (k : Keyword) :
    ofWord? word = some k ↔ word.map Char.toLower = k.spelling := by
  unfold ofWord?
  constructor
  · intro h
    have hk := List.find?_some h
    exact (beq_iff_eq.1 hk).symm
  · intro h
    rw [h]
    cases k <;> decide

end Keyword

inductive TokenKind
  | command | identifier | number | operator | comment | blank
deriving DecidableEq, Repr

/-- A token with its text and the place of its first character. The text of a comment is what
follows the two slashes, trimmed. -/
structure Token where
  kind : TokenKind
  text : String
  position : Position
deriving DecidableEq, Repr

namespace Token

/-- Whether this is the operator `op`. -/
def isOperator (t : Token) (op : Char) : Bool :=
  t.kind = .operator && t.text.toList == [op]

/-- Whether the grammar looks at this token; blanks and comments only lay the text out. -/
def isGrammatical (t : Token) : Bool :=
  match t.kind with
  | .blank | .comment => false
  | _ => true

end Token

end Easel
