import Easel.Yaml.Character

/-!
# Cursors

A cursor is a place in a document with the text from there on. Line breaks in that text are line feeds
or the separators of Unicode.
-/

namespace Easel.Yaml

/-- A place: its line, its column in that line in characters, and its offset from the start of the
document in bytes. -/
structure Mark where
  line : Nat
  column : Nat
  offset : Nat
deriving DecidableEq, Repr

/-- The place after a character. -/
def Mark.advance (m : Mark) (c : Char) : Mark :=
  let offset := m.offset + c.utf8Size
  if isBreak c then ⟨m.line + 1, 0, offset⟩ else ⟨m.line, m.column + 1, offset⟩

structure Cursor where
  mark : Mark
  rest : List Char
deriving DecidableEq, Repr

namespace Cursor

def column (c : Cursor) : Nat := c.mark.column

/-- Past the next `n` characters. -/
def drop (n : Nat) (c : Cursor) : Cursor :=
  ⟨(c.rest.take n).foldl Mark.advance c.mark, c.rest.drop n⟩

/-- Past the next characters that satisfy `p`. -/
def dropWhile (p : Char → Bool) (c : Cursor) : Cursor := c.drop (c.rest.takeWhile p).length

/-- Whether the text goes on with `s`. -/
def startsWith (s : String) (c : Cursor) : Bool := s.toList.isPrefixOf c.rest

/-- Whether a line starts here with one of the marks between documents. -/
def isDocumentMark (c : Cursor) : Bool :=
  c.column = 0 && (c.startsWith "---" || c.startsWith "...") && endsWord (c.rest.drop 3)

/-- To the start of the next thing that is not a blank, a comment, or the end of a line. A byte order mark
at the start of a line counts as a blank. A tab counts as one only where `tabs`, and beyond the end of a
line only where `tabsBelow`. Also tells whether a line has ended. -/
def separation (tabsBelow : Bool) : Bool → Bool → Bool → Mark → List Char → Cursor × Bool
  | _, _, broken, m, [] => (⟨m, []⟩, broken)
  | tabs, inComment, broken, m, c :: cs =>
    if isBreak c then separation tabsBelow tabsBelow false true (m.advance c) cs
    else if inComment || c == ' ' || (c == '\t' && tabs) || (c == byteOrderMark && m.column = 0) then
      separation tabsBelow tabs inComment broken (m.advance c) cs
    else if c == '#' then separation tabsBelow tabs true broken (m.advance c) cs
    else (⟨m, c :: cs⟩, broken)

end Cursor

/-! ## Folding -/

/-- What a run of blanks and line breaks inside a scalar stands for. Blanks alone stand for themselves.
One line feed is a space; more of them lose the first. -/
def fold (gap : List Char) : List Char :=
  match gap.filter isBreak with
  | [] => gap
  | ['\n'] => [' ']
  | '\n' :: breaks => breaks
  | breaks => breaks

end Easel.Yaml
