/-!
# Characters of documents

Blanks, line breaks, and which characters a document may hold.
-/

namespace Easel.Yaml

def isBlank (c : Char) : Bool := c == ' ' || c == '\t'

/-- The line breaks: line feed, carriage return, next line, and the line and paragraph separators. -/
def isBreak (c : Char) : Bool :=
  let n := c.toNat
  n == 0x0A || n == 0x0D || n == 0x85 || n == 0x2028 || n == 0x2029

def isGap (c : Char) : Bool := isBlank c || isBreak c

/-- Whether a text is empty or starts with a blank or a line break. A NUL counts as the end. -/
def endsWord : List Char → Bool
  | [] => true
  | c :: _ => isGap c || c == '\x00'

/-- The characters that are written as they are. -/
def isPrintable (c : Char) : Bool :=
  let n := c.toNat
  n == 0x0A || (0x20 ≤ n && n ≤ 0x7E) || (0xA0 ≤ n && n != 0xFEFF && n != 0xFFFE && n != 0xFFFF)

/-- The characters that a document may hold. Control characters other than tabs and line breaks are
refused. -/
def isAllowed (c : Char) : Bool :=
  c == '\t' || c == '\r' || c.toNat == 0x85 || c.toNat == 0xFEFF || isPrintable c

/-- The mark that may stand at the start of a text to show its encoding. -/
def byteOrderMark : Char := '\uFEFF'

/-- The encoding of a text. -/
def octets (text : String) : List UInt8 := text.toUTF8.toList

/-- A document with its line breaks made line feeds, the separators of Unicode excepted. -/
def normalizeBreaks : List Char → List Char
  | '\r' :: '\n' :: cs => '\n' :: normalizeBreaks cs
  | c :: cs => (if c == '\r' || c.toNat == 0x85 then '\n' else c) :: normalizeBreaks cs
  | [] => []

end Easel.Yaml
