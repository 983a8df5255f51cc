import Easel.Yaml.Token

/-!
# Quoted scalars

In single quotes a doubled quote is the only escape; in double quotes a backslash starts one. Line
breaks fold, and no document mark may stand at the start of a line.
-/

namespace Easel.Yaml.Token

/-- The characters that a backslash and one letter stand for. -/
def escapes : List (Char × Nat) :=
  [('0', 0x00), ('a', 0x07), ('b', 0x08), ('t', 0x09), ('\t', 0x09), ('n', 0x0A), ('v', 0x0B), ('f', 0x0C),
   ('r', 0x0D), ('e', 0x1B), (' ', 0x20), ('"', 0x22), ('/', 0x2F), ('\\', 0x5C), ('N', 0x85), ('_', 0xA0),
   ('L', 0x2028), ('P', 0x2029)]

/-- How many hexadecimal digits a letter takes after a backslash. -/
def escapeWidth? : Char → Option Nat
  | 'x' => some 2
  | 'u' => some 4
  | 'U' => some 8
  | _ => none

/-- The character that the text after a backslash stands for, and the length of that text. -/
def unescape? : List Char → Option (Char × Nat)
  | [] => none
  | c :: cs =>
    match escapeWidth? c with
    | some width => do
      if cs.length < width then none
      let code ← hexDigits? (cs.take width)
      if code.isValidChar then return (Char.ofNat code, width + 1) else none
    | none => (escapes.lookup c).map fun code => (Char.ofNat code, 1)

/-- A run of characters of a quoted scalar. -/
structure Chunk where
  text : List Char
  length : Nat
  /-- Whether a backslash at the end of a line ended the run. -/
  joined : Bool

/-- The characters of a quoted scalar up to a blank, a line break or the closing quote. -/
def chunk? (quote : Char) : Nat → List Char → Option Chunk
  | 0, _ => some ⟨[], 0, false⟩
  | fuel + 1, cs =>
    let more (c : Char) (n : Nat) : Option Chunk := do
      let k ← chunk? quote fuel (cs.drop n)
      return ⟨c :: k.text, n + k.length, k.joined⟩
    match cs with
    | [] => some ⟨[], 0, false⟩
    | c :: rest =>
      if isGap c then some ⟨[], 0, false⟩
      else if c == quote then
        if quote == '\'' && (rest.take 1).contains quote then more quote 2 else some ⟨[], 0, false⟩
      else if c == '\\' && quote == '"' then
        if (rest.take 1).any isBreak then some ⟨[], 2, true⟩
        else do
          let (escaped, n) ← unescape? rest
          more escaped (n + 1)
      else more c 1

/-- What a gap after a chunk stands for. After a joined line all of its line breaks count. -/
def foldAfter (k : Chunk) (gap : List Char) : List Char :=
  if k.joined then gap.filter isBreak else fold gap

/-- The rest of a quoted scalar after its opening quote. There are fewer characters left than `fuel`. -/
def quotedFrom? (quote : Char) : Nat → Cursor → Option (List Char × Cursor)
  | 0, _ => none
  | fuel + 1, c => do
    if c.isDocumentMark || c.rest.isEmpty then none
    let k ← chunk? quote fuel c.rest
    let c := c.drop k.length
    if (c.rest.take 1).contains quote then return (k.text, c.drop 1)
    else
      let gap := c.rest.takeWhile isGap
      let (text, c) ← quotedFrom? quote fuel (c.drop gap.length)
      return (k.text ++ foldAfter k gap ++ text, c)

/-- A quoted scalar after its opening quote. -/
def quoted? (quote : Char) (c : Cursor) : Option (Token × Cursor) := do
  let (text, c) ← quotedFrom? quote (c.rest.length + 1) c
  let spelling := if quote == '"' then .doubleQuoted else .singleQuoted
  return (.scalar spelling (String.ofList text), c)

end Easel.Yaml.Token
