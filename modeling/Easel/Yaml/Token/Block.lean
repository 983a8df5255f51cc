import Easel.Yaml.Token

/-!
# Block scalars

The lines of a literal scalar stand for themselves, those of a folded one are joined. Both are indented
by the same number of columns, which the header gives or the first line shows.
-/

namespace Easel.Yaml.Token

/-- What becomes of the line breaks at the end of a block scalar. -/
inductive Chomping
  | strip | clip | keep
deriving DecidableEq, Repr

structure BlockHeader where
  chomping : Chomping
  /-- How far the lines are indented beyond the collection around them, if the header says so. -/
  increment : Option Nat

/-- The marks of a header, which may stand in either order. -/
def blockMarks? : List Char → Option (BlockHeader × Nat) :=
  let chomping? : Char → Option Chomping
    | '-' => some .strip
    | '+' => some .keep
    | _ => none
  let increment? (c : Char) : Option Nat := if c.isDigit then some (c.toNat - '0'.toNat) else none
  fun cs =>
    let header :=
      match (cs.take 2).map chomping?, (cs.take 2).map increment? with
      | some c :: _, [_, some i] => (⟨c, some i⟩, 2)
      | some c :: _, _ => (⟨c, none⟩, 1)
      | [_, some c], some i :: _ => (⟨c, some i⟩, 2)
      | _, some i :: _ => (⟨.clip, some i⟩, 1)
      | _, _ => (⟨.clip, none⟩, 0)
    if header.1.increment = some 0 then none else some header

/-- The header after its indicator, with the end of its line. -/
def blockHeader? (c : Cursor) : Option (BlockHeader × Cursor) := do
  let (header, n) ← blockMarks? c.rest
  let c := (c.drop n).dropWhile isBlank
  let c := if c.startsWith "#" then c.dropWhile (!isBreak ·) else c
  if (c.rest.take 1).all isBreak then return (header, c.drop 1) else none

/-- Empty lines, and the blanks before the next line as far as column `indent`, or all of them where
the indentation is not known yet. Gives the line breaks and the greatest column reached. -/
def emptyLines? (indent : Option Nat) (widest : Nat) : Nat → Cursor → Option (List Char × Nat × Cursor)
  | 0, _ => none
  | fuel + 1, c => do
    let spaces := (c.rest.takeWhile (· == ' ')).length
    let c := c.drop (match indent with | none => spaces | some n => min spaces (n - c.column))
    let widest := max widest c.column
    if indent.all (c.column < ·) && c.startsWith "\t" then none
    match c.rest.take 1 with
    | [b] =>
      if isBreak b then
        let (breaks, widest, c) ← emptyLines? indent widest fuel (c.drop 1)
        return (b :: breaks, widest, c)
      else return ([], widest, c)
    | _ => return ([], widest, c)

/-- A line break and the empty lines after it, as they are read between two lines of a block scalar. A
folded scalar loses a line feed between two lines that start with no blank. -/
def joinLines (spelling : Spelling) (startsBlank : Bool) (lead breaks : List Char) : List Char :=
  if spelling = .folded && lead == ['\n'] && !startsBlank then
    if breaks.isEmpty then [' '] else breaks
  else lead ++ breaks

/-- The lines of a block scalar from a cursor on, where `lead` and `breaks` came before. `wasBlank` tells
whether the line before started with a blank. There are fewer characters left than `fuel`. -/
def blockLines? (spelling : Spelling) (chomping : Chomping) (indent : Nat) (wasBlank : Bool)
    (lead breaks : List Char) : Nat → Cursor → Option (List Char × Cursor)
  | 0, _ => none
  | fuel + 1, c => do
    if c.column = indent && !c.rest.isEmpty then
      let isBlankLine := (c.rest.take 1).any isBlank
      let line := c.rest.takeWhile (!isBreak ·)
      let c := c.drop line.length
      let next := c.rest.take 1
      let (more, _, c) ← emptyLines? (some indent) 0 (fuel + 1) (c.drop 1)
      let (text, c) ← blockLines? spelling chomping indent isBlankLine next more fuel c
      return (joinLines spelling (wasBlank || isBlankLine) lead breaks ++ line ++ text, c)
    else
      match chomping with
      | .strip => return ([], c)
      | .clip => return (lead, c)
      | .keep => return (lead ++ breaks, c)

/-- A block scalar after its indicator, in a collection at column `parent`, or outside all of them. -/
def block? (spelling : Spelling) (parent : Option Nat) (c : Cursor) : Option (Token × Cursor) := do
  let (header, c) ← blockHeader? c
  let fuel := c.rest.length + 1
  let given := header.increment.map (parent.getD 0 + ·)
  let (breaks, widest, c) ← emptyLines? given 0 fuel c
  let least := match parent with | none => 1 | some n => n + 1
  let indent := given.getD (max widest least)
  let (text, c) ← blockLines? spelling header.chomping indent false [] breaks fuel c
  return (.scalar spelling (String.ofList text), c)

end Easel.Yaml.Token
