import Easel.Yaml.Cursor
import Easel.Yaml.Plain

/-!
# Tokens of documents

The indicators of a document, its scalars, and what can stand before a node: anchors, tags and
directives. The functions here read one of the latter at a cursor; none of them answers where the text
is refused.
-/

namespace Easel.Yaml

/-- How a scalar is spelled. -/
inductive Spelling
  | plain | singleQuoted | doubleQuoted | literal | folded
deriving DecidableEq, Repr

inductive Token
  | versionDirective (major minor : Nat)
  | tagDirective (handle : String) (stem : List UInt8)
  | documentStart
  | documentEnd
  | blockSequenceStart
  | blockMappingStart
  | blockEnd
  | flowSequenceStart
  | flowSequenceEnd
  | flowMappingStart
  | flowMappingEnd
  | blockEntry
  | flowEntry
  | key
  | value
  | alias (name : String)
  | anchor (name : String)
  | tag (handle : String) (suffix : List UInt8)
  | scalar (spelling : Spelling) (text : String)
deriving DecidableEq, Repr

namespace Token

/-- The characters of names. -/
def isNameChar (c : Char) : Bool := c.isAlphanum || c == '_' || c == '-'

/-! ## Anchors and aliases -/

/-- The name after an ampersand or an asterisk. -/
def name? (c : Cursor) : Option (String × Cursor) :=
  let name := c.rest.takeWhile isNameChar
  let after := c.drop name.length
  let ends := endsWord after.rest || (after.rest.take 1).any "?:,]\x7d%@`".toList.contains
  if name.isEmpty || !ends then none else some (String.ofList name, after)

/-! ## Tags -/

/-- `!`, `!!` or `!name!`, and the start of a tag that has no such handle. In a directive only the three
forms are handles. -/
def handle? (inDirective : Bool) (c : Cursor) : Option (List Char × Cursor) :=
  match c.rest with
  | '!' :: rest =>
    let name := rest.takeWhile isNameChar
    let c := c.drop (1 + name.length)
    match c.rest with
    | '!' :: _ => some ('!' :: name ++ ['!'], c.drop 1)
    | _ => if inDirective && !name.isEmpty then none else some ('!' :: name, c)
  | _ => none

def hexDigits? (cs : List Char) : Option Nat := Plain.ofDigits? 16 cs

/-- The octets that percent signs and digits at the start of `cs` spell, one for three characters. The
first one tells how many follow it, as in an encoding; whether they encode a character does not matter. -/
def escapedOctets? (cs : List Char) : Option (List UInt8) := do
  let octet (i : Nat) : Option Nat :=
    match cs.drop (3 * i) with
    | '%' :: a :: b :: _ => hexDigits? [a, b]
    | _ => none
  let first ← octet 0
  let more ←
    if first < 0x80 then some 0
    else if first / 0x20 = 0x06 then some 1
    else if first / 0x10 = 0x0E then some 2
    else if first / 0x08 = 0x1E then some 3
    else none
  let rest ← (List.range more).mapM fun i => do
    let o ← octet (i + 1)
    if o / 0x40 = 0x02 then return o else none
  return (first :: rest).map UInt8.ofNat

/-- The longest address at the start of `cs`, and how many characters it takes. Brackets and commas
belong to it only where `isOpen`. -/
def address? (isOpen : Bool) : Nat → List Char → Option (List UInt8 × Nat)
  | 0, _ => some ([], 0)
  | fuel + 1, cs =>
    match cs with
    | [] => some ([], 0)
    | '%' :: _ => do
      let escaped ← escapedOctets? cs
      let n := 3 * escaped.length
      let (rest, m) ← address? isOpen fuel (cs.drop n)
      return (escaped ++ rest, n + m)
    | c :: rest =>
      if isNameChar c || ";/?:@&=+$.!~*'()".toList.contains c || (isOpen && ",[]".toList.contains c) then do
        let (rest, m) ← address? isOpen fuel rest
        return (UInt8.ofNat c.toNat :: rest, m + 1)
      else some ([], 0)

/-- The address at a cursor. An octet of zero ends it for its reader. -/
def readAddress? (isOpen : Bool) (c : Cursor) : Option (List UInt8 × Cursor) := do
  let (address, n) ← address? isOpen c.rest.length c.rest
  return (address.takeWhile (· ≠ 0), c.drop n)

/-- The address at a cursor, which has to be there. -/
def requireAddress? (isOpen : Bool) (c : Cursor) : Option (List UInt8 × Cursor) := do
  let (address, after) ← readAddress? isOpen c
  if after.mark = c.mark then none else return (address, after)

/-- A tag: in angle brackets, with a handle, or `!` alone. `!` alone has no handle. -/
def tag? (inFlow : Bool) (c : Cursor) : Option (Token × Cursor) := do
  let (handle, suffix, c) ←
    if c.startsWith "!<" then do
      let (suffix, c) ← requireAddress? true (c.drop 2)
      if c.startsWith ">" then some ("", suffix, c.drop 1) else none
    else do
      let (handle, after) ← handle? false c
      if handle.length > 1 ∧ handle.getLast? = some '!' then do
        let (suffix, after) ← requireAddress? false after
        some (String.ofList handle, suffix, after)
      else do
        let (suffix, after) ← readAddress? false after
        match octets (String.ofList (handle.drop 1)) ++ suffix with
        | [] => some ("", octets "!", after)
        | suffix => some ("!", suffix, after)
  if endsWord c.rest || (inFlow && c.startsWith ",") then return (.tag handle suffix, c) else none

/-! ## Directives -/

/-- A number of a version, of at most nine digits. -/
def versionNumber? (c : Cursor) : Option (Nat × Cursor) :=
  let digits := c.rest.takeWhile Char.isDigit
  if digits.length ≤ 9 then (Plain.ofDigits? 10 digits).map (·, c.drop digits.length) else none

/-- A directive after its percent sign, to the end of its line. -/
def directive? (c : Cursor) : Option (Token × Cursor) := do
  let name := String.ofList (c.rest.takeWhile isNameChar)
  let c := c.drop name.length
  if !endsWord c.rest then none
  let c := c.dropWhile isBlank
  let (token, c) ←
    if name == "YAML" then do
      let (major, c) ← versionNumber? c
      if !c.startsWith "." then none
      let (minor, c) ← versionNumber? (c.drop 1)
      some (Token.versionDirective major minor, c)
    else if name == "TAG" then do
      let (handle, c) ← handle? true c
      if !(c.rest.take 1).any isBlank then none
      let (stem, c) ← requireAddress? true (c.dropWhile isBlank)
      if !endsWord c.rest then none
      some (.tagDirective (String.ofList handle) stem, c)
    else none
  let c := c.dropWhile isBlank
  let c := if c.startsWith "#" then c.dropWhile (!isBreak ·) else c
  if (c.rest.take 1).all isBreak then return (token, c.drop 1) else none

end Token

end Easel.Yaml
