import Easel.Number.Shortest
import Easel.Yaml.Character
import Easel.Yaml.Plain

/-!
# Writing scalars

A text of one line is written as it is where that cannot be misread, in single quotes where it could,
and in double quotes where it has characters that have to be escaped. Two of the line breaks of
Unicode stay in single quotes; the text goes on in a new line after them.

`Scalar.write` gives the lines of a text and `Scalar.ofFloat` the notation of a number.
-/

namespace Easel.Yaml

/-- A line of output: how far it is moved to the right, and the character that ends it. -/
structure Line where
  column : Nat
  text : String
  ending : Char
deriving DecidableEq, Repr

/-- A line at the left margin. -/
def Line.plain (text : String) : Line := ⟨0, text, '\n'⟩

namespace Scalar

/-! ## Indicators -/

/-- Whether the first character means something other than itself at the start of a scalar. -/
def startsIndicator : List Char → Bool
  | [] => false
  | c :: rest => "#,[]\x7b\x7d&*!|>'\"%@`".toList.contains c || ("?:-".toList.contains c && endsWord rest)

/-- Whether a colon before a blank or a hash after one occurs. -/
def hasInnerIndicator (afterBlank : Bool) : List Char → Bool
  | [] => false
  | c :: rest =>
    (c == ':' && endsWord rest) || (c == '#' && afterBlank) || hasInnerIndicator (endsWord [c]) rest

/-- Whether a scalar would be taken for something else without quotes. -/
def hasIndicator (cs : List Char) : Bool :=
  "---".toList.isPrefixOf cs || "...".toList.isPrefixOf cs || startsIndicator cs ||
  hasInnerIndicator (endsWord (cs.take 1)) (cs.drop 1)

/-! ## Styles -/

inductive Style
  | plain | single | double
deriving DecidableEq, Repr

/-- Whether a space and a line break stand side by side. -/
def hasLooseBreak : List Char → Bool
  | a :: b :: rest => (a == ' ' && isBreak b) || (isBreak a && b == ' ') || hasLooseBreak (b :: rest)
  | _ => false

/-- The simplest style in which a text reads back. -/
def style (cs : List Char) : Style :=
  let edge (c : Option Char) : Bool := c.any fun c => c == ' ' || isBreak c
  if cs.any (!isPrintable ·) || hasLooseBreak cs then .double
  else if !Plain.isText cs || hasIndicator cs || cs.any isBreak || edge cs.head? || edge cs.getLast? then
    .single
  else .plain

/-! ## Quotes -/

/-- The lines of a text in single quotes, where `line` is what the current one holds so far, latest
first. -/
def singleQuoted (line : List Char) : List Char → List Line
  | [] => [.plain (String.ofList ('\'' :: line).reverse)]
  | c :: cs =>
    if isBreak c then ⟨0, String.ofList line.reverse, c⟩ :: singleQuoted [] cs
    else if c = '\'' then singleQuoted ('\'' :: '\'' :: line) cs
    else singleQuoted (c :: line) cs

/-- `n` in at least `width` hexadecimal digits. -/
def hex (width n : Nat) : List Char :=
  ((List.range width).reverse.map fun i => (Nat.digitChar (n >>> (4 * i) % 16)).toUpper)

/-- A character as it is written in double quotes. -/
def escape (c : Char) : List Char :=
  match c.toNat with
  | 0x00 => ['\\', '0']
  | 0x07 => ['\\', 'a']
  | 0x08 => ['\\', 'b']
  | 0x09 => ['\\', 't']
  | 0x0A => ['\\', 'n']
  | 0x0B => ['\\', 'v']
  | 0x0C => ['\\', 'f']
  | 0x0D => ['\\', 'r']
  | 0x1B => ['\\', 'e']
  | 0x22 => ['\\', '"']
  | 0x5C => ['\\', '\\']
  | 0x85 => ['\\', 'N']
  | 0x2028 => ['\\', 'L']
  | 0x2029 => ['\\', 'P']
  | n =>
    if isPrintable c then [c]
    else if n ≤ 0xFF then '\\' :: 'x' :: hex 2 n
    else if n ≤ 0xFFFF then '\\' :: 'u' :: hex 4 n
    else '\\' :: 'U' :: hex 8 n

/-- The lines of a text of one line. -/
def write (text : String) : List Line :=
  let cs := text.toList
  match style cs with
  | .plain => [.plain text]
  | .single => singleQuoted ['\''] cs
  | .double => [.plain (String.ofList ('"' :: cs.flatMap escape ++ ['"']))]

/-! ## Numbers -/

/-- Where the point may be in positional notation: after at least `least` and at most `greatest`
digits, counted from the first digit that is not zero. -/
structure PointRange where
  least : Int
  greatest : Int

/-- Numbers are positional from `1e-5` on and below `1e16`. -/
def positional : PointRange := ⟨-4, 16⟩

/-- The digits of a decimal with its point. Positional notation has a digit on both sides of the point,
powers of ten have a point only where digits follow it. -/
def layout (f : PointRange) (digits : List Char) (exponent : Int) : List Char :=
  let point := digits.length + exponent
  if f.least ≤ point ∧ point ≤ f.greatest then
    if point ≤ 0 then '0' :: '.' :: List.replicate (-point).toNat '0' ++ digits
    else if 0 ≤ exponent then digits ++ List.replicate exponent.toNat '0' ++ ['.', '0']
    else digits.take point.toNat ++ '.' :: digits.drop point.toNat
  else
    let fraction := if digits.length ≤ 1 then [] else '.' :: digits.drop 1
    digits.take 1 ++ fraction ++ 'e' :: (toString (point - 1)).toList

/-- A double with the fewest digits that read back. -/
def ofFloat (x : Float) : String :=
  match Number.shortest? x with
  | some d =>
    let sign := if d.negative then ['-'] else []
    String.ofList (sign ++ layout positional (toString d.digits).toList d.exponent)
  | none => if x.isNaN then ".nan" else if x < 0 then "-.inf" else ".inf"

end Scalar

end Easel.Yaml
