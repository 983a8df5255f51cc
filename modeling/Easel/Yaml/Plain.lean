/-!
# What a plain scalar means

A scalar without quotes can be a null, a truth value or a number; only what is none of them is a text.
`natural?` reads unsigned integers, and `isText` tells whether a text can stand without quotes as far
as its meaning goes.
-/

namespace Easel.Yaml.Plain

/-- The value of a digit, letters counting on from ten. -/
def digit? (radix : Nat) (c : Char) : Option Nat :=
  let n :=
    if c.isDigit then c.toNat - '0'.toNat
    else if c.isAlpha then c.toLower.toNat - 'a'.toNat + 10
    else radix
  if n < radix then some n else none

/-- The number that a non-empty run of digits denotes. -/
def ofDigits? (radix : Nat) (cs : List Char) : Option Nat :=
  if cs.isEmpty then none
  else cs.foldlM (fun n c => do return radix * n + (← digit? radix c)) 0

/-- Digits in one of the radixes with a mark, if the mark is there. -/
def marked? : List Char → Option (Option Nat)
  | '0' :: 'x' :: digits => some (ofDigits? 16 digits)
  | '0' :: 'o' :: digits => some (ofDigits? 8 digits)
  | '0' :: 'b' :: digits => some (ofDigits? 2 digits)
  | _ => none

def withoutSign : List Char → List Char
  | '+' :: cs | '-' :: cs => cs
  | cs => cs

/-- A run of digits that starts with a zero, which is a text for its leading zero. -/
def hasLeadingZero (cs : List Char) : Bool :=
  match withoutSign cs with
  | '0' :: d :: ds => (d :: ds).all Char.isDigit
  | _ => false

/-- The magnitude of an integer without its sign. -/
def magnitude? (cs : List Char) : Option Nat :=
  match marked? cs with
  | some n => n
  | none => if hasLeadingZero cs then none else ofDigits? 10 cs

/-- The unsigned integer that a plain scalar is: decimal, or with a mark of its radix, after at most
one plus sign. -/
def natural? : List Char → Option Nat
  | '+' :: cs => magnitude? cs
  | cs => magnitude? cs

/-- The magnitude of a negative integer. -/
def negative? : List Char → Option Nat
  | '-' :: cs => magnitude? cs
  | _ => none

/-! ## Numbers with a fraction or an exponent -/

/-- Whether `m · 10^e` is less than the greatest double and half a unit more, so that it rounds to a
finite one. -/
def isFinite (m : Nat) (e : Int) : Bool :=
  if m = 0 ∨ e < -(400 + m.log2 : Int) then true
  else if 400 < e then false
  else
    let scaled := if e < 0 then Float.ofScientific m true e.natAbs else Float.ofScientific m false e.natAbs
    scaled.isFinite

/-- The exponent of a decimal, after its mantissa. -/
def exponent? : List Char → Option Int
  | [] => some 0
  | e :: cs =>
    if e ≠ 'e' ∧ e ≠ 'E' then none
    else
      match cs with
      | '-' :: digits => (ofDigits? 10 digits).map fun n => -(n : Int)
      | '+' :: digits => (ofDigits? 10 digits).map Int.ofNat
      | digits => (ofDigits? 10 digits).map Int.ofNat

/-- Whether a decimal without sign is a finite double. There has to be a digit on one side of the
point. -/
def isFiniteDecimal (cs : List Char) : Bool :=
  let whole := cs.takeWhile Char.isDigit
  let (fraction, rest) :=
    match cs.dropWhile Char.isDigit with
    | '.' :: rest => (rest.takeWhile Char.isDigit, rest.dropWhile Char.isDigit)
    | rest => ([], rest)
  match ofDigits? 10 (whole ++ fraction), exponent? rest with
  | some m, some e => isFinite m (e - fraction.length)
  | _, _ => false

def isInfinity (cs : List Char) : Bool :=
  [".inf", ".Inf", ".INF"].any (·.toList == cs)

/-- Whether a scalar is a floating-point number. Infinities are spelled with a point, and a decimal
too great for a double is none. -/
def isFloat (cs : List Char) : Bool :=
  isInfinity (withoutSign cs) || [".nan", ".NaN", ".NAN"].any (·.toList == cs) ||
  isFiniteDecimal (withoutSign cs)

/-! ## Texts -/

def isNull (cs : List Char) : Bool :=
  ["", "null", "Null", "NULL", "~"].any (·.toList == cs)

def isBoolean (cs : List Char) : Bool :=
  ["true", "True", "TRUE", "false", "False", "FALSE"].any (·.toList == cs)

/-- Whether a scalar is an integer of 128 bits. -/
def isInteger (cs : List Char) : Bool :=
  (natural? cs).any (· < Nat.pow 2 128) || (negative? cs).any (· ≤ Nat.pow 2 127)

/-- Whether a plain scalar is a text. A run of digits with a leading zero is not read as a number, but
others might read it so, and it does not count either. -/
def isText (cs : List Char) : Bool :=
  !(isNull cs || isBoolean cs || isInteger cs || hasLeadingZero cs || isFloat cs)

end Easel.Yaml.Plain
