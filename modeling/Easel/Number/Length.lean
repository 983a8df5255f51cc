import Easel.Number.Whole

/-!
# Lengths

The length of a vector with integral coordinates is the square root of a natural number. `length` rounds
it once: the root is taken exactly, with bits to spare, and `floorSqrt` says what is left of it.
-/

namespace Easel.Number

/-- The whole part of the square root. -/
def floorSqrt (n : Nat) : Nat :=
  if n = 0 then 0
  else
    let r := 2 * floorSqrt (n / 4)
    if (r + 1) * (r + 1) ≤ n then r + 1 else r

/-- `2^s` as a double, for `s` up to 1023. -/
def powerOfTwo (s : Nat) : Float := Float.ofBits (UInt64.ofNat (1023 + s) <<< 52)

/-- The double nearest to the square root of `n`. Beyond `2^53` the root is taken of `n` times a power of
four, to 64 bits; if there is more, the last bit is set, so that rounding sees it. -/
def nearestSqrt (n : Nat) : Float :=
  if n < Nat.pow 2 53 then (Float.ofNat n).sqrt
  else
    let up := (127 - n.log2) / 2
    let down := (n.log2 - 126) / 2
    let r := floorSqrt ((n <<< (2 * up)) >>> (2 * down))
    let bits := if (r * r) <<< (2 * down) = n <<< (2 * up) then r else r ||| 1
    bits.toUInt64.toFloat * powerOfTwo down / powerOfTwo up

/-- The double nearest to the length of the vector `(dx, dy)`. -/
def length (dx dy : Int) : Float :=
  nearestSqrt (dx.natAbs * dx.natAbs + dy.natAbs * dy.natAbs)

/-- The length of a vector in doubles, if both coordinates are whole. -/
def measure (x y : Float) : Float := length (nearestInt x) (nearestInt y)

end Easel.Number
