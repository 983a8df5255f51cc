/-!
# Whole numbers near a double

A finite double is a sign and `m · 2^e` with natural `m` and integral `e`; `Float.toModel` exposes
both. The functions here work on `m` and `e` exactly: the whole part (`floorScaled`), the nearest
natural number with halves going up (`nearestScaled`), and from them the nearest integer of a double
with halves going away from zero (`nearestInt?`).

Converted to a word, a double loses its fraction, and one beyond all words becomes the nearest of them
(`toWord`, `toSignedWord`).
-/

namespace Easel.Number

/-- The whole part of `m · 2^e`. -/
def floorScaled (m : Nat) : Int → Nat
  | .ofNat k => m <<< k
  | .negSucc k => m >>> (k + 1)

/-- The natural number nearest to `m · 2^e`; halves go up. -/
def nearestScaled (m : Nat) : Int → Nat
  | .ofNat k => m <<< k
  | .negSucc k => ((m >>> k) + 1) >>> 1

/-- The greatest number of 64 bits. Sizes, and how often a repeat runs, are no greater. -/
def greatestWord : Nat := 18446744073709551615

/-- The integer nearest to a finite double, halves away from zero. -/
def nearestInt (x : Float) : Int :=
  match x.toModel.unpack with
  | .finite s m e _ => s.apply (nearestScaled m e)
  | _ => 0

/-- Coordinates and radii beyond this magnitude, infinities included, count as this. -/
def limit : Nat := Nat.pow 10 300

/-- The integer nearest to `x`, halves away from zero, kept within `limit`; none for NaN. -/
def nearestInt? (x : Float) : Option Int :=
  match x.toModel.unpack with
  | .notANumber => none
  | .infinity s => some (s.apply limit)
  | .zero _ => some 0
  | .finite s m e _ => some (s.apply (min (nearestScaled m e) limit))

/-- The whole part of a finite positive double, and 0 for every other. -/
def wholePart (x : Float) : Nat :=
  match x.toModel.unpack with
  | .finite .positive m e _ => floorScaled m e
  | _ => 0

/-- The double rounded to a whole one, halves away from zero. An infinity or NaN stays what it is. -/
def nearestWhole (x : Float) : Float :=
  match x.toModel.unpack with
  | .finite .positive m e _ => Float.ofNat (nearestScaled m e)
  | .finite .negative m e _ => -Float.ofNat (nearestScaled m e)
  | _ => x

/-! ## Words -/

/-- The double as a word without a sign. NaN is 0. -/
def toWord (x : Float) : UInt64 :=
  match x.toModel.unpack with
  | .finite .positive m e _ => UInt64.ofNat (min (floorScaled m e) greatestWord)
  | .infinity .positive => UInt64.ofNat greatestWord
  | _ => 0

/-- The double as a word with a sign. NaN is 0. -/
def toSignedWord (x : Float) : Int64 :=
  match x.toModel.unpack with
  | .finite s m e _ => Int64.ofIntClamp (s.apply (floorScaled m e))
  | .infinity .positive => Int64.maxValue
  | .infinity .negative => Int64.minValue
  | _ => 0

/-! ## Bounds -/

/-- The greater of two doubles; a NaN does not count. -/
def fmax (x y : Float) : Float := if x.isNaN then y else if y.isNaN then x else max x y

/-- The smaller of two doubles; a NaN does not count. -/
def fmin (x y : Float) : Float := if x.isNaN then y else if y.isNaN then x else min x y

end Easel.Number
