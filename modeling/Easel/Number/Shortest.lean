/-!
# Shortest decimals

Every double is the nearest one to all the reals in an interval around it. `shortest` finds the
coarsest decimal grid with a point in that interval and takes the point nearest to the double, so
the digits it gives are the fewest that read back as the same double.
-/

namespace Easel.Number

/-- The number `± digits · 10^exponent`. -/
structure Decimal where
  negative : Bool
  digits : Nat
  exponent : Int
deriving DecidableEq, Repr

/-- A ratio of naturals, as numerator and denominator. -/
abbrev Ratio := Nat × Nat

/-- `m · 2^e / 10^k` as a ratio. -/
def onGrid (m : Nat) (e k : Int) : Ratio :=
  (m * Nat.pow 2 e.toNat * Nat.pow 10 (-k).toNat, Nat.pow 2 (-e).toNat * Nat.pow 10 k.toNat)

/-- The multiple of the grid step nearest to `value`, an even one on a tie, among the two neighbours
of `value` that lie between `low` and `high`; all four are counted in grid steps. The ends count only
if `closed`. -/
def gridPoint? (low value high : Ratio) (closed : Bool) : Option Nat :=
  let inside (n : Nat) : Bool :=
    if closed then low.1 ≤ n * low.2 && n * high.2 ≤ high.1
    else low.1 < n * low.2 && n * high.2 < high.1
  let below := value.1 / value.2
  let above := below + 1
  let twice := 2 * (value.1 % value.2)
  match inside below, inside above with
  | false, false => none
  | true, false => some below
  | false, true => some above
  | true, true =>
    if twice < value.2 then some below
    else if value.2 < twice then some above
    else some (if below % 2 = 0 then below else above)

/-- Looks for a grid point on the grids of step `10^k`, `10^(k-1)`, … -/
def coarsest (low value high : Int → Ratio) (closed : Bool) : Nat → Int → Nat × Int
  | 0, k => ((value k).1 / (value k).2, k)
  | steps + 1, k =>
    match gridPoint? (low k) (value k) (high k) closed with
    | some n => (n, k)
    | none => coarsest low value high closed steps (k - 1)

/-- The fewest digits that read back as `m · 2^e`, as digits and a power of ten. The neighbour below
is half as far where `m` is the least significand of its binade and there is a binade below. Seventeen
digits always suffice, and the search starts at most two grids above the leading digit. -/
def shortestDigits (m : Nat) (e : Int) : Nat × Int :=
  let below := if m = Nat.pow 2 52 ∧ e > -1074 then 4 * m - 1 else 4 * m - 2
  let start := (m.log2 + 1 + e) * 30103 / 100000 + 1
  coarsest (onGrid below (e - 2)) (onGrid m e) (onGrid (4 * m + 2) (e - 2)) (m % 2 = 0) 20 start

/-- The shortest decimal that reads back as `x`; none for infinities and NaN. -/
def shortest? (x : Float) : Option Decimal :=
  match x.toModel.unpack with
  | .zero s => some ⟨s == .negative, 0, 0⟩
  | .finite s m e _ =>
    let (digits, exponent) := shortestDigits m e
    some ⟨s == .negative, digits, exponent⟩
  | _ => none

end Easel.Number
