import Easel.Canvas.Raster
import Easel.Number.Length

/-!
# Circles

An outline is walked by octants (`Circle.octant`, the midpoint rule) and reflected into the other
seven. A circle much larger than the raster is not walked; every cell of the raster is tested by its
distance from the center instead (`Circle.ring`), in doubles. A disk is a run of cells in each row
(`Circle.disk`).
-/

namespace Easel

/-- A circle around a cell. -/
structure Circle where
  center : Cell
  radius : Nat
deriving DecidableEq, Repr

namespace Circle

/-- The circle of a point and a radius, both rounded; the sign of the radius does not count. -/
def ofShape? (r : Raster) (center : Point) (radius : Float) : Option Circle := do
  let c ← r.cell? center
  let n ← Number.nearestInt? radius
  return ⟨c, n.natAbs⟩

/-! ## Outlines -/

/-- The points from `(x, y)` on in the octant between the column axis and the diagonal. The sign of `p`
tells whether the point half a cell further in lies inside the circle. -/
def octantFrom (x y : Nat) (p : Int) : List (Nat × Nat) :=
  (x, y) ::
    if y < x then
      if p ≤ 0 then octantFrom x (y + 1) (p + 2 * (y + 1) + 1)
      else octantFrom (x - 1) (y + 1) (p + 2 * (y + 1) - 2 * (x - 1) + 1)
    else []
termination_by x - y

/-- The octant of a circle around the origin. -/
def octant (radius : Nat) : List (Nat × Nat) :=
  octantFrom radius 0 (1 - radius)

/-- The cells at the eight reflections of a point of the octant. -/
def reflections (c : Cell) (x y : Int) : List Cell :=
  [⟨c.col + x, c.row + y⟩, ⟨c.col - x, c.row + y⟩, ⟨c.col + x, c.row - y⟩, ⟨c.col - x, c.row - y⟩,
   ⟨c.col + y, c.row + x⟩, ⟨c.col - y, c.row + x⟩, ⟨c.col + y, c.row - x⟩, ⟨c.col - y, c.row - x⟩]

/-- The cells that a pen walks over on the outline. -/
def outline (c : Circle) : List Cell :=
  (octant c.radius).flatMap fun p => reflections c.center p.1 p.2

/-- Whether the square of half side `reach` around the center meets the raster. -/
def touches (c : Circle) (r : Raster) (reach : Nat) : Bool :=
  0 ≤ c.center.col + reach && c.center.col - reach ≤ r.width - 1 &&
  0 ≤ c.center.row + reach && c.center.row - reach ≤ r.height - 1

/-- `touches` in doubles, which differs from it where the center is so far off that cells have no
coordinates of their own. -/
def touchesAfar (c : Circle) (r : Raster) (side : Nat) : Bool :=
  let p := c.center.toPoint
  let reach := Float.ofNat c.radius + Float.ofNat side
  0 ≤ p.x + reach && p.x - reach ≤ Float.ofNat r.width - 1 &&
  0 ≤ p.y + reach && p.y - reach ≤ Float.ofNat r.height - 1

/-- The differences in doubles between the first `n` indices and a center, as integers. -/
def offsets (center : Int) (n : Nat) : List Int :=
  (List.range n).map fun i => Number.nearestInt (Float.ofNat i - Float.ofInt center)

/-- The cells of the raster whose distance from the center is within half a pen of the radius. -/
def ring (c : Circle) (r : Raster) (side : Nat) : List Cell :=
  let radius := Float.ofNat c.radius
  let half := Float.ofNat side / 2
  let cols := (offsets c.center.col r.width).zipIdx
  (offsets c.center.row r.height).zipIdx.flatMap fun (dy, row) =>
    cols.filterMap fun (dx, col) =>
      if (Number.length dx dy - radius).abs ≤ half then some ⟨col, row⟩ else none

/-- The boxes that a pen inks on the outline. -/
def stroke (c : Circle) (r : Raster) (side : Nat) : List Box :=
  if 2 * (r.width + r.height) < c.radius then
    if c.touchesAfar r side then (c.ring r side).map Box.single else []
  else if c.touches r (c.radius + side) then c.outline.map (Box.pen side)
  else []

/-! ## Disks -/

/-- Half the length of the run of cells at a distance of `dy` rows from the center, if there is one. The
square of it is factored so that it reaches infinity for huge radii and never is infinity less
infinity. -/
def halfChord? (radius dy : Float) : Option Float :=
  let square := (radius - dy) * (radius + dy)
  if square < 0 then none
  else
    let root := square.sqrt
    some (if root.isInf then root else Float.ofNat (Number.wholePart root))

/-- The run of cells of one row, which may reach beyond the raster. -/
def chord? (c : Circle) (row : Nat) : Option Box := do
  let x := Float.ofInt c.center.col
  let span ← halfChord? (Float.ofNat c.radius) (Float.ofNat row - Float.ofInt c.center.row).abs
  let left ← Number.nearestInt? (x - span)
  let right ← Number.nearestInt? (x + span)
  return ⟨left, row, right, row⟩

/-- The cells within the radius, one run for each row of the raster that the circle reaches. -/
def disk (c : Circle) (r : Raster) : List Box :=
  let y := Float.ofInt c.center.row
  let top := max 0 (Number.nearestInt (y - Float.ofNat c.radius))
  let bottom := min ((r.height : Int) - 1) (Number.nearestInt (y + Float.ofNat c.radius))
  (List.range (bottom + 1 - top).toNat).filterMap fun i => c.chord? (top.toNat + i)

end Circle

end Easel
