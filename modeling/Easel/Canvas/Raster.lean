import Easel.Number.Whole
import Easel.Program

/-!
# Rasters

The cells of a raster are addressed by column and row, row 0 at the top. Cells and boxes may lie off
the raster: whoever paints them leaves out what does.
-/

namespace Easel

/-- A place in the plane that the raster is part of. -/
structure Cell where
  col : Int
  row : Int
deriving DecidableEq, Repr

namespace Cell

/-- The cell in doubles, by column and row. -/
def toPoint (c : Cell) : Point := ⟨Float.ofInt c.col, Float.ofInt c.row⟩

/-- The cell nearest to a place given by column and row. -/
def nearest (p : Point) : Cell := ⟨Number.nearestInt p.x, Number.nearestInt p.y⟩

end Cell

/-- The cells from column `left` to column `right` and from row `top` to row `bottom`, both ends
included. -/
structure Box where
  left : Int
  top : Int
  right : Int
  bottom : Int
deriving DecidableEq, Repr

namespace Box

instance : Membership Cell Box where
  mem b c := b.left ≤ c.col ∧ c.col ≤ b.right ∧ b.top ≤ c.row ∧ c.row ≤ b.bottom

instance (c : Cell) (b : Box) : Decidable (c ∈ b) :=
  inferInstanceAs (Decidable (_ ∧ _ ∧ _ ∧ _))

/-- One cell. -/
def single (c : Cell) : Box := ⟨c.col, c.row, c.col, c.row⟩

/-- The box with these corners, in any order. -/
def spanned (a b : Cell) : Box :=
  ⟨min a.col b.col, min a.row b.row, max a.col b.col, max a.row b.row⟩

/-- The square that a pen of this side inks around a cell. An even side reaches further to the right
and to the bottom. -/
def pen (side : Nat) (c : Cell) : Box :=
  let left := c.col - ((side - 1) / 2 : Nat)
  let top := c.row - ((side - 1) / 2 : Nat)
  ⟨left, top, left + side - 1, top + side - 1⟩

end Box

/-- The size of a raster. -/
structure Raster where
  width : Nat
  height : Nat
deriving DecidableEq, Repr

namespace Raster

/-- The cell of a point: the nearest column, and the nearest row counted from the bottom. A point with
a NaN has none. -/
def cell? (r : Raster) (p : Point) : Option Cell := do
  let x ← Number.nearestInt? p.x
  let y ← Number.nearestInt? p.y
  return ⟨x, r.height - 1 - y⟩

/-- The same place by column and row in doubles. -/
def place? (r : Raster) (p : Point) : Option Point := do
  let x ← Number.nearestInt? p.x
  let y ← Number.nearestInt? p.y
  return ⟨Float.ofInt x, Float.ofNat r.height - 1 - Float.ofInt y⟩

/-- The side of the square that a pen of this size draws with: the nearest whole number, at least 1
and no more than would cover the raster. In words it is so as long as the longer side of the raster is
a word with a sign. -/
def penSide (r : Raster) (size : Float) : Nat :=
  min (max 1 (Number.nearestInt size).toNat) (max 1 (max r.width r.height))

end Raster

end Easel
