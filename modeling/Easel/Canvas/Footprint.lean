import Easel.Canvas.Circle
import Easel.Canvas.Segment

/-!
# Footprints

Which cells a shape inks. They depend on the shape, the size of the raster and the side of the pen,
and never on what is drawn already; a shape with a NaN inks none.
-/

namespace Easel.Shape

/-- The four sides of the frame that two corners span. -/
def sides (a b : Cell) : List Segment :=
  [⟨⟨a.col, a.row⟩, ⟨b.col, a.row⟩⟩, ⟨⟨a.col, b.row⟩, ⟨b.col, b.row⟩⟩,
   ⟨⟨a.col, a.row⟩, ⟨a.col, b.row⟩⟩, ⟨⟨b.col, a.row⟩, ⟨b.col, b.row⟩⟩]

/-- What to do with the cells of two points, and nothing if a point has none. -/
def withCells (r : Raster) (a b : Point) (f : Cell → Cell → List Box) : List Box :=
  match r.cell? a, r.cell? b with
  | some a, some b => f a b
  | _, _ => []

/-- The cells that a shape inks, as boxes. They may reach beyond the raster. -/
def footprint (r : Raster) (side : Nat) : Shape → List Box
  | .line a b => withCells r a b fun a b => Segment.stroke r side ⟨a, b⟩
  | .rect a b => withCells r a b fun a b => (sides a b).flatMap (Segment.stroke r side)
  | .circle center radius => ((Circle.ofShape? r center radius).map (·.stroke r side)).getD []
  | .fillRect a b => withCells r a b fun a b => [.spanned a b]
  | .fillCircle center radius => ((Circle.ofShape? r center radius).map (·.disk r)).getD []

end Easel.Shape
