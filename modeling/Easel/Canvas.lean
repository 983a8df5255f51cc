import Easel.Canvas.Footprint
import Easel.Level
import Easel.Surface

/-!
# The canvas

A canvas is a raster of grays with a pen and an ink. A shape puts the ink on the cells of its
footprint and leaves everything else alone.

This is drawing on paper, where sides may be as long as they like and there is a pixel for each column
and row. `Framebuffer` is the canvas of a machine.
-/

namespace Easel

/-- Grays row by row, the top row first, with the size of the pen and the gray of the ink. -/
structure Canvas extends Raster where
  pixels : Array UInt8
  penSize : Float
  ink : UInt8
  size_pixels : pixels.size = width * height

namespace Canvas

/-- White, with a black pen of one cell. -/
def blank (width height : Nat) : Canvas where
  width := width
  height := height
  pixels := Array.replicate (width * height) 255
  penSize := 1
  ink := 0
  size_pixels := Array.size_replicate

/-- The gray at a column and a row. -/
def pixel? (c : Canvas) (col row : Nat) : Option UInt8 :=
  if col < c.width ∧ row < c.height then c.pixels[row * c.width + col]? else none

/-- The gray at a point in drawing coordinates. -/
def sample? (c : Canvas) (p : Point) : Option UInt8 := do
  let cell ← c.cell? p
  if cell.col < 0 ∨ cell.row < 0 then none else c.pixel? cell.col.toNat cell.row.toNat

/-- The side of the pen's square. -/
def side (c : Canvas) : Nat := c.penSide c.penSize

/-! ## Painting -/

/-- `count` pixels from index `start` on become `gray`. -/
def fillRun (gray : UInt8) (pixels : Array UInt8) (start : Nat) : Nat → Array UInt8
  | 0 => pixels
  | count + 1 => fillRun gray (pixels.setIfInBounds start gray) (start + 1) count

/-- `count` rows of `length` pixels each become `gray`, the first run at index `start` and the others
below it. -/
def fillRows (gray : UInt8) (width length : Nat) (pixels : Array UInt8) (start : Nat) : Nat → Array UInt8
  | 0 => pixels
  | count + 1 => fillRows gray width length (fillRun gray pixels start length) (start + width) count

theorem size_fillRun (gray : UInt8) (pixels : Array UInt8) (start count : Nat) :
    (fillRun gray pixels start count).size = pixels.size := by
  induction count generalizing pixels start with
  | zero => rfl
  | succ n ih => simp [fillRun, ih]

theorem size_fillRows (gray : UInt8) (width length : Nat) (pixels : Array UInt8) (start count : Nat) :
    (fillRows gray width length pixels start count).size = pixels.size := by
  induction count generalizing pixels start with
  | zero => rfl
  | succ n ih => simp [fillRows, ih, size_fillRun]

/-- Inks the cells of a box that lie on the raster. -/
def paintBox (c : Canvas) (b : Box) : Canvas :=
  let left := b.left.toNat
  let top := b.top.toNat
  let length := min (b.right + 1).toNat c.width - left
  let count := if length = 0 then 0 else min (b.bottom + 1).toNat c.height - top
  { c with
    pixels := fillRows c.ink c.width length c.pixels (top * c.width + left) count
    size_pixels := by rw [size_fillRows, c.size_pixels] }

/-- Inks the cells of boxes that lie on the raster. -/
def paint (c : Canvas) (boxes : List Box) : Canvas :=
  boxes.foldl paintBox c

/-- Covers the raster with a fresh sheet. Pen and ink stay. -/
def cover (c : Canvas) (gray : UInt8) : Canvas :=
  { c with
    pixels := Array.replicate (c.width * c.height) gray
    size_pixels := Array.size_replicate }

instance : Surface Canvas where
  apply c
    | .pen size => { c with penSize := size }
    | .color level => { c with ink := Level.gray level }
    | .paper level => c.cover (Level.gray level)
    | .shape s => c.paint (s.footprint c.toRaster c.side)

end Canvas

end Easel
