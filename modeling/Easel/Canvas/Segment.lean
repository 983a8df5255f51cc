import Easel.Canvas.Raster

/-!
# Segments

A line is cut to the raster and a margin around it (`Segment.clip`), and what is left of it is walked
cell by cell (`Segment.walk`).

The cut follows Liang and Barsky: a segment is the set of points at parameter `t` from 0 to 1, and
each of the four edges raises the least parameter or lowers the greatest. An end that an edge cuts
lies exactly on that edge. All of it is in doubles; the walk is in integers.
-/

namespace Easel

/-- A segment between two cells. -/
structure Segment where
  start : Cell
  stop : Cell
deriving DecidableEq, Repr

namespace Segment

/-! ## Cutting -/

/-- What the edges so far have left of a segment: the parameters and places of its ends. -/
structure Visible where
  t0 : Float
  t1 : Float
  start : Point
  stop : Point

/-- Cuts at one edge. The segment approaches the edge's outer side at rate `p`, and at its start has
`q` to go; `place t` is where it meets the edge, if that is at parameter `t`. -/
def Visible.cut (v : Visible) (p q : Float) (place : Float → Point) : Option Visible :=
  let t := q / p
  if p == 0 then
    if q < 0 then none else some v
  else if p < 0 then
    if v.t1 < t then none
    else if v.t0 < t then some { v with t0 := t, start := place t }
    else some v
  else
    if t < v.t0 then none
    else if t < v.t1 then some { v with t1 := t, stop := place t }
    else some v

/-- The part of a segment on the raster grown by `margin` cells on each side, if there is any. -/
def clip (r : Raster) (margin : Nat) (s : Segment) : Option Segment := do
  let a := s.start.toPoint
  let b := s.stop.toPoint
  let low := -Float.ofNat margin
  let right := Float.ofNat r.width - 1 + Float.ofNat margin
  let bottom := Float.ofNat r.height - 1 + Float.ofNat margin
  let dx := b.x - a.x
  let dy := b.y - a.y
  let onCol (x : Float) (t : Float) : Point := ⟨x, a.y + t * dy⟩
  let onRow (y : Float) (t : Float) : Point := ⟨a.x + t * dx, y⟩
  let v : Visible := ⟨0, 1, a, b⟩
  let v ← v.cut (-dx) (a.x - low) (onCol low)
  let v ← v.cut dx (right - a.x) (onCol right)
  let v ← v.cut (-dy) (a.y - low) (onRow low)
  let v ← v.cut dy (bottom - a.y) (onRow bottom)
  return ⟨.nearest v.start, .nearest v.stop⟩

/-! ## Walking -/

/-- The signs of a walk's steps, and how many cells it has to go along the columns and the rows. -/
structure Course where
  stepCol : Int
  stepRow : Int
  cols : Nat
  rows : Nat

/-- The cells from `c` on, where `i` column steps and `j` row steps are left. The sign of `err` tells on
which side of the segment the cell lies; a column step lowers it and a row step raises it. -/
def walkFrom (w : Course) (err : Int) (c : Cell) (i j : Nat) : List Cell :=
  c ::
    if i = 0 ∧ j = 0 then []
    else if -(w.rows : Int) ≤ 2 * err then
      match i with
      | 0 => []
      | i + 1 =>
        if 2 * err ≤ w.cols then
          match j with
          | 0 => []
          | j + 1 => walkFrom w (err - w.rows + w.cols) ⟨c.col + w.stepCol, c.row + w.stepRow⟩ i j
        else walkFrom w (err - w.rows) ⟨c.col + w.stepCol, c.row⟩ i j
    else
      match j with
      | 0 => []
      | j + 1 => walkFrom w (err + w.cols) ⟨c.col, c.row + w.stepRow⟩ i j
termination_by i + j

/-- The cells of a segment from its start to its stop, one after another. -/
def walk (s : Segment) : List Cell :=
  let cols := (s.stop.col - s.start.col).natAbs
  let rows := (s.stop.row - s.start.row).natAbs
  let w : Course :=
    ⟨if s.start.col < s.stop.col then 1 else -1, if s.start.row < s.stop.row then 1 else -1, cols, rows⟩
  walkFrom w (cols - rows) s.start cols rows

/-- The boxes that a pen inks along a segment. -/
def stroke (r : Raster) (side : Nat) (s : Segment) : List Box :=
  match s.clip r side with
  | none => []
  | some visible => visible.walk.map (Box.pen side)

end Segment

end Easel
