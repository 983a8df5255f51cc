import Easel.Canvas.Preview

/-!
# Framebuffers

A canvas in a machine. Its sides are words, and so are indices of pixels; the cells of a walk and the side of the pen
are words with a sign. Sums and products of words wrap around. A place is a pair of doubles until it has been cut to the
raster.

Shapes are drawn by loops that write one pixel (`put`, `inkRing`) or a run of pixels (`Canvas.fill?`) at a time. A
write or a read that is not within the buffer is refused, and so is a run that ends before it starts: `none` is what is
left of a drawing then.

A drawing on a framebuffer of a size that has a buffer is the one on a canvas, cell by cell on paper. The buffer has as
many pixels as the product of the sides, after wrapping around.
-/

namespace Easel

/-- The pixels from one index to another, both included. -/
structure Run where
  first : Nat
  last : Nat
deriving DecidableEq, Repr

namespace Canvas

/-- The pixels of a run become `gray`. -/
def fill (gray : UInt8) (pixels : Array UInt8) (run : Run) : Array UInt8 :=
  fillRun gray pixels run.first (run.last + 1 - run.first)

/-- `fill`, refused for a run that is inverted or not within the buffer. -/
def fill? (gray : UInt8) (pixels : Array UInt8) (run : Run) : Option (Array UInt8) :=
  if run.first ≤ run.last ∧ run.last < pixels.size then some (fill gray pixels run) else none

/-- One pixel becomes `gray`; refused if it is not within the buffer. -/
def write? (gray : UInt8) (pixels : Array UInt8) (i : Nat) : Option (Array UInt8) :=
  if h : i < pixels.size then some (pixels.set i gray h) else none

/-- Writes for `i`, `i + 1` and so on, as many times as the last argument says. -/
def sweep (write : Nat → Array UInt8 → Option (Array UInt8)) (pixels : Array UInt8) (i : Nat) :
    Nat → Option (Array UInt8)
  | 0 => some pixels
  | count + 1 => do sweep write (← write i pixels) (i + 1) count

end Canvas

open Canvas (fill? sweep write?)
open Segment (Visible)

/-- The header of a graymap of this size. -/
def Raster.pgmHeader (r : Raster) : String :=
  "P5\n" ++ toString r.width ++ " " ++ toString r.height ++ "\n255\n"

structure Framebuffer where
  width : UInt64
  height : UInt64
  pixels : Array UInt8
  penSize : Float
  ink : UInt8

namespace Framebuffer

/-- White, with a black pen of one pixel. -/
def blank (width height : UInt64) : Framebuffer where
  width := width
  height := height
  pixels := Array.replicate (width * height).toNat 255
  penSize := 1
  ink := 0

def toRaster (f : Framebuffer) : Raster := ⟨f.width.toNat, f.height.toNat⟩

/-- The side of the pen's square: the size rounded, but no more than the longer side of the raster. That is a word
without a sign, and is taken for one with a sign as it is. -/
def side (f : Framebuffer) : Int64 :=
  let limit := (max (max f.width f.height) 1).toInt64
  if f.penSize.isFinite && 1 ≤ f.penSize then min (Number.toSignedWord (Number.nearestWhole f.penSize)) limit else 1

/-- The last column in doubles. -/
def lastCol (f : Framebuffer) : Float := Float.ofNat f.width.toNat - 1

/-- The last row in doubles. -/
def lastRow (f : Framebuffer) : Float := Float.ofNat f.height.toNat - 1

/-! ## Reading -/

/-- The gray at a column and a row of the raster, refused if it has no pixel. Off the raster there is none. -/
def pixel? (f : Framebuffer) (col row : UInt64) : Option (Option UInt8) :=
  if col < f.width ∧ row < f.height then f.pixels[(row * f.width + col).toNat]?.map some else some none

/-- The gray at a point in drawing coordinates. -/
def sample? (f : Framebuffer) (p : Point) : Option (Option UInt8) :=
  match f.toRaster.place? p with
  | none => some none
  | some a => if a.x < 0 ∨ a.y < 0 then some none else f.pixel? (Number.toWord a.x) (Number.toWord a.y)

/-- A quotient rounded up, refused if there is none. -/
def ceilDiv? (a b : UInt64) : Option UInt64 :=
  if b = 0 then none else some (if a % b = 0 then a / b else a / b + 1)

/-- Whether a pixel is dark enough to be shown. -/
def isDark? (f : Framebuffer) (col row : UInt64) : Option Bool := do
  match ← f.pixel? col row with
  | some gray => return gray < 128
  | none => return false

/-- One line of a preview. -/
def previewLine? (f : Framebuffer) (step cols i : UInt64) : Option (List Char) :=
  let top := i * 2 * step
  (List.range cols.toNat).mapM fun j => do
    let col := UInt64.ofNat j * step
    return Canvas.block (← f.isDark? col top) (← f.isDark? col (top + step))

/-- The framebuffer in at most `columns` characters a line. -/
def preview? (f : Framebuffer) (columns : UInt64) : Option String :=
  if f.width = 0 ∨ f.height = 0 ∨ columns = 0 then some ""
  else do
    let step := max (← ceilDiv? f.width columns) 1
    let cols ← ceilDiv? f.width step
    let rows ← ceilDiv? f.height (step * 2)
    let lines ← (List.range rows.toNat).mapM fun i => f.previewLine? step cols (UInt64.ofNat i)
    return String.ofList (lines.flatMap (· ++ ['\n']))

/-- The framebuffer as a binary graymap: a header in text with the size and the greatest gray, then one byte a pixel. -/
def toPgm (f : Framebuffer) : ByteArray := f.toRaster.pgmHeader.toUTF8 ++ ⟨f.pixels⟩

/-! ## Pens -/

/-- Inks one cell, if it is on the raster. -/
def put (f : Framebuffer) (col row : Int64) (pixels : Array UInt8) : Option (Array UInt8) :=
  if 0 ≤ col ∧ 0 ≤ row ∧ col.toUInt64 < f.width ∧ row.toUInt64 < f.height then
    write? f.ink pixels (row.toUInt64 * f.width + col.toUInt64).toNat
  else some pixels

/-- Inks the square of the pen around a cell, row by row. -/
def stamp (f : Framebuffer) (col row : Int64) (pixels : Array UInt8) : Option (Array UInt8) :=
  let before := (f.side - 1) / 2
  let count := f.side.toNatClampNeg
  sweep (fun dy pixels =>
    sweep (fun dx => f.put (col - before + Int64.ofNat dx) (row - before + Int64.ofNat dy)) pixels 0 count)
    pixels 0 count

/-! ## Lines -/

/-- The part of a segment on the raster grown by a pen on each side, if there is any. -/
def visible? (f : Framebuffer) (a b : Point) : Option Visible := do
  let margin := Float.ofInt f.side.toInt
  let low := -margin
  let right := f.lastCol + margin
  let bottom := f.lastRow + margin
  let dx := b.x - a.x
  let dy := b.y - a.y
  let onCol (x : Float) (t : Float) : Point := ⟨x, a.y + t * dy⟩
  let onRow (y : Float) (t : Float) : Point := ⟨a.x + t * dx, y⟩
  let v : Visible := ⟨0, 1, a, b⟩
  let v ← v.cut (-dx) (a.x - low) (onCol low)
  let v ← v.cut dx (right - a.x) (onCol right)
  let v ← v.cut (-dy) (a.y - low) (onRow low)
  v.cut dy (bottom - a.y) (onRow bottom)

/-- Where a line goes: its last cell, how far that is along both axes, the rows counted down from zero, and the steps
to it. -/
structure Route where
  col : Int64
  row : Int64
  cols : Int64
  rows : Int64
  stepCol : Int64
  stepRow : Int64

/-- Where the loop of a line stands. -/
structure Marker where
  col : Int64
  row : Int64
  err : Int64

namespace Route

/-- The way from a cell to a cell. -/
def between (col row col' row' : Int64) : Route where
  col := col'
  row := row'
  cols := (col' - col).abs
  rows := -(row' - row).abs
  stepCol := if col < col' then 1 else -1
  stepRow := if row < row' then 1 else -1

/-- What a turn of the loop makes of its marker, unless the loop ends with it: at the last cell, or where it would leave
the last column or the last row. -/
def next? (r : Route) (m : Marker) : Option Marker :=
  if m.col = r.col ∧ m.row = r.row then none
  else
    let twice := 2 * m.err
    if r.rows ≤ twice then
      if m.col = r.col then none
      else if twice ≤ r.cols then
        if m.row = r.row then none else some ⟨m.col + r.stepCol, m.row + r.stepRow, m.err + r.rows + r.cols⟩
      else some ⟨m.col + r.stepCol, m.row, m.err + r.rows⟩
    else if twice ≤ r.cols then
      if m.row = r.row then none else some ⟨m.col, m.row + r.stepRow, m.err + r.cols⟩
    else some m

end Route

/-- Puts the pen on one cell of a line after another, for at most so many turns. -/
def strokeFrom (f : Framebuffer) (r : Route) (m : Marker) (pixels : Array UInt8) : Nat → Option (Array UInt8)
  | 0 => some pixels
  | turns + 1 => do
    let pixels ← f.stamp m.col m.row pixels
    match r.next? m with
    | none => return pixels
    | some m => strokeFrom f r m pixels turns

/-- Draws the part of a segment that can be seen. A turn that moves at all comes closer to the last cell, and one that
does not is repeated for ever, so the turns that are counted here are all of a loop that ends. -/
def strokeLine (f : Framebuffer) (a b : Point) (pixels : Array UInt8) : Option (Array UInt8) :=
  match f.visible? a b with
  | none => some pixels
  | some v =>
    let col := Number.toSignedWord (Number.nearestWhole v.start.x)
    let row := Number.toSignedWord (Number.nearestWhole v.start.y)
    let col' := Number.toSignedWord (Number.nearestWhole v.stop.x)
    let row' := Number.toSignedWord (Number.nearestWhole v.stop.y)
    let route := Route.between col row col' row'
    let turns := (col'.toInt - col.toInt).natAbs + (row'.toInt - row.toInt).natAbs + 1
    f.strokeFrom route ⟨col, row, route.cols + route.rows⟩ pixels turns

/-! ## Circles -/

/-- Whether the square of half side `reach` around a place meets the raster. -/
def touches (f : Framebuffer) (center : Point) (reach : Float) : Bool :=
  0 ≤ center.x + reach && center.x - reach ≤ f.lastCol && 0 ≤ center.y + reach && center.y - reach ≤ f.lastRow

/-- Puts the pen on the eight reflections of a point. -/
def stampReflections (f : Framebuffer) (col row x y : Int64) (pixels : Array UInt8) : Option (Array UInt8) := do
  let pixels ← f.stamp (col + x) (row + y) pixels
  let pixels ← f.stamp (col - x) (row + y) pixels
  let pixels ← f.stamp (col + x) (row - y) pixels
  let pixels ← f.stamp (col - x) (row - y) pixels
  let pixels ← f.stamp (col + y) (row + x) pixels
  let pixels ← f.stamp (col - y) (row + x) pixels
  let pixels ← f.stamp (col + y) (row - x) pixels
  f.stamp (col - y) (row - x) pixels

/-- The turns of a circle's loop that are left at the point `(x, y)` of an octant. Every turn raises `y`. -/
def strokeOctant (f : Framebuffer) (col row x y p : Int64) (pixels : Array UInt8) : Nat → Option (Array UInt8)
  | 0 => some pixels
  | turns + 1 =>
    if y < x then do
      let y := y + 1
      let x' := if p ≤ 0 then x else x - 1
      let p' := if p ≤ 0 then p + (2 * y + 1) else p + (2 * y - 2 * x' + 1)
      strokeOctant f col row x' y p' (← f.stampReflections col row x' y pixels) turns
    else some pixels

/-- Draws an outline point by point. -/
def strokeOutline (f : Framebuffer) (col row radius : Int64) (pixels : Array UInt8) : Option (Array UInt8) := do
  let pixels ← f.stampReflections col row radius 0 pixels
  f.strokeOctant col row radius 0 (1 - radius) pixels radius.toNatClampNeg

/-- Inks every pixel whose distance from the center is within half a pen of the radius. -/
def inkRing (f : Framebuffer) (center : Point) (radius : Float) (pixels : Array UInt8) : Option (Array UInt8) :=
  let half := Float.ofInt f.side.toInt / 2
  sweep (fun row pixels =>
    sweep (fun col pixels =>
      let distance := Number.measure (Float.ofNat col - center.x) (Float.ofNat row - center.y)
      if (distance - radius).abs ≤ half then
        write? f.ink pixels (UInt64.ofNat row * f.width + UInt64.ofNat col).toNat
      else some pixels)
      pixels 0 f.width.toNat)
    pixels 0 f.height.toNat

/-- A rounded radius without its sign; none for NaN. -/
def radius? (radius : Float) : Option Float :=
  (Number.nearestInt? radius).map fun n => Float.ofNat n.natAbs

def strokeCircle (f : Framebuffer) (center : Point) (radius : Float) (pixels : Array UInt8) : Option (Array UInt8) :=
  if !f.touches center (radius + Float.ofInt f.side.toInt) then some pixels
  else if 2 * Float.ofNat (f.width + f.height).toNat < radius then f.inkRing center radius pixels
  else
    f.strokeOutline (Number.toSignedWord center.x) (Number.toSignedWord center.y) (Number.toSignedWord radius) pixels

/-! ## Fills -/

/-- The pixels of a row from one place to another. -/
def fillRow? (f : Framebuffer) (row : Nat) (left right : Float) (pixels : Array UInt8) : Option (Array UInt8) :=
  let start := UInt64.ofNat row * f.width
  fill? f.ink pixels ⟨(start + Number.toWord left).toNat, (start + Number.toWord right).toNat⟩

/-- Goes through the rows from one place to another. -/
def sweepRows (write : Nat → Array UInt8 → Option (Array UInt8)) (top bottom : Float) (pixels : Array UInt8) :
    Option (Array UInt8) :=
  let first := (Number.toWord top).toNat
  sweep write pixels first ((Number.toWord bottom).toNat + 1 - first)

def fillRect (f : Framebuffer) (a b : Point) (pixels : Array UInt8) : Option (Array UInt8) :=
  let left := Number.fmax (Number.fmin a.x b.x) 0
  let right := Number.fmin (Number.fmax a.x b.x) f.lastCol
  let top := Number.fmax (Number.fmin a.y b.y) 0
  let bottom := Number.fmin (Number.fmax a.y b.y) f.lastRow
  if right < left ∨ bottom < top then some pixels
  else sweepRows (fun row => f.fillRow? row left right) top bottom pixels

def fillCircle (f : Framebuffer) (center : Point) (radius : Float) (pixels : Array UInt8) : Option (Array UInt8) :=
  let top := Number.fmax (center.y - radius) 0
  let bottom := Number.fmin (center.y + radius) f.lastRow
  if bottom < top then some pixels
  else
    sweepRows (fun row pixels =>
      match Circle.halfChord? radius (Float.ofNat row - center.y).abs with
      | none => some pixels
      | some span =>
        let left := Number.fmax (center.x - span) 0
        let right := Number.fmin (center.x + span) f.lastCol
        if right < left then some pixels else f.fillRow? row left right pixels)
      top bottom pixels

/-! ## Shapes -/

/-- What drawing a shape makes of the pixels. A shape with a NaN is not drawn. -/
def drawing (f : Framebuffer) (pixels : Array UInt8) : Shape → Option (Array UInt8)
  | .line p q =>
    match f.toRaster.place? p, f.toRaster.place? q with
    | some a, some b => f.strokeLine a b pixels
    | _, _ => some pixels
  | .rect p q =>
    match f.toRaster.place? p, f.toRaster.place? q with
    | some a, some b => do
      let pixels ← f.strokeLine ⟨a.x, a.y⟩ ⟨b.x, a.y⟩ pixels
      let pixels ← f.strokeLine ⟨a.x, b.y⟩ ⟨b.x, b.y⟩ pixels
      let pixels ← f.strokeLine ⟨a.x, a.y⟩ ⟨a.x, b.y⟩ pixels
      f.strokeLine ⟨b.x, a.y⟩ ⟨b.x, b.y⟩ pixels
    | _, _ => some pixels
  | .circle center radius =>
    match f.toRaster.place? center, radius? radius with
    | some center, some radius => f.strokeCircle center radius pixels
    | _, _ => some pixels
  | .fillRect p q =>
    match f.toRaster.place? p, f.toRaster.place? q with
    | some a, some b => f.fillRect a b pixels
    | _, _ => some pixels
  | .fillCircle center radius =>
    match f.toRaster.place? center, radius? radius with
    | some center, some radius => f.fillCircle center radius pixels
    | _, _ => some pixels

/-- Draws a shape. -/
def draw? (f : Framebuffer) (s : Shape) : Option Framebuffer :=
  (f.drawing f.pixels s).map fun pixels => { f with pixels := pixels }

/-- What a call makes of a framebuffer. -/
def handle? (f : Framebuffer) : Call → Option Framebuffer
  | .pen size => some { f with penSize := size }
  | .color level => some { f with ink := Level.gray level }
  | .paper level => some { f with pixels := Array.replicate f.pixels.size (Level.gray level) }
  | .shape s => f.draw? s

/-- After a refusal nothing is drawn any more. -/
instance : Surface (Option Framebuffer) where
  apply f? call := f?.bind fun f => f.handle? call

end Framebuffer

end Easel
