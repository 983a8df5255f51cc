import Easel.Canvas

/-!
# Text previews

A preview shows samples of a canvas, two above each other in one character. Samples are taken at
every `step`-th column and row, with the least step that keeps a line within the wanted length.
-/

namespace Easel.Canvas

/-- `a / b`, rounded up. -/
def ceilDiv (a b : Nat) : Nat := (a + b - 1) / b

/-- Whether a pixel is dark enough to be shown. Below the raster there is nothing to show. -/
def isDark (c : Canvas) (col row : Nat) : Bool :=
  match c.pixel? col row with
  | some gray => gray < 128
  | none => false

/-- The block for two samples, one above the other. -/
def block : Bool → Bool → Char
  | true, true => '█'
  | true, false => '▀'
  | false, true => '▄'
  | false, false => ' '

/-- The distance between samples in a preview of at most `columns` characters a line. -/
def step (c : Canvas) (columns : Nat) : Nat := max 1 (ceilDiv c.width columns)

/-- One line of a preview: the samples of the rows `2 · i · step` and `(2 · i + 1) · step`. -/
def previewLine (c : Canvas) (step i : Nat) : List Char :=
  (List.range (ceilDiv c.width step)).map fun j =>
    block (c.isDark (j * step) (i * 2 * step)) (c.isDark (j * step) (i * 2 * step + step))

/-- The canvas in at most `columns` characters a line. -/
def preview (c : Canvas) (columns : Nat) : String :=
  if c.width = 0 ∨ c.height = 0 ∨ columns = 0 then ""
  else
    let step := c.step columns
    let lines := (List.range (ceilDiv c.height (step * 2))).map (c.previewLine step)
    String.ofList (lines.flatMap (· ++ ['\n']))

end Easel.Canvas
