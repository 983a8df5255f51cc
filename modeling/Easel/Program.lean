/-!
# Programs

A program is a list of commands. Most of them ask the drawing surface for something (a `Call`); the
others set a variable, repeat a list of commands, or do nothing.
-/

namespace Easel

/-- A point in drawing coordinates: `x` grows to the right and `y` upwards. -/
structure Point where
  x : Float
  y : Float
deriving BEq, Repr

/-- What can be drawn. `a` and `b` are the ends of a line and opposite corners of a rectangle. -/
inductive Shape
  | line (a b : Point)
  | rect (a b : Point)
  | circle (center : Point) (radius : Float)
  | fillRect (a b : Point)
  | fillCircle (center : Point) (radius : Float)
deriving BEq, Repr

/-- What a surface can be asked for: another pen size, another ink, a fresh sheet of paper, or a
shape. Color and paper are levels from 0 (white) to 100 (black). -/
inductive Call
  | pen (size : Float)
  | color (level : Float)
  | paper (level : Float)
  | shape (shape : Shape)
deriving BEq, Repr

inductive Command
  | draw (call : Call)
  | set (name : String) (value : Float)
  | repeat (count : Float) (body : List Command)
  | comment
deriving BEq, Repr

abbrev Program := List Command

end Easel
