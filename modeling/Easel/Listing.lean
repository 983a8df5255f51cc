import Easel.Execution
import Easel.Yaml.Node

/-!
# Listings

Tokens, programs and the calls of a program as documents.
-/

namespace Easel.Listing

open Yaml (Node)

/-! ## Tokens -/

def kindName : TokenKind → String
  | .command => "Command"
  | .identifier => "Identifier"
  | .number => "Number"
  | .operator => "Operator"
  | .comment => "Comment"
  | .blank => "Whitespace"

def token (t : Token) : Node :=
  .mapping
    [("kind", .text (kindName t.kind)), ("text", .text t.text), ("line", .nat t.position.line),
     ("col", .nat t.position.column)]

def tokens (ts : List Token) : Node := .list (ts.map token)

/-! ## Programs -/

/-- The coordinates of two points. -/
def corners (a b : Point) : Node :=
  .mapping [("x1", .float a.x), ("y1", .float a.y), ("x2", .float b.x), ("y2", .float b.y)]

def centered (center : Point) (radius : Float) : Node :=
  .mapping [("x", .float center.x), ("y", .float center.y), ("r", .float radius)]

def shape : Shape → Node
  | .line a b => .tagged "Line" (corners a b)
  | .rect a b => .tagged "Rect" (corners a b)
  | .circle center radius => .tagged "Circle" (centered center radius)
  | .fillRect a b => .tagged "FillRect" (corners a b)
  | .fillCircle center radius => .tagged "FillCircle" (centered center radius)

mutual

def command : Command → Node
  | .draw (.pen size) => .tagged "Pen" (.mapping [("size", .float size)])
  | .draw (.color level) => .tagged "Color" (.mapping [("value", .float level)])
  | .draw (.paper level) => .tagged "Paper" (.mapping [("value", .float level)])
  | .draw (.shape s) => shape s
  | .set name value => .tagged "SetVariable" (.mapping [("name", .text name), ("value", .float value)])
  | .repeat count body =>
    .tagged "Repeat" (.mapping [("count", .float count), ("body", .list (commands body))])
  | .comment => .text "Comment"

def commands : List Command → List Node
  | [] => []
  | c :: cs => command c :: commands cs

end

def program (p : Program) : Node := .list (commands p)

/-! ## Calls -/

def call : Call → Node
  | .pen size => .tagged "PenSize" (.float size)
  | .color level => .tagged "Color" (.float level)
  | .paper level => .tagged "Paper" (.float level)
  | .shape s => shape s

def table (v : Variables) : Node :=
  .mapping (v.entries.map fun (name, value) => (name, .float value))

/-- The calls that a program made, with its variables at the end. -/
def trace (m : Machine Recording) : Node :=
  .mapping [("calls", .list (m.surface.calls.toList.map call)), ("variables", table m.vars)]

end Easel.Listing
