import Easel.Number.Whole
import Easel.Number.Length
import Easel.Number.Literal
import Easel.Number.Shortest
import Easel.Text.Blank
import Easel.Token
import Easel.Token.Lexeme
import Easel.Program
import Easel.SyntaxError
import Easel.Program.Parser
import Easel.Surface
import Easel.Execution
import Easel.Level
import Easel.Canvas.Raster
import Easel.Canvas.Segment
import Easel.Canvas.Circle
import Easel.Canvas.Footprint
import Easel.Canvas
import Easel.Canvas.Preview
import Easel.Canvas.Framebuffer
import Easel.Yaml.Plain
import Easel.Yaml.Character
import Easel.Yaml.Scalar
import Easel.Yaml.Node
import Easel.Yaml.Cursor
import Easel.Yaml.Token
import Easel.Yaml.Token.Quoted
import Easel.Yaml.Token.Plain
import Easel.Yaml.Token.Block
import Easel.Yaml.TokenStream
import Easel.Yaml.Tree
import Easel.File
import Easel.Yaml.Library
import Easel.Settings
import Easel.Listing
import Easel.CommandLine.Request
import Easel.CommandLine.Arguments
import Easel.CommandLine.Log
import Easel.CommandLine.Program
import Easel.CommandLine.Workspace
import Easel.Main
import Easel.Proofs.Number.Value
import Easel.Proofs.Number.Rounding
import Easel.Proofs.Number.Decoding
import Easel.Proofs.Token.Lexing
import Easel.Proofs.Token.Lines
import Easel.Proofs.Token.Segmentation
import Easel.Proofs.Program.Unrolling
import Easel.Proofs.Program.Assigning
import Easel.Proofs.Program.Grammar
import Easel.Proofs.Program.Parsing
import Easel.Proofs.Program.Blame
import Easel.Proofs.Program.Concatenation
import Easel.Proofs.Program.Conservation
import Easel.Proofs.Program.Blocks
import Easel.Proofs.Program.Rendering
import Easel.Proofs.Canvas.Painting
import Easel.Proofs.Canvas.Saturation
import Easel.Proofs.Canvas.Bounds
import Easel.Proofs.Program.Sessions
import Easel.Proofs.Token.Layout
import Easel.Proofs.Number.Sign
import Easel.Proofs.Program.Written
import Easel.Proofs.Number.Arithmetic
import Easel.Proofs.Number.Integral
import Easel.Proofs.Number.Error
import Easel.Proofs.Number.Decimal
import Easel.Proofs.Number.Extended
import Easel.Proofs.Number.Word
import Easel.Proofs.Number.Conversion
import Easel.Proofs.Canvas.Inking
import Easel.Proofs.Canvas.Buffer
import Easel.Proofs.Canvas.Graymap
import Easel.Proofs.Canvas.Outline
import Easel.Proofs.Canvas.Walk
import Easel.Proofs.Canvas.Disk
import Easel.Proofs.Canvas.Clipping
import Easel.Proofs.Canvas.Frame
import Easel.Proofs.Canvas.Cutting
import Easel.Proofs.Canvas.Words
import Easel.Proofs.Canvas.Stroke
import Easel.Proofs.Canvas.Pen
import Easel.Proofs.Number.Limit
import Easel.Proofs.Canvas.Reach
import Easel.Proofs.Canvas.Rectangle
import Easel.Proofs.Canvas.Samples
import Easel.Proofs.Program.Table
import Easel.Proofs.Number.Nearest
import Easel.Proofs.Program.Literals
import Easel.Proofs.Program.Turns
import Easel.Proofs.Program.Agreement
import Easel.Proofs.Canvas.Marks
import Easel.Proofs.Token.LineEnds
import Easel.Proofs.Yaml.Library
import Easel.Proofs.Listing
import Easel.Proofs.CommandLine.Refusals
import Easel.Proofs.Canvas.Ring
import Easel.Proofs.Settings
import Easel.Proofs.Level
import Easel.Proofs.Canvas.Loops
import Easel.Proofs.Canvas.Fills
import Easel.Proofs.Canvas.Drawing
import Easel.Proofs.Canvas.Reading
import Easel.Proofs.Canvas.Ending
