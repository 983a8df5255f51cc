import Easel.Token

/-!
# Syntax errors

Why a list of tokens is no program, and where.
-/

namespace Easel

/-- What stands where something else was expected. -/
inductive Found
  | token (text : String)
  | endOfInput
deriving DecidableEq, Repr

/-- The ways to go wrong. A command token whose text is no reserved word cannot come from a text, only
from a list of tokens built by hand. -/
inductive SyntaxError.Cause
  | unknownCommand (word : String)
  | expectedNumber (found : Found)
  | expectedIdentifier (found : Found)
  | unterminatedBlock
deriving DecidableEq, Repr

/-- A cause and the place of the token to blame. At the end of the input that is the last token. -/
structure SyntaxError where
  cause : SyntaxError.Cause
  position : Position
deriving DecidableEq, Repr

/-- In quotes, or by name where there is no text. -/
def Found.describe : Found → String
  | token text => "`" ++ text ++ "`"
  | endOfInput => "end of input"

namespace SyntaxError

def Cause.describe : Cause → String
  | unknownCommand word => "unknown command `" ++ word ++ "`"
  | expectedNumber found => "expected a number, but found " ++ found.describe
  | expectedIdentifier found => "expected an identifier, but found " ++ found.describe
  | unterminatedBlock => "unterminated block, expected `\x7d` to close this `\x7b`"

/-- One line of text for the reader of the program. -/
def message (e : SyntaxError) : String :=
  e.cause.describe ++ " on line " ++ toString e.position.line ++ ", column " ++ toString e.position.column

end SyntaxError

end Easel
