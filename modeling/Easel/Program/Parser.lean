import Easel.Number.Literal
import Easel.Program
import Easel.SyntaxError
import Easel.Token.Lexeme

/-!
# From tokens to programs

The grammar has items only: a command with its arguments, or a stray token, which means nothing. A
`repeat` takes a body after its count, either one item or any number of items in braces.

Tokens are read from left to right. Repeats whose body is not complete wait on a stack of frames, and
an item belongs to the innermost of them (`Draft.addItem`). `Program.parse` is the whole parser and
`Program.read` the parser of a text.
-/

namespace Easel

/-! ## Arguments -/

/-- The value of a number token. -/
def Token.number? (t : Token) : Option Float :=
  if t.kind = .number then Number.read? t.text else none

/-- The name that an identifier token is. -/
def Token.name? (t : Token) : Option String :=
  if t.kind = .identifier then some t.text else none

/-- A command, or the head of a repeat whose body follows. -/
inductive Phrase
  | command (c : Command)
  | repeatHead (count : Float)

namespace Phrase

/-- The error that something else was expected at the start of `tokens`; `last` is the place to blame
at the end of the input. -/
def unexpected (cause : Found → SyntaxError.Cause) (last : Position) : List Token → SyntaxError
  | [] => ⟨cause .endOfInput, last⟩
  | t :: _ => ⟨cause (.token t.text), t.position⟩

/-- The number that `tokens` start with. -/
def number (last : Position) (tokens : List Token) : Except SyntaxError Float :=
  match tokens.head?.bind Token.number? with
  | some value => .ok value
  | none => .error (unexpected .expectedNumber last tokens)

/-- The identifier that `tokens` start with. -/
def name (last : Position) (tokens : List Token) : Except SyntaxError String :=
  match tokens.head?.bind Token.name? with
  | some name => .ok name
  | none => .error (unexpected .expectedIdentifier last tokens)

/-- The point whose coordinates are the two numbers that `tokens` start with. -/
def point (last : Position) (tokens : List Token) : Except SyntaxError Point := do
  let x ← number last tokens
  let y ← number last (tokens.drop 1)
  return ⟨x, y⟩

/-- How many tokens follow a keyword as its arguments. -/
def arity : Keyword → Nat
  | .pen | .paper | .color | .repeat => 1
  | .set => 2
  | .circle => 3
  | .line | .rect => 4

/-- The phrase of a keyword and of the arguments that `tokens` start with. -/
def read (last : Position) (tokens : List Token) : Keyword → Except SyntaxError Phrase
  | .pen => return .command (.draw (.pen (← number last tokens)))
  | .paper => return .command (.draw (.paper (← number last tokens)))
  | .color => return .command (.draw (.color (← number last tokens)))
  | .line => do
    let a ← point last tokens
    let b ← point last (tokens.drop 2)
    return .command (.draw (.shape (.line a b)))
  | .rect => do
    let a ← point last tokens
    let b ← point last (tokens.drop 2)
    return .command (.draw (.shape (.rect a b)))
  | .circle => do
    let center ← point last tokens
    let radius ← number last (tokens.drop 2)
    return .command (.draw (.shape (.circle center radius)))
  | .set => do
    let name ← name last tokens
    let value ← number last (tokens.drop 1)
    return .command (.set name value)
  | .repeat => return .repeatHead (← number last tokens)

end Phrase

/-! ## Repeats in progress -/

/-- A repeat whose body is not complete. `awaiting` has read nothing of the body; `block` has read its
opening brace, at `brace`, and the commands of `body`, latest first. -/
inductive Frame
  | awaiting (count : Float)
  | block (count : Float) (brace : Position) (body : List Command)

/-- A program in progress: the unfinished repeats, innermost first, and the finished commands outside
all of them, latest first. -/
structure Draft where
  frames : List Frame
  done : List Command

namespace Draft

/-- Completes an item, which is a command or nothing. If the innermost repeat awaits its body, the
item is the whole body, and that repeat is an item in its turn. -/
def complete (done : List Command) : List Frame → Option Command → Draft
  | [], item => ⟨[], item.toList ++ done⟩
  | .block count brace body :: frames, item => ⟨.block count brace (item.toList ++ body) :: frames, done⟩
  | .awaiting count :: frames, item => complete done frames (some (.repeat count item.toList))

def addItem (d : Draft) (item : Option Command) : Draft :=
  complete d.done d.frames item

def addPhrase (d : Draft) : Phrase → Draft
  | .command c => d.addItem (some c)
  | .repeatHead count => ⟨.awaiting count :: d.frames, d.done⟩

/-- A token that is no command opens or closes a block where a brace may stand, and is an item that
means nothing anywhere else. -/
def addOther (d : Draft) (t : Token) : Draft :=
  match d.frames with
  | .awaiting count :: frames =>
    if t.isOperator '\x7b' then ⟨.block count t.position [] :: frames, d.done⟩ else d.addItem none
  | .block count _ body :: frames =>
    if t.isOperator '\x7d' then complete d.done frames (some (.repeat count body.reverse)) else d.addItem none
  | [] => d.addItem none

/-- The program at the end of the input. A repeat that still awaits its body has none. -/
def finish (d : Draft) : Except SyntaxError Program :=
  let d :=
    match d.frames with
    | .awaiting _ :: _ => d.addItem none
    | _ => d
  match d.frames with
  | .block _ brace _ :: _ => .error ⟨.unterminatedBlock, brace⟩
  | _ => .ok d.done.reverse

/-- Reads grammatical tokens into a draft. -/
def extend (last : Position) (d : Draft) : List Token → Except SyntaxError Draft
  | [] => .ok d
  | t :: rest =>
    if t.kind = .command then
      match Keyword.ofWord? t.text with
      | none => .error ⟨.unknownCommand t.text, t.position⟩
      | some k =>
        match Phrase.read last rest k with
        | .error e => .error e
        | .ok phrase => extend last (d.addPhrase phrase) (rest.drop (Phrase.arity k))
    else extend last (d.addOther t) rest
termination_by tokens => tokens.length
decreasing_by all_goals simp only [List.length_drop, List.length_cons]; omega

end Draft

namespace Program

/-- The place to blame at the end of the input. -/
def lastPosition (tokens : List Token) : Position :=
  match tokens.getLast? with
  | some t => t.position
  | none => .start

/-- The program that the tokens are, or the first error in it. -/
def parse (tokens : List Token) : Except SyntaxError Program := do
  let tokens := tokens.filter Token.isGrammatical
  let draft ← Draft.extend (lastPosition tokens) ⟨[], []⟩ tokens
  draft.finish

/-- The program that a text is. -/
def read (source : String) : Except SyntaxError Program :=
  parse (tokenize source)

end Program

end Easel
