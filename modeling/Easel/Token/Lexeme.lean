import Easel.Text.Blank
import Easel.Token

/-!
# Lexemes

A text splits into lexemes: numbers, words, operators, comments, and single characters that mean
nothing (blanks among them). The split takes the longest number, word or comment at each place, and
no text fails. `tokenize` keeps the lexemes that are tokens, with their places.

`flatMap_split`: the lexemes of a text, put together again, are the text.
-/

namespace Easel

/-- A piece of a text. `kind` is none for a character that belongs to no token. -/
structure Lexeme where
  kind : Option TokenKind
  chars : List Char
deriving DecidableEq, Repr

namespace Lexeme

def isOperatorChar (c : Char) : Bool :=
  ['+', '-', '*', '/', '=', '(', ')', '{', '}'].contains c

def isWordStart (c : Char) : Bool := c.isAlpha || c = '_'

def isWordChar (c : Char) : Bool := c.isAlphanum || c = '_'

def isNumberChar (c : Char) : Bool := c.isDigit || c = '.'

def isCommentChar (c : Char) : Bool := c ≠ '\n'

/-- A word is a command if it is reserved, and an identifier if not. -/
def wordKind (word : List Char) : TokenKind :=
  if (Keyword.ofWord? (String.ofList word)).isSome then .command else .identifier

/-- The lexeme that starts with `c`, where `rest` follows, and what follows it. -/
def next (c : Char) (rest : List Char) : Lexeme × List Char :=
  let munch (more : Char → Bool) (kind : List Char → TokenKind) : Lexeme × List Char :=
    let chars := c :: rest.takeWhile more
    (⟨some (kind chars), chars⟩, rest.dropWhile more)
  if c = '/' ∧ rest.head? = some '/' then munch isCommentChar fun _ => .comment
  else if c.isDigit then munch isNumberChar fun _ => .number
  else if isWordStart c then munch isWordChar wordKind
  else if isOperatorChar c then (⟨some .operator, [c]⟩, rest)
  else (⟨none, [c]⟩, rest)

theorem chars_append_next (c : Char) (rest : List Char) :
    (next c rest).1.chars ++ (next c rest).2 = c :: rest := by
  unfold next
  dsimp only
  (repeat' split) <;> simp

theorem length_next_le (c : Char) (rest : List Char) : (next c rest).2.length ≤ rest.length := by
  unfold next
  dsimp only
  (repeat' split) <;> simp [(List.dropWhile_suffix _).length_le]

/-- The lexemes of a text, in order. -/
def split : List Char → List Lexeme
  | [] => []
  | c :: rest => (next c rest).1 :: split (next c rest).2
termination_by cs => cs.length
decreasing_by
  have := length_next_le c rest
  simp only [List.length_cons]
  omega

theorem flatMap_split (cs : List Char) : (split cs).flatMap Lexeme.chars = cs := by
  fun_induction split cs with
  | case1 => rfl
  | case2 c rest ih => rw [List.flatMap_cons, ih, chars_append_next]

/-- The text of the token that a lexeme makes: of a comment, what follows the slashes, trimmed. -/
def tokenText (kind : TokenKind) (chars : List Char) : String :=
  String.ofList (if kind = .comment then Text.trim (chars.drop 2) else chars)

/-- The tokens among lexemes that start at `p`. -/
def place (p : Position) : List Lexeme → List Token
  | [] => []
  | l :: ls =>
    let tokens := place (p.advanceAll l.chars) ls
    match l.kind with
    | none => tokens
    | some kind => ⟨kind, tokenText kind l.chars, p⟩ :: tokens

end Lexeme

/-- The tokens of a text. -/
def tokenize (source : String) : List Token :=
  Lexeme.place .start (Lexeme.split source.toList)

end Easel
