import Easel.Yaml.Token.Block
import Easel.Yaml.Token.Plain
import Easel.Yaml.Token.Quoted

/-!
# The tokens of a document

Block collections have no brackets: their tokens come from the columns where nodes start. A node that
turns out to be the key of a mapping gets its tokens afterwards, when the colon after it is read; until
then its place is kept as a possible key. `TokenStream.ofText?` gives all the tokens of a text.
-/

namespace Easel.Yaml

/-- Where a key may have started: after so many tokens, and where in the text. A required key has to be
one, because nothing else may start in its column. -/
structure PossibleKey where
  tokensBefore : Nat
  mark : Mark
  required : Bool
deriving DecidableEq, Repr

/-- A text that has been read up to `cursor`. -/
structure TokenStream where
  cursor : Cursor
  /-- The tokens so far, latest first. -/
  tokens : List Token
  /-- The columns of the block collections that are open, innermost first. -/
  columns : List Nat
  /-- For the text outside flow collections and for each one that is open, innermost first, where a key
  may have started. -/
  keys : List (Option PossibleKey)
  /-- Whether a key may start at the cursor. -/
  keyAllowed : Bool
deriving DecidableEq, Repr

namespace TokenStream

def start (text : List Char) : TokenStream := ⟨⟨⟨0, 0, 0⟩, text⟩, [], [], [none], true⟩

def inFlow (s : TokenStream) : Bool := s.keys.length > 1

def push (s : TokenStream) (t : Token) : TokenStream := { s with tokens := t :: s.tokens }

/-! ## Keys -/

/-- Forgets that a key may have started; a required one may not be forgotten. -/
def forgetKey? (s : TokenStream) : Option TokenStream :=
  match s.keys with
  | some k :: keys => if k.required then none else some { s with keys := none :: keys }
  | _ => some s

/-- Notes that a key may start here, if one may. -/
def noteKey? (s : TokenStream) : Option TokenStream :=
  if s.keyAllowed then do
    let s ← s.forgetKey?
    let required := !s.inFlow && s.columns.head? == some s.cursor.column
    return { s with keys := some ⟨s.tokens.length, s.cursor.mark, required⟩ :: s.keys.drop 1 }
  else some s

/-- A key ends on the line where it starts, and within 1024 bytes. -/
def dropStaleKeys? (s : TokenStream) : Option TokenStream := do
  let stale (k : PossibleKey) : Bool :=
    k.mark.line < s.cursor.mark.line || k.mark.offset + 1024 < s.cursor.mark.offset
  let keys ← s.keys.mapM fun
    | some k => if stale k then (if k.required then none else some none) else some (some k)
    | none => some none
  return { s with keys := keys }

/-! ## Block collections -/

/-- Closes the block collections that start beyond `column`. -/
def closeColumns (column : Option Nat) (s : TokenStream) : TokenStream :=
  if s.inFlow then s
  else
    let beyond (n : Nat) : Bool := column.all (· < n)
    { s with
      tokens := (s.columns.takeWhile beyond).map (fun _ => Token.blockEnd) ++ s.tokens
      columns := s.columns.dropWhile beyond }

/-- Opens a block collection at a column beyond all that are open, with its first token after
`tokensBefore` others. -/
def openColumn (column tokensBefore : Nat) (t : Token) (s : TokenStream) : TokenStream :=
  if s.inFlow || !s.columns.head?.all (· < column) then s
  else
    let later := s.tokens.length - tokensBefore
    { s with
      tokens := s.tokens.take later ++ t :: s.tokens.drop later
      columns := column :: s.columns }

/-! ## Indicators -/

/-- Past an indicator of `n` characters with a token of its own. -/
def take (n : Nat) (t : Token) (keyAllowed : Bool) (s : TokenStream) : TokenStream :=
  { s.push t with cursor := s.cursor.drop n, keyAllowed := keyAllowed }

/-- A mark between documents. -/
def documentMark? (t : Token) (s : TokenStream) : Option TokenStream := do
  return (← (s.closeColumns none).forgetKey?).take 3 t false

def flowStart? (t : Token) (s : TokenStream) : Option TokenStream := do
  let s ← s.noteKey?
  return { s.take 1 t true with keys := none :: s.keys }

def flowEnd? (t : Token) (s : TokenStream) : Option TokenStream := do
  let s ← s.forgetKey?
  return { s.take 1 t false with keys := if s.inFlow then s.keys.drop 1 else s.keys }

/-- An indicator that starts an item of a block collection. It has to stand where a key may start. -/
def blockItem? (start t : Token) (s : TokenStream) : Option TokenStream := do
  if !s.inFlow && !s.keyAllowed then none
  let s ← (s.openColumn s.cursor.column s.tokens.length start).forgetKey?
  return s.take 1 t true

/-- The indicator of a key. -/
def keyMark? (s : TokenStream) : Option TokenStream := do
  let s' ← s.blockItem? .blockMappingStart .key
  return { s' with keyAllowed := !s.inFlow }

/-- The colon before a value. If a key may have started, it did. -/
def valueMark? (s : TokenStream) : Option TokenStream :=
  match s.keys with
  | some k :: keys =>
    let later := s.tokens.length - k.tokensBefore
    let tokens := s.tokens.take later ++ Token.key :: s.tokens.drop later
    let s := { s with tokens := tokens, keys := none :: keys }
    some ((s.openColumn k.mark.column k.tokensBefore .blockMappingStart).take 1 .value false)
  | _ =>
    if !s.inFlow && !s.keyAllowed then none
    else some ((s.openColumn s.cursor.column s.tokens.length .blockMappingStart).take 1 .value (!s.inFlow))

/-! ## Everything else -/

/-- A token that may start a key, read after an indicator of `n` characters. -/
def node? (n : Nat) (read : Cursor → Option (Token × Cursor)) (s : TokenStream) : Option TokenStream := do
  let s ← s.noteKey?
  let (t, c) ← read (s.cursor.drop n)
  return { s.push t with cursor := c, keyAllowed := false }

def blockScalar? (spelling : Spelling) (s : TokenStream) : Option TokenStream := do
  let s ← s.forgetKey?
  let (t, c) ← Token.block? spelling s.columns.head? (s.cursor.drop 1)
  return { s.push t with cursor := c, keyAllowed := true }

def plainScalar? (s : TokenStream) : Option TokenStream := do
  let s ← s.noteKey?
  let indent := match s.columns.head? with | none => 0 | some n => n + 1
  let p ← Token.plain? s.inFlow indent s.cursor
  return { s.push (.scalar .plain (String.ofList p.text)) with cursor := p.after, keyAllowed := p.broken }

def directive? (s : TokenStream) : Option TokenStream := do
  let s ← (s.closeColumns none).forgetKey?
  let (t, c) ← Token.directive? (s.cursor.drop 1)
  return { s.push t with cursor := c, keyAllowed := false }

/-- Whether a plain scalar may start with this character; some indicators may start one. -/
def startsPlain (inFlow : Bool) (c : Char) (rest : List Char) : Bool :=
  match c with
  | '-' => !(rest.take 1).any isBlank
  | '?' | ':' => !inFlow && !endsWord rest
  | _ => !isGap c && !",[]\x7b\x7d#&*!|>'\"%@`".toList.contains c

/-- Reads the token that starts with `ch`, where `rest` follows. -/
def token? (s : TokenStream) (ch : Char) (rest : List Char) : Option TokenStream :=
  let starts := s.inFlow || endsWord rest
  if s.cursor.column = 0 ∧ ch = '%' then s.directive?
  else if s.cursor.isDocumentMark then
    s.documentMark? (if ch = '-' then .documentStart else .documentEnd)
  else
    match ch with
    | '[' => s.flowStart? .flowSequenceStart
    | '\x7b' => s.flowStart? .flowMappingStart
    | ']' => s.flowEnd? .flowSequenceEnd
    | '\x7d' => s.flowEnd? .flowMappingEnd
    | ',' => do return (← s.forgetKey?).take 1 .flowEntry true
    | '*' => s.node? 1 fun c => (Token.name? c).map fun (name, c) => (.alias name, c)
    | '&' => s.node? 1 fun c => (Token.name? c).map fun (name, c) => (.anchor name, c)
    | '!' => s.node? 0 (Token.tag? s.inFlow)
    | '\'' | '"' => s.node? 1 (Token.quoted? ch)
    | _ =>
      if ch = '-' ∧ endsWord rest then s.blockItem? .blockSequenceStart .blockEntry
      else if ch = '?' ∧ starts then s.keyMark?
      else if ch = ':' ∧ starts then s.valueMark?
      else if ch = '|' ∧ !s.inFlow then s.blockScalar? .literal
      else if ch = '>' ∧ !s.inFlow then s.blockScalar? .folded
      else if startsPlain s.inFlow ch rest then s.plainScalar?
      else none

/-- To the start of the next token. -/
def separate (s : TokenStream) : TokenStream :=
  let (c, broken) := Cursor.separation s.inFlow (s.inFlow || !s.keyAllowed) false false s.cursor.mark s.cursor.rest
  { s with cursor := c, keyAllowed := s.keyAllowed || (broken && !s.inFlow) }

/-- Reads all tokens from here on. Every token takes a character at least. -/
def readAll? : Nat → TokenStream → Option (List Token)
  | 0, _ => none
  | fuel + 1, s => do
    let s ← s.separate.dropStaleKeys?
    let s := s.closeColumns (some s.cursor.column)
    match s.cursor.rest with
    | [] => return (← (s.closeColumns none).forgetKey?).tokens.reverse
    | ch :: rest => readAll? fuel (← s.token? ch rest)

/-- The tokens of a text, if it has only characters that a document may hold and every scalar, tag and
key in it is well formed. -/
def ofText? (text : String) : Option (List Token) :=
  let chars := text.toList
  if chars.all isAllowed then readAll? (chars.length + 1) (start (normalizeBreaks chars)) else none

end TokenStream

end Easel.Yaml
