import Easel.Yaml.Token

/-!
# Plain scalars

A plain scalar ends at a colon before a blank, at a hash after one, and in a flow collection at a comma
or a bracket. It goes on in the next line where that is indented.
-/

namespace Easel.Yaml.Token

/-- The characters that end a plain scalar in a flow collection. -/
def isFlowIndicator (c : Char) : Bool := ",[]\x7b\x7d".toList.contains c

/-- The characters of a plain scalar up to a gap or its end. In a flow collection a colon right before
an indicator is refused. -/
def plainWord? (inFlow : Bool) : List Char → Option (List Char)
  | [] => some []
  | c :: rest =>
    if isGap c then some []
    else if inFlow && c == ':' && (rest.take 1).any fun d => d == '?' || isFlowIndicator d then none
    else if (c == ':' && endsWord rest) || (inFlow && isFlowIndicator c) then some []
    else (plainWord? inFlow rest).map (c :: ·)

/-- Whether a tab stands below column `indent` in a line that the gap starts. -/
def hasTabBelow (indent : Nat) : Bool → Mark → List Char → Bool
  | _, _, [] => false
  | broken, m, c :: cs =>
    (broken && c == '\t' && m.column < indent) || hasTabBelow indent (broken || isBreak c) (m.advance c) cs

/-- A plain scalar as far as it has been read: its text, and whether a line has ended after it. -/
structure PlainText where
  text : List Char
  broken : Bool
  after : Cursor

/-- The rest of a plain scalar, where `gap` came before it. -/
def plainFrom? (inFlow : Bool) (indent : Nat) (gap : List Char) : Nat → Cursor → Option PlainText
  | 0, _ => none
  | fuel + 1, c => do
    let stop : PlainText := ⟨[], gap.any isBreak, c⟩
    if c.isDocumentMark || c.startsWith "#" then return stop
    let word ← plainWord? inFlow c.rest
    if word.isEmpty then return stop
    let c := c.drop word.length
    let next := c.rest.takeWhile isGap
    if hasTabBelow indent false c.mark next then none
    let c := c.drop next.length
    let ends := next.isEmpty || (!inFlow && next.any isBreak && c.column < indent)
    let rest ← if ends then some ⟨[], next.any isBreak, c⟩ else plainFrom? inFlow indent next fuel c
    return { rest with text := fold gap ++ word ++ rest.text }

/-- A plain scalar in a collection that is indented less than `indent`. -/
def plain? (inFlow : Bool) (indent : Nat) (c : Cursor) : Option PlainText :=
  plainFrom? inFlow indent [] (c.rest.length + 1) c

end Easel.Yaml.Token
