import Easel.Yaml.TokenStream

/-!
# Documents as trees

A tree keeps what a document says and forgets how it is laid out, apart from the spelling of its
scalars.

Anchors are numbered: the number of an anchor is how many different names the anchors before it have. An
alias has the number of the latest anchor of its name, and stands for the last node of the whole document
that is marked with this number. As long as no name is used twice, that is the node with the name.
`Tree.resolve` puts scalars in the place of their aliases; an alias of a collection is kept as such.

`Tree.ofText?` reads a text of one document.
-/

namespace Easel.Yaml

structure ScalarNode where
  tag : Option (List UInt8)
  spelling : Spelling
  text : String
deriving DecidableEq, Repr

inductive Tree
  | scalar (s : ScalarNode)
  | sequence (items : List Tree)
  | mapping (entries : List (Tree × Tree))
  /-- An alias of what is marked with a number. -/
  | alias (number : Nat)
deriving Repr

/-- An anchor and the scalar that it marks, if that is no collection. -/
structure Anchor where
  name : String
  number : Nat
  scalar : Option ScalarNode
deriving DecidableEq, Repr

namespace Tree

/-- A node that is not there: a plain scalar without text. -/
def absent : Tree := .scalar ⟨none, .plain, ""⟩

/-! ## Aliases -/

mutual

/-- The tree with the scalars that aliases stand for, given all anchors of the document, latest first. -/
def resolve (anchors : List Anchor) : Tree → Tree
  | .scalar s => .scalar s
  | .sequence items => .sequence (resolveItems anchors items)
  | .mapping entries => .mapping (resolveEntries anchors entries)
  | .alias number =>
    match (anchors.find? (·.number = number)).bind Anchor.scalar with
    | some s => .scalar s
    | none => .alias number

def resolveItems (anchors : List Anchor) : List Tree → List Tree
  | [] => []
  | t :: ts => resolve anchors t :: resolveItems anchors ts

def resolveEntries (anchors : List Anchor) : List (Tree × Tree) → List (Tree × Tree)
  | [] => []
  | (key, value) :: es => (resolve anchors key, resolve anchors value) :: resolveEntries anchors es

end

/-! ## Reading tokens -/

/-- The tokens that are left, what the tag handles of the document stand for, and the anchors so far,
latest first. -/
structure Source where
  tokens : List Token
  handles : List (String × List UInt8)
  anchors : List Anchor

abbrev Reader := StateT Source Option

namespace Reader

def peek : Reader (Option Token) := return (← get).tokens.head?

def skip : Reader Unit := modify fun s => { s with tokens := s.tokens.drop 1 }

/-- Takes the next token, if it is `t`. -/
def accept (t : Token) : Reader Bool := do
  if (← peek) == some t then skip; return true else return false

/-- Whether the next token is one of these. -/
def isAt (ts : List Token) : Reader Bool := return (← peek).any ts.contains

def refuse {α : Type} : Reader α := fun _ => none

/-- Takes the next token, which has to be `t`. -/
def expect (t : Token) : Reader Unit := do
  if !(← accept t) then refuse

/-- What a tag stands for. A handle has to be known. -/
def tagOf (handle : String) (suffix : List UInt8) : Reader (List UInt8) := do
  if handle.isEmpty then return suffix
  match (← get).handles.lookup handle with
  | some stem => return stem ++ suffix
  | none => refuse

/-- The anchor and the tag before a node, in either order. -/
def properties : Reader (Option String × Option (List UInt8)) := do
  let anchor? : Reader (Option String) := do
    match ← peek with
    | some (.anchor name) => skip; return some name
    | _ => return none
  let tag? : Reader (Option (List UInt8)) := do
    match ← peek with
    | some (.tag handle suffix) => skip; return some (← tagOf handle suffix)
    | _ => return none
  match ← anchor? with
  | some name => return (some name, ← tag?)
  | none =>
    let tag ← tag?
    return (← anchor?, tag)

/-- Notes what an anchor marks. -/
def mark (anchor : Option String) (scalar : Option ScalarNode) : Reader Unit :=
  match anchor with
  | some name => modify fun source =>
    let number := (source.anchors.map Anchor.name).eraseDups.length
    { source with anchors := ⟨name, number, scalar⟩ :: source.anchors }
  | none => return ()

/-- The alias of a name. An anchor of that name has to come before it. -/
def aliased (name : String) : Reader Tree := do
  match (← get).anchors.find? (·.name = name) with
  | some anchor => return .alias anchor.number
  | none => refuse

end Reader

open Reader

/-! ## Nodes -/

/-- The tokens that end a node of a block collection before it has started. -/
def blockStops : List Token := [.key, .value, .blockEnd]

mutual

/-- A node. A block collection may start only where `block`, and a sequence without indentation of its
own only where `indentless`. -/
def node (block indentless : Bool) : Nat → Reader Tree
  | 0 => refuse
  | fuel + 1 => do
    if let some (.alias name) ← peek then
      skip
      return ← aliased name
    let (anchor, tag) ← properties
    if indentless && (← isAt [.blockEntry]) then
      mark anchor none
      return .sequence (← indentlessItems fuel)
    match ← peek with
    | some (.scalar spelling text) =>
      skip
      mark anchor (some ⟨tag, spelling, text⟩)
      return .scalar ⟨tag, spelling, text⟩
    | some .flowSequenceStart =>
      skip
      mark anchor none
      return .sequence (← flowItems true fuel)
    | some .flowMappingStart =>
      skip
      mark anchor none
      return .mapping (← flowEntries true fuel)
    | some .blockSequenceStart =>
      if !block then refuse
      skip
      mark anchor none
      return .sequence (← blockItems fuel)
    | some .blockMappingStart =>
      if !block then refuse
      skip
      mark anchor none
      return .mapping (← blockEntries fuel)
    | _ =>
      if anchor.isNone && tag.isNone then refuse
      mark anchor (some ⟨tag, .plain, ""⟩)
      return .scalar ⟨tag, .plain, ""⟩

/-- A node, or an absent one before a token of `stops`. -/
def nodeUnless (stops : List Token) (block indentless : Bool) : Nat → Reader Tree
  | 0 => refuse
  | fuel + 1 => do
    if ← isAt stops then return absent
    node block indentless fuel

def blockItems : Nat → Reader (List Tree)
  | 0 => refuse
  | fuel + 1 => do
    if ← accept .blockEnd then return []
    expect .blockEntry
    let item ← nodeUnless [.blockEntry, .blockEnd] true false fuel
    return item :: (← blockItems fuel)

def indentlessItems : Nat → Reader (List Tree)
  | 0 => refuse
  | fuel + 1 => do
    if !(← accept .blockEntry) then return []
    let item ← nodeUnless (.blockEntry :: blockStops) true false fuel
    return item :: (← indentlessItems fuel)

/-- Entries of a block mapping. Each starts with a mark of its key, but key and value may be absent. -/
def blockEntries : Nat → Reader (List (Tree × Tree))
  | 0 => refuse
  | fuel + 1 => do
    if ← accept .blockEnd then return []
    expect .key
    let key ← nodeUnless blockStops true true fuel
    let value ← if ← accept .value then nodeUnless blockStops true true fuel else pure absent
    return (key, value) :: (← blockEntries fuel)

/-- Items of a flow sequence, `first` if none came before. An item after a mark of a key is a mapping of
one entry; if its key is absent, the token after the mark goes with it. -/
def flowItems (first : Bool) : Nat → Reader (List Tree)
  | 0 => refuse
  | fuel + 1 => do
    if ← accept .flowSequenceEnd then return []
    if !first then expect .flowEntry
    if ← accept .flowSequenceEnd then return []
    let item ←
      if ← accept .key then do
        let stops := [.value, .flowEntry, .flowSequenceEnd]
        let key ← if ← isAt stops then (do skip; return absent) else node false false fuel
        let value ← flowValue .flowSequenceEnd fuel
        pure (.mapping [(key, value)])
      else node false false fuel
    return item :: (← flowItems false fuel)

/-- Entries of a flow mapping, `first` if none came before. -/
def flowEntries (first : Bool) : Nat → Reader (List (Tree × Tree))
  | 0 => refuse
  | fuel + 1 => do
    if ← accept .flowMappingEnd then return []
    if !first then expect .flowEntry
    if ← accept .flowMappingEnd then return []
    let entry ←
      if ← accept .key then do
        let key ← nodeUnless [.value, .flowEntry, .flowMappingEnd] false false fuel
        pure (key, ← flowValue .flowMappingEnd fuel)
      else pure (← node false false fuel, absent)
    return entry :: (← flowEntries false fuel)

/-- The value of an entry in a flow collection that `stop` ends. -/
def flowValue (stop : Token) : Nat → Reader Tree
  | 0 => refuse
  | fuel + 1 => do
    if ← accept .value then nodeUnless [.flowEntry, stop] false false fuel else return absent

end

/-! ## Documents -/

/-- The handles that need no directive. -/
def commonHandles : List (String × List UInt8) := [("!", octets "!"), ("!!", octets "tag:yaml.org,2002:")]

/-- The directives before a document, where `version` tells whether there was one of those already. A
version other than 1.1 and 1.2, and a repeated directive, are refused. -/
def directives (version : Bool) (handles : List (String × List UInt8)) :
    List Token → Option (List (String × List UInt8) × List Token)
  | .versionDirective major minor :: ts =>
    if version || major ≠ 1 || (minor ≠ 1 && minor ≠ 2) then none else directives true handles ts
  | .tagDirective handle stem :: ts =>
    if (handles.lookup handle).isSome then none else directives version ((handle, stem) :: handles) ts
  | ts => some (handles, ts)

/-- The tree of a text with no more than one document, and an absent node for a text with none. -/
def ofText? (text : String) : Option Tree := do
  let tokens ← TokenStream.ofText? text
  if tokens.isEmpty then return absent
  let (handles, rest) ← directives false [] tokens
  let explicit := rest.head? == some .documentStart
  if !explicit && rest.length < tokens.length then none
  let rest := if explicit then rest.drop 1 else rest
  let source : Source := ⟨rest, handles ++ commonHandles, []⟩
  let stops : List Token := [.documentStart, .documentEnd]
  let isEmpty := explicit && (rest.isEmpty || rest.head?.any stops.contains)
  let (tree, source) ←
    if isEmpty then some (absent, source) else (node true false (3 * tokens.length + 3)).run source
  if (source.tokens.dropWhile (· == .documentEnd)).isEmpty then return tree.resolve source.anchors
  else none

end Tree

end Easel.Yaml
