import Easel.Proofs.Program.Parsing
import Mathlib.Data.List.Forall2
import Mathlib.Data.List.Infix

/-!
# Commands in order

A program is a tree, and the tokens are a row. `preorder` lays the tree out as a row again, each repeat before
its body, and `commandPlaces` are the places in the tokens where a command starts. Item by item, block by block
and body by body the grammar spends the places of the one on the nodes of the other (`Accounts`), and what it
skips is no command.

`preorder_of_parse`: the nodes of a parsed program are its commands, in the order of the tokens, each with the
values of the tokens right behind its keyword.
-/

namespace Easel

open Grammar

/-! ## Nodes -/

mutual

/-- The nodes of a command, a repeat before its body. -/
def Command.preorder : Command → List Phrase
  | .draw call => [.command (.draw call)]
  | .set name value => [.command (.set name value)]
  | .repeat count body => .repeatHead count :: preorder body
  | .comment => [.command .comment]

/-- The nodes of commands in a row. -/
def preorder : List Command → List Phrase
  | [] => []
  | c :: cs => c.preorder ++ preorder cs

end

theorem preorder_append (cs ds : List Command) : preorder (cs ++ ds) = preorder cs ++ preorder ds := by
  induction cs with
  | nil => rfl
  | cons c cs ih => rw [List.cons_append, preorder, preorder, ih, List.append_assoc]

theorem preorder_singleton (c : Command) : preorder [c] = c.preorder := by
  rw [preorder, preorder, List.append_nil]

/-- A command that arguments make has no body. -/
theorem preorder_of_arguments {k : Keyword} {arguments : List Token} {c : Command} (h : Arguments k arguments c) :
    c.preorder = [.command c] := by
  cases h <;> rfl

/-! ## Places of commands -/

/-- The tokens from each command on. -/
def commandPlaces (tokens : List Token) : List (List Token) :=
  tokens.tails.filter fun ts => ts.head?.any (·.kind = .command)

/-- The tokens start with a keyword, and the tokens right behind it make the node. -/
inductive StandsFor : List Token → Phrase → Prop
  | command {t k arguments c rest} : IsKeyword t k → Arguments k arguments c →
      StandsFor (t :: (arguments ++ rest)) (.command c)
  | repeatHead {t u count rest} : IsKeyword t .repeat → IsNumber u count →
      StandsFor (t :: u :: rest) (.repeatHead count)

variable {t : Token} {tokens rest : List Token}

theorem commandPlaces_nil : commandPlaces [] = [] := rfl

theorem commandPlaces_cons_of_command (h : t.kind = .command) :
    commandPlaces (t :: rest) = (t :: rest) :: commandPlaces rest := by
  rw [commandPlaces, List.tails_cons, List.filter_cons_of_pos (by simp [h]), commandPlaces]

theorem commandPlaces_cons_of_ne (h : t.kind ≠ .command) : commandPlaces (t :: rest) = commandPlaces rest := by
  rw [commandPlaces, List.tails_cons, List.filter_cons_of_neg (by simp [h]), commandPlaces]

theorem commandPlaces_append_of_ne {skipped : List Token} (h : ∀ t ∈ skipped, t.kind ≠ .command) :
    commandPlaces (skipped ++ rest) = commandPlaces rest := by
  induction skipped with
  | nil => rfl
  | cons t skipped ih =>
    obtain ⟨ht, hskipped⟩ := List.forall_mem_cons.1 h
    rw [List.cons_append, commandPlaces_cons_of_ne ht, ih hskipped]

theorem length_commandPlaces (tokens : List Token) :
    (commandPlaces tokens).length = tokens.countP (·.kind = .command) := by
  induction tokens with
  | nil => rfl
  | cons t rest ih =>
    by_cases h : t.kind = .command
    · rw [commandPlaces_cons_of_command h, List.length_cons, ih, List.countP_cons_of_pos (by simpa using h)]
    · rw [commandPlaces_cons_of_ne h, ih, List.countP_cons_of_neg (by simpa using h)]

/-! ## What the grammar spends -/

/-- The commands of `tokens` are those that the nodes stand for, and then those of `rest`. -/
def Accounts (tokens : List Token) (nodes : List Phrase) (rest : List Token) : Prop :=
  ∃ heads, commandPlaces tokens = heads ++ commandPlaces rest ∧ List.Forall₂ StandsFor heads nodes

theorem Accounts.refl (tokens : List Token) : Accounts tokens [] tokens := ⟨[], rfl, .nil⟩

theorem Accounts.skip (h : t.kind ≠ .command) : Accounts (t :: rest) [] rest := ⟨[], commandPlaces_cons_of_ne h, .nil⟩

theorem Accounts.trans {middle : List Token} {nodes nodes' : List Phrase} (h : Accounts tokens nodes middle)
    (h' : Accounts middle nodes' rest) : Accounts tokens (nodes ++ nodes') rest := by
  obtain ⟨heads, hcommands, hnodes⟩ := h
  obtain ⟨heads', hcommands', hnodes'⟩ := h'
  refine ⟨heads ++ heads', ?_, List.rel_append hnodes hnodes'⟩
  rw [hcommands, hcommands', List.append_assoc]

theorem Accounts.command {k : Keyword} {arguments : List Token} {c : Command} (hk : IsKeyword t k)
    (ha : Arguments k arguments c) : Accounts (t :: (arguments ++ rest)) [.command c] rest := by
  have hkind : ∀ a ∈ arguments, a.kind ≠ .command := by
    intro a hmem
    rcases kind_of_arguments ha a hmem with h | h <;> simp [h]
  refine ⟨[t :: (arguments ++ rest)], ?_, .cons (.command hk ha) .nil⟩
  rw [commandPlaces_cons_of_command hk.1, commandPlaces_append_of_ne hkind, List.singleton_append]

theorem Accounts.repeatHead {u : Token} {count : Float} (hk : IsKeyword t .repeat) (hu : IsNumber u count) :
    Accounts (t :: u :: rest) [.repeatHead count] rest := by
  refine ⟨[t :: u :: rest], ?_, .cons (.repeatHead hk hu) .nil⟩
  rw [commandPlaces_cons_of_command hk.1, commandPlaces_cons_of_ne (by simp [hu.1]), List.singleton_append]

theorem Accounts.skip_operator {op : Char} (h : t.isOperator op) : Accounts (t :: rest) [] rest := by
  apply Accounts.skip
  rw [kind_of_isOperator h]
  decide

mutual

theorem accounts_of_item {tokens rest : List Token} {item : Option Command} (h : Item tokens item rest) :
    Accounts tokens (preorder item.toList) rest :=
  match h with
  | .stray hk => .skip hk
  | .command hk ha => by
    rw [Option.toList_some, preorder_singleton, preorder_of_arguments ha]
    exact .command hk ha
  | .repeat hk hu hb => by
    rw [Option.toList_some, preorder_singleton, Command.preorder]
    exact (Accounts.repeatHead hk hu).trans (accounts_of_body hb)

theorem accounts_of_body {tokens rest : List Token} {body : List Command} (h : Body tokens body rest) :
    Accounts tokens (preorder body) rest :=
  match h with
  | .block hbrace hb => (Accounts.skip_operator hbrace).trans (accounts_of_block hb)
  | .single _ hitem => accounts_of_item hitem
  | .missing => .refl []

theorem accounts_of_block {tokens rest : List Token} {body : List Command} (h : Block tokens body rest) :
    Accounts tokens (preorder body) rest :=
  match h with
  | .close hbrace => .skip_operator hbrace
  | .item _ hitem hb => by
    rw [preorder_append]
    exact (accounts_of_item hitem).trans (accounts_of_block hb)

end

/-- Items end with the tokens, so they spend every command. -/
theorem accounts_of_items {p : Program} (h : Items tokens p) : Accounts tokens (preorder p) [] := by
  induction h with
  | nil => exact .refl []
  | cons hitem _ ih =>
    rw [preorder_append]
    exact (accounts_of_item hitem).trans ih

/-! ## Parsed programs -/

theorem items_of_parse_eq_ok {p : Program} (h : Program.parse tokens = .ok p) :
    Items (tokens.filter Token.isGrammatical) p := by
  rcases Draft.items_or_stuck (tokens.filter Token.isGrammatical) with ⟨q, hq⟩ | hstuck
  · have hparse : Program.parse tokens = .ok q := Draft.parse_items hq []
    rw [h] at hparse
    exact Except.ok.inj hparse ▸ hq
  · obtain ⟨e, he⟩ := hstuck []
    cases h.symm.trans he

/-- If tokens parse as a program, the nodes of the program are one for each command among the tokens and in their
order. Each node is what its keyword makes of the tokens right behind it, comments and blanks left out: the
command with these values as its arguments, or the repeat with this count. -/
theorem preorder_of_parse {p : Program} (h : Program.parse tokens = .ok p) :
    List.Forall₂ StandsFor (commandPlaces (tokens.filter Token.isGrammatical)) (preorder p) ∧
    (preorder p).length = tokens.countP (·.kind = .command) := by
  obtain ⟨heads, hcommands, hnodes⟩ := accounts_of_items (items_of_parse_eq_ok h)
  rw [commandPlaces_nil, List.append_nil] at hcommands
  rw [hcommands]
  refine ⟨hnodes, ?_⟩
  -- Comments and blanks are no commands, so the tokens that are left have as many.
  have hcount : (tokens.filter Token.isGrammatical).countP (·.kind = .command) =
      tokens.countP (·.kind = .command) := by
    rw [List.countP_filter]
    refine List.countP_congr fun t _ => ?_
    cases hk : t.kind <;> simp [Token.isGrammatical, hk]
  rw [← hnodes.length_eq, ← hcommands, length_commandPlaces, hcount]

/-- A stray number, a comment, and a repeat without braces in a block of another: three commands and three nodes. -/
theorem preorder_of_parse_nested :
    let tokens := tokenize "42 repeat 2 \x7b // twice\nrepeat 3 pen 1 \x7d"
    let p : Program := [.repeat 2 [.repeat 3 [.draw (.pen 1)]]]
    Program.parse tokens = .ok p ∧
    List.Forall₂ StandsFor (commandPlaces (tokens.filter Token.isGrammatical))
      [.repeatHead 2, .repeatHead 3, .command (.draw (.pen 1))] ∧
    3 = tokens.countP (·.kind = .command) := by
  intro tokens p
  have htokens : tokens.filter Token.isGrammatical =
      [⟨.number, "42", ⟨1, 0⟩⟩, ⟨.command, "repeat", ⟨1, 3⟩⟩, ⟨.number, "2", ⟨1, 10⟩⟩, ⟨.operator, "\x7b", ⟨1, 12⟩⟩,
        ⟨.command, "repeat", ⟨2, 0⟩⟩, ⟨.number, "3", ⟨2, 7⟩⟩, ⟨.command, "pen", ⟨2, 9⟩⟩, ⟨.number, "1", ⟨2, 13⟩⟩,
        ⟨.operator, "\x7d", ⟨2, 15⟩⟩] := by decide +kernel
  have hitems : Items (tokens.filter Token.isGrammatical) p := by
    have hone : IsNumber ⟨.number, "1", ⟨2, 13⟩⟩ 1 := ⟨rfl, ⟨'1', rfl, rfl⟩, by decide +kernel⟩
    have htwo : IsNumber ⟨.number, "2", ⟨1, 10⟩⟩ 2 := ⟨rfl, ⟨'2', rfl, rfl⟩, by decide +kernel⟩
    have hthree : IsNumber ⟨.number, "3", ⟨2, 7⟩⟩ 3 := ⟨rfl, ⟨'3', rfl, rfl⟩, by decide +kernel⟩
    have hunbraced {op : Char} {t : Token} {rest : List Token} (h : t.kind = .command) : NotNext op (t :: rest) := by
      simp [NotNext, Token.isOperator, h]
    have hpen : Body [⟨.command, "pen", ⟨2, 9⟩⟩, ⟨.number, "1", ⟨2, 13⟩⟩, ⟨.operator, "\x7d", ⟨2, 15⟩⟩]
        [.draw (.pen 1)] [⟨.operator, "\x7d", ⟨2, 15⟩⟩] :=
      .single (hunbraced rfl) (.command ⟨rfl, by decide +kernel⟩ (.pen hone))
    rw [htokens]
    refine .cons (.stray (by decide)) (.cons (.repeat ⟨rfl, by decide +kernel⟩ htwo ?_) .nil)
    exact .block rfl (.item (hunbraced rfl) (.repeat ⟨rfl, by decide +kernel⟩ hthree hpen) (.close rfl))
  exact ⟨Draft.parse_items hitems [], preorder_of_parse (Draft.parse_items hitems [])⟩

end Easel
