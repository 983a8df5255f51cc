import Easel.Proofs.Program.Parsing
import Easel.Proofs.Token.Lexing

/-!
# Programs as they are written

A syntax tree can be written in many ways: its keywords in any mix of upper and lower case, its words
apart by any blanks and comments, and the body of a repeat in braces or, if it is one command, without.
`Renders` says when a text is a way to write down a list of trees, and every list has one (`exists_renders`).

The proof goes by lexemes. `Spelled` chooses case and braces, and `LaidOut` puts what is between them.
The text splits into the spelled lexemes again (`filter_split_of_laidOut`), and the grammar derives the
commands of the trees from any tokens with these lexemes (`item_of_spelled`).

`read_of_renders`: a text reads as the commands of the trees that it renders.
-/

namespace Easel.Source

open Grammar

/-! ## Syntax trees -/

/-- A number as it is written: digits and, after a point, more digits if there are any. -/
structure Literal where
  whole : List Char
  fraction : List Char
  whole_ne_nil : whole ≠ []
  isDigit_whole : ∀ c ∈ whole, c.isDigit
  isDigit_fraction : ∀ c ∈ fraction, c.isDigit

/-- A name for a variable: a letter or an underscore, then letters, digits and underscores, and no reserved
word in any mix of upper and lower case. -/
structure Name where
  first : Char
  more : List Char
  isWordStart_first : Lexeme.isWordStart first
  isWordChar_more : ∀ c ∈ more, Lexeme.isWordChar c
  not_reserved : ∀ k : Keyword, (first :: more).map Char.toLower ≠ k.spelling.toList

/-- A command without a body. -/
inductive Leaf
  | pen (size : Literal)
  | paper (level : Literal)
  | color (level : Literal)
  | line (x₁ y₁ x₂ y₂ : Literal)
  | rect (x₁ y₁ x₂ y₂ : Literal)
  | circle (x y radius : Literal)
  | set (name : Name) (value : Literal)

/-- A command as it is written. -/
inductive Tree
  | leaf (l : Leaf)
  | repeat (count : Literal) (body : List Tree)

namespace Literal

def chars (l : Literal) : List Char :=
  l.whole ++ if l.fraction = [] then [] else '.' :: l.fraction

def lexeme (l : Literal) : Lexeme := ⟨some .number, l.chars⟩

theorem exists_chars_eq_cons (l : Literal) :
    ∃ c cs, l.chars = c :: cs ∧ c.isDigit ∧ ∀ d ∈ cs, Lexeme.isNumberChar d := by
  have hdigit {d : Char} (h : d.isDigit) : Lexeme.isNumberChar d := by simp [Lexeme.isNumberChar, h]
  obtain ⟨c, cs, hwhole⟩ := List.exists_cons_of_ne_nil l.whole_ne_nil
  have hw := l.isDigit_whole
  rw [hwhole] at hw
  refine ⟨c, cs ++ if l.fraction = [] then [] else '.' :: l.fraction, by simp [chars, hwhole], hw c (by simp), ?_⟩
  intro d hd
  rcases List.mem_append.1 hd with hd | hd
  · exact hdigit (hw d (by simp [hd]))
  · split at hd
    · cases hd
    · rcases List.mem_cons.1 hd with rfl | hd
      · decide
      · exact hdigit (l.isDigit_fraction d hd)

theorem isSome_read? (l : Literal) : (Number.read? (String.ofList l.chars)).isSome := by
  obtain ⟨c, cs, hchars, hc, -⟩ := l.exists_chars_eq_cons
  rw [Number.read?_isSome_iff, hchars]
  exact ⟨c, by simp, hc⟩

/-- The double that the literal is read as. -/
def value (l : Literal) : Float := (Number.read? (String.ofList l.chars)).get l.isSome_read?

end Literal

namespace Name

def chars (n : Name) : List Char := n.first :: n.more

def lexeme (n : Name) : Lexeme := ⟨some .identifier, n.chars⟩

end Name

namespace Leaf

def keyword : Leaf → Keyword
  | pen _ => .pen
  | paper _ => .paper
  | color _ => .color
  | line _ _ _ _ => .line
  | rect _ _ _ _ => .rect
  | circle _ _ _ => .circle
  | set _ _ => .set

/-- What is written behind the keyword. -/
def arguments : Leaf → List Lexeme
  | pen size => [size.lexeme]
  | paper level => [level.lexeme]
  | color level => [level.lexeme]
  | line x₁ y₁ x₂ y₂ => [x₁.lexeme, y₁.lexeme, x₂.lexeme, y₂.lexeme]
  | rect x₁ y₁ x₂ y₂ => [x₁.lexeme, y₁.lexeme, x₂.lexeme, y₂.lexeme]
  | circle x y radius => [x.lexeme, y.lexeme, radius.lexeme]
  | set name value => [name.lexeme, value.lexeme]

def command : Leaf → Command
  | pen size => .draw (.pen size.value)
  | paper level => .draw (.paper level.value)
  | color level => .draw (.color level.value)
  | line x₁ y₁ x₂ y₂ => .draw (.shape (.line ⟨x₁.value, y₁.value⟩ ⟨x₂.value, y₂.value⟩))
  | rect x₁ y₁ x₂ y₂ => .draw (.shape (.rect ⟨x₁.value, y₁.value⟩ ⟨x₂.value, y₂.value⟩))
  | circle x y radius => .draw (.shape (.circle ⟨x.value, y.value⟩ radius.value))
  | set name value => .set (String.ofList name.chars) value.value

end Leaf

mutual

/-- The command with the values of its literals. -/
def Tree.command : Tree → Command
  | .leaf l => l.command
  | .repeat count body => .repeat count.value (commands body)

/-- The commands of trees in a row. -/
def commands : List Tree → List Command
  | [] => []
  | t :: ts => t.command :: commands ts

end

/-! ## Texts of trees -/

/-- The lexeme is the keyword `k`, in upper or lower case or a mix of the two. -/
def IsKeywordLexeme (l : Lexeme) (k : Keyword) : Prop :=
  l.kind = some .command ∧ l.chars.map Char.toLower = k.spelling.toList

def opening : Lexeme := ⟨some .operator, ['\x7b']⟩

def closing : Lexeme := ⟨some .operator, ['\x7d']⟩

mutual

/-- The lexemes are a spelling of a tree: some case for each keyword, and braces or none for each body that
is one command. -/
inductive Spelled : Tree → List Lexeme → Prop
  | leaf {l w} : IsKeywordLexeme w l.keyword → Spelled (.leaf l) (w :: l.arguments)
  | braces {w count body ls} : IsKeywordLexeme w .repeat → SpelledAll body ls →
      Spelled (.repeat count body) (w :: count.lexeme :: opening :: (ls ++ [closing]))
  | single {w count t ls} : IsKeywordLexeme w .repeat → Spelled t ls →
      Spelled (.repeat count [t]) (w :: count.lexeme :: ls)

/-- The lexemes are spellings of trees in a row. -/
inductive SpelledAll : List Tree → List Lexeme → Prop
  | nil : SpelledAll [] []
  | cons {t ts ls ls'} : Spelled t ls → SpelledAll ts ls' → SpelledAll (t :: ts) (ls ++ ls')

end

/-- Blanks and comments, in any number and order. Every comment ends at a newline. -/
inductive Gap : List Char → Prop
  | nil : Gap []
  | blank {c s} : Text.isBlank c → Gap s → Gap (c :: s)
  | comment {body s} : '\n' ∉ body → Gap s → Gap ('/' :: '/' :: (body ++ '\n' :: s))

def IsBrace (l : Lexeme) : Prop := l = opening ∨ l = closing

/-- Nothing has to be between two lexemes if one of them is a brace, or if the second one is missing. -/
def MayTouch (l : Lexeme) (next : Option Lexeme) : Prop :=
  IsBrace l ∨ ∀ l' ∈ next, IsBrace l'

/-- The text is the lexemes with gaps behind them. -/
inductive LaidOut : List Lexeme → List Char → Prop
  | nil : LaidOut [] []
  | cons {l ls gap s} : Gap gap → (gap = [] → MayTouch l ls.head?) → LaidOut ls s →
      LaidOut (l :: ls) (l.chars ++ (gap ++ s))

/-- The text is a way to write down the trees. -/
def Renders (trees : List Tree) (text : String) : Prop :=
  ∃ ls gap s, SpelledAll trees ls ∧ Gap gap ∧ LaidOut ls s ∧ text.toList = gap ++ s

mutual

theorem exists_spelled (t : Tree) : ∃ ls, Spelled t ls :=
  have hkeyword (k : Keyword) : IsKeywordLexeme ⟨some .command, k.spelling.toList⟩ k :=
    ⟨rfl, by cases k <;> decide⟩
  match t with
  | .leaf l => ⟨_, .leaf (hkeyword l.keyword)⟩
  | .repeat _ body =>
    have ⟨_, hbody⟩ := exists_spelledAll body
    ⟨_, .braces (hkeyword .repeat) hbody⟩

theorem exists_spelledAll (ts : List Tree) : ∃ ls, SpelledAll ts ls :=
  match ts with
  | [] => ⟨_, .nil⟩
  | t :: ts =>
    have ⟨_, ht⟩ := exists_spelled t
    have ⟨_, hts⟩ := exists_spelledAll ts
    ⟨_, .cons ht hts⟩

end

theorem exists_laidOut (ls : List Lexeme) : ∃ s, LaidOut ls s := by
  induction ls with
  | nil => exact ⟨[], .nil⟩
  | cons l ls ih =>
    obtain ⟨s, hs⟩ := ih
    have hgap : Gap [' '] := .blank rfl .nil
    exact ⟨_, .cons hgap nofun hs⟩

/-- Whatever the trees are, there is a text of them. -/
theorem exists_renders (trees : List Tree) : ∃ text, Renders trees text := by
  obtain ⟨ls, hspelled⟩ := exists_spelledAll trees
  obtain ⟨s, hs⟩ := exists_laidOut ls
  exact ⟨String.ofList s, ls, [], s, hspelled, .nil, hs, String.toList_ofList⟩

/-! ## Lexemes of a text -/

/-- No word and no number goes on here. -/
def Ends (s : List Char) : Prop :=
  Lexeme.StopsAt Lexeme.isNumberChar s ∧ Lexeme.StopsAt Lexeme.isWordChar s

theorem ends_nil : Ends [] := ⟨by simp [Lexeme.StopsAt], by simp [Lexeme.StopsAt]⟩

theorem ends_cons {c : Char} (hc : c.toNat ≤ 45 ∨ c.toNat = 47 ∨ 123 ≤ c.toNat) (s : List Char) : Ends (c :: s) := by
  have hnumber : ¬ Lexeme.isNumberChar c := by
    rw [Lexeme.isNumberChar_iff_toNat]
    omega
  have hword : ¬ Lexeme.isWordChar c := by
    rw [Lexeme.isWordChar_iff_toNat, Lexeme.isWordStart_iff_toNat]
    omega
  exact ⟨fun d hd => by cases hd; exact hnumber, fun d hd => by cases hd; exact hword⟩

theorem ends_gap {gap : List Char} (h : Gap gap) (hne : gap ≠ []) (s : List Char) : Ends (gap ++ s) := by
  cases h with
  | nil => exact absurd rfl hne
  | blank hc _ =>
    have := toNat_of_isBlank hc
    exact ends_cons (by omega) _
  | comment _ _ => exact ends_cons (by decide) _

theorem ends_brace {l : Lexeme} (h : IsBrace l) (s : List Char) : Ends (l.chars ++ s) := by
  rcases h with rfl | rfl <;> exact ends_cons (by decide) s

theorem filter_split_gap {gap : List Char} (h : Gap gap) (s : List Char) :
    (Lexeme.split (gap ++ s)).filter Lexeme.isGrammatical = (Lexeme.split s).filter Lexeme.isGrammatical := by
  induction h with
  | nil => rfl
  | blank hc _ ih =>
    rw [List.cons_append, Lexeme.split_blank hc]
    exact ih
  | comment hbody _ ih =>
    simp only [List.cons_append, List.append_assoc]
    rw [Lexeme.split_comment hbody, Lexeme.split_blank (by decide)]
    exact ih

/-- The lexeme is one that the grammar looks at, and it splits off in front of any text where no word and no
number goes on; a brace, in front of any text. -/
structure SplitsOff (l : Lexeme) : Prop where
  isGrammatical : l.isGrammatical
  split_append : ∀ s, IsBrace l ∨ Ends s → Lexeme.split (l.chars ++ s) = l :: Lexeme.split s

theorem not_isBrace {l : Lexeme} (h : l.kind ≠ some .operator) : ¬ IsBrace l := by
  rintro (rfl | rfl) <;> exact h rfl

theorem splitsOff_brace {l : Lexeme} (h : IsBrace l) : SplitsOff l := by
  rcases h with rfl | rfl
  · exact ⟨rfl, fun s _ => Lexeme.split_brace (.inl rfl)⟩
  · exact ⟨rfl, fun s _ => Lexeme.split_brace (.inr rfl)⟩

theorem splitsOff_literal (l : Literal) : SplitsOff l.lexeme := by
  obtain ⟨c, cs, hchars, hc, hcs⟩ := l.exists_chars_eq_cons
  refine ⟨rfl, fun s hs => ?_⟩
  have hend := hs.resolve_left (not_isBrace nofun)
  simp only [Literal.lexeme, hchars, List.cons_append]
  exact Lexeme.split_number hc hcs hend.1

theorem splitsOff_word {kind : TokenKind} {c : Char} {cs : List Char} (hc : Lexeme.isWordStart c)
    (hcs : ∀ d ∈ cs, Lexeme.isWordChar d) (hkind : Lexeme.wordKind (c :: cs) = kind) :
    SplitsOff ⟨some kind, c :: cs⟩ := by
  have hword : kind = .command ∨ kind = .identifier := by
    rw [← hkind, Lexeme.wordKind]
    split
    · exact .inl rfl
    · exact .inr rfl
  refine ⟨by rcases hword with rfl | rfl <;> rfl, fun s hs => ?_⟩
  have hend := hs.resolve_left (not_isBrace (by rcases hword with rfl | rfl <;> nofun))
  rw [← hkind]
  exact Lexeme.split_word hc hcs hend.2

theorem toLower_eq_spelling_iff (cs : List Char) (k : Keyword) :
    (String.ofList cs).map Char.toLower = k.spelling ↔ cs.map Char.toLower = k.spelling.toList := by
  rw [← String.toList_inj, String.toList_map, String.toList_ofList]

theorem splitsOff_name (n : Name) : SplitsOff n.lexeme := by
  refine splitsOff_word n.isWordStart_first n.isWordChar_more ?_
  have hnone : Keyword.ofWord? (String.ofList (n.first :: n.more)) = none := by
    rw [Option.eq_none_iff_forall_ne_some]
    intro k hk
    exact n.not_reserved k ((toLower_eq_spelling_iff _ k).1 ((Keyword.ofWord?_eq_some_iff _ k).1 hk))
  rw [Lexeme.wordKind, hnone]
  rfl

/-- A reserved word is letters, however it is written. -/
theorem isAlpha_of_keyword {k : Keyword} {cs : List Char} (h : cs.map Char.toLower = k.spelling.toList) :
    ∀ c ∈ cs, c.isAlpha := by
  intro c hc
  have hspelling : k.spelling.toList.all Char.isAlpha := by cases k <;> decide
  exact isAlpha_of_isAlpha_toLower (List.all_eq_true.1 hspelling _ (h ▸ List.mem_map_of_mem hc))

theorem splitsOff_keyword {l : Lexeme} {k : Keyword} (h : IsKeywordLexeme l k) : SplitsOff l := by
  obtain ⟨kind, chars⟩ := l
  obtain ⟨rfl, hchars⟩ := h
  have halpha := isAlpha_of_keyword hchars
  cases chars with
  | nil =>
    -- No reserved word is empty.
    cases k <;> exact absurd hchars (by decide)
  | cons c cs =>
    have hkind : Lexeme.wordKind (c :: cs) = .command := by
      rw [Lexeme.wordKind, (Keyword.ofWord?_eq_some_iff _ k).2 ((toLower_eq_spelling_iff _ k).2 hchars)]
      rfl
    refine splitsOff_word ?_ (fun d hd => ?_) hkind
    · simp [Lexeme.isWordStart, halpha c (by simp)]
    · simp [Lexeme.isWordChar, Char.isAlphanum, halpha d (by simp [hd])]

theorem splitsOff_arguments (l : Leaf) : ∀ a ∈ l.arguments, SplitsOff a := by
  cases l <;> simp [Leaf.arguments, splitsOff_literal, splitsOff_name]

mutual

theorem splitsOff_of_spelled {t : Tree} {ls : List Lexeme} (h : Spelled t ls) : ∀ l ∈ ls, SplitsOff l :=
  match h with
  | .leaf hw => List.forall_mem_cons.2 ⟨splitsOff_keyword hw, splitsOff_arguments _⟩
  | .braces hw hbody => by
    simp only [List.forall_mem_cons, List.forall_mem_append]
    exact ⟨splitsOff_keyword hw, splitsOff_literal _, splitsOff_brace (.inl rfl),
      splitsOff_of_spelledAll hbody, splitsOff_brace (.inr rfl), nofun⟩
  | .single hw ht => by
    simp only [List.forall_mem_cons]
    exact ⟨splitsOff_keyword hw, splitsOff_literal _, splitsOff_of_spelled ht⟩

theorem splitsOff_of_spelledAll {ts : List Tree} {ls : List Lexeme} (h : SpelledAll ts ls) :
    ∀ l ∈ ls, SplitsOff l :=
  match h with
  | .nil => nofun
  | .cons ht hts => List.forall_mem_append.2 ⟨splitsOff_of_spelled ht, splitsOff_of_spelledAll hts⟩

end

/-- A gap that may be left out stands where no word and no number goes on, or behind a brace. -/
theorem ends_of_laidOut {l : Lexeme} {ls : List Lexeme} {gap s : List Char} (hgap : Gap gap)
    (htouch : gap = [] → MayTouch l ls.head?) (hs : LaidOut ls s) : IsBrace l ∨ Ends (gap ++ s) := by
  by_cases hne : gap = []
  · subst hne
    rcases htouch rfl with hl | hnext
    · exact .inl hl
    · cases hs with
      | nil => exact .inr ends_nil
      | cons _ _ _ => exact .inr (ends_brace (hnext _ rfl) _)
  · exact .inr (ends_gap hgap hne s)

/-- A text that is laid out splits into its lexemes again, with blanks and comments between them. -/
theorem filter_split_of_laidOut {ls : List Lexeme} {s : List Char} (h : LaidOut ls s)
    (hls : ∀ l ∈ ls, SplitsOff l) : (Lexeme.split s).filter Lexeme.isGrammatical = ls := by
  induction h with
  | nil =>
    rw [Lexeme.split]
    rfl
  | cons hgap htouch hs ih =>
    obtain ⟨hl, hls⟩ := List.forall_mem_cons.1 hls
    rw [hl.split_append _ (ends_of_laidOut hgap htouch hs), List.filter_cons_of_pos hl.isGrammatical,
      filter_split_gap hgap, ih hls]

/-! ## Tokens of a text -/

theorem text_eq_of_lexeme {t : Token} {kind : TokenKind} {cs : List Char} (h : t.lexeme = ⟨some kind, cs⟩) :
    t.kind = kind ∧ t.text = String.ofList cs := by
  simp only [Token.lexeme, Lexeme.mk.injEq, Option.some.injEq] at h
  exact ⟨h.1, by rw [← h.2, String.ofList_toList]⟩

theorem isKeyword_of_lexeme {t : Token} {k : Keyword} (h : IsKeywordLexeme t.lexeme k) : IsKeyword t k := by
  obtain ⟨hkind, htext⟩ := h
  have hword := (toLower_eq_spelling_iff _ k).2 htext
  rw [Token.lexeme, String.ofList_toList] at hword
  exact ⟨Option.some.inj hkind, hword⟩

theorem isNumber_of_lexeme {t : Token} {l : Literal} (h : t.lexeme = l.lexeme) : IsNumber t l.value := by
  obtain ⟨hkind, htext⟩ := text_eq_of_lexeme h
  rw [IsNumber, htext, ← Number.read?_isSome_iff]
  exact ⟨hkind, l.isSome_read?, (Option.some_get _).symm⟩

theorem isName_of_lexeme {t : Token} {n : Name} (h : t.lexeme = n.lexeme) :
    IsName t (String.ofList n.chars) :=
  text_eq_of_lexeme h

theorem isOperator_of_lexeme {t : Token} {c : Char} (h : t.lexeme = ⟨some .operator, [c]⟩) : t.isOperator c := by
  obtain ⟨hkind, htext⟩ := text_eq_of_lexeme h
  simp [Token.isOperator, hkind, htext]

theorem arguments_of_leaf (l : Leaf) {tokens : List Token} (h : tokens.map Token.lexeme = l.arguments) :
    Arguments l.keyword tokens l.command := by
  cases l with
  | pen _ | paper _ | color _ =>
    simp only [Leaf.arguments, List.map_eq_cons_iff, List.map_eq_nil_iff] at h
    obtain ⟨t, _, rfl, ht, rfl⟩ := h
    constructor
    exact isNumber_of_lexeme ht
  | line _ _ _ _ | rect _ _ _ _ =>
    simp only [Leaf.arguments, List.map_eq_cons_iff, List.map_eq_nil_iff] at h
    obtain ⟨t₁, _, rfl, h₁, t₂, _, rfl, h₂, t₃, _, rfl, h₃, t₄, _, rfl, h₄, rfl⟩ := h
    constructor <;> exact isNumber_of_lexeme (by assumption)
  | circle _ _ _ =>
    simp only [Leaf.arguments, List.map_eq_cons_iff, List.map_eq_nil_iff] at h
    obtain ⟨t₁, _, rfl, h₁, t₂, _, rfl, h₂, t₃, _, rfl, h₃, rfl⟩ := h
    exact .circle (isNumber_of_lexeme h₁) (isNumber_of_lexeme h₂) (isNumber_of_lexeme h₃)
  | set _ _ =>
    simp only [Leaf.arguments, List.map_eq_cons_iff, List.map_eq_nil_iff] at h
    obtain ⟨t₁, _, rfl, h₁, t₂, _, rfl, h₂, rfl⟩ := h
    exact .set (isName_of_lexeme h₁) (isNumber_of_lexeme h₂)

/-- A tree is spelled with a keyword first, so no brace is taken for its start. -/
theorem notNext_of_spelled {t : Tree} {ls : List Lexeme} (h : Spelled t ls) {tokens : List Token}
    (htokens : tokens.map Token.lexeme = ls) (op : Char) (rest : List Token) : NotNext op (tokens ++ rest) := by
  have hw : ∃ w ls', ls = w :: ls' ∧ w.kind = some .command := by
    cases h with
    | leaf hw | braces hw _ | single hw _ => exact ⟨_, _, rfl, hw.1⟩
  obtain ⟨w, ls', rfl, hkind⟩ := hw
  obtain ⟨u, us, rfl, hu, -⟩ := List.map_eq_cons_iff.1 htokens
  intro t ht hop
  cases ht
  have hcommand : u.kind = .command := Option.some.inj ((congrArg Lexeme.kind hu).trans hkind)
  rw [kind_of_isOperator hop] at hcommand
  cases hcommand

mutual

/-- Tokens that spell a tree are an item, whatever follows them. -/
theorem item_of_spelled {t : Tree} {ls : List Lexeme} (h : Spelled t ls) :
    ∀ tokens : List Token, tokens.map Token.lexeme = ls → ∀ rest, Item (tokens ++ rest) (some t.command) rest :=
  match h with
  | .leaf hw => fun tokens htokens rest => by
    obtain ⟨u, us, rfl, rfl, hus⟩ := List.map_eq_cons_iff.1 htokens
    exact .command (isKeyword_of_lexeme hw) (arguments_of_leaf _ hus)
  | .braces hw hbody => fun tokens htokens rest => by
    simp only [List.map_eq_cons_iff, List.map_eq_append_iff, List.map_eq_nil_iff] at htokens
    obtain ⟨u, _, rfl, rfl, v, _, rfl, hv, a, _, rfl, ha, us, _, rfl, hus, b, _, rfl, hb, rfl⟩ := htokens
    have hblock := block_of_spelledAll hbody us hus b rest (isOperator_of_lexeme hb)
    have hitem := Item.repeat (isKeyword_of_lexeme hw) (isNumber_of_lexeme hv)
      (.block (isOperator_of_lexeme ha) hblock)
    simpa [Tree.command] using hitem
  | .single hw ht => fun tokens htokens rest => by
    simp only [List.map_eq_cons_iff] at htokens
    obtain ⟨u, _, rfl, rfl, v, us, rfl, hv, hus⟩ := htokens
    -- The body ends where its one command ends, whatever `rest` starts with.
    have hbody := Body.single (notNext_of_spelled ht hus _ rest) (item_of_spelled ht us hus rest)
    exact .repeat (isKeyword_of_lexeme hw) (isNumber_of_lexeme hv) hbody

/-- Tokens that spell trees, and a closing brace behind them, are a block. -/
theorem block_of_spelledAll {ts : List Tree} {ls : List Lexeme} (h : SpelledAll ts ls) :
    ∀ tokens : List Token, tokens.map Token.lexeme = ls →
      ∀ (brace : Token) (rest : List Token), brace.isOperator '\x7d' →
        Block (tokens ++ brace :: rest) (commands ts) rest :=
  match h with
  | .nil => fun tokens htokens brace rest hbrace => by
    cases List.map_eq_nil_iff.1 htokens
    exact .close hbrace
  | .cons ht hts => fun tokens htokens brace rest hbrace => by
    obtain ⟨us, vs, rfl, hus, hvs⟩ := List.map_eq_append_iff.1 htokens
    rw [List.append_assoc]
    exact .item (notNext_of_spelled ht hus _ _) (item_of_spelled ht us hus _)
      (block_of_spelledAll hts vs hvs brace rest hbrace)

end

theorem items_of_spelledAll {ts : List Tree} {ls : List Lexeme} (h : SpelledAll ts ls) {tokens : List Token}
    (htokens : tokens.map Token.lexeme = ls) : Items tokens (commands ts) :=
  match h with
  | .nil => by
    cases List.map_eq_nil_iff.1 htokens
    exact .nil
  | .cons ht hts => by
    obtain ⟨us, vs, rfl, hus, hvs⟩ := List.map_eq_append_iff.1 htokens
    exact .cons (item_of_spelled ht us hus vs) (items_of_spelledAll hts hvs)

/-! ## Reading what was written -/

/-- Spelled lexemes that are laid out behind a gap read as the commands of their trees. -/
theorem read_of_laidOut {trees : List Tree} {ls : List Lexeme} {gap s : List Char} {text : String}
    (hspelled : SpelledAll trees ls) (hgap : Gap gap) (hs : LaidOut ls s) (htext : text.toList = gap ++ s) :
    Program.read text = .ok (commands trees) := by
  have hlexemes : ((tokenize text).filter Token.isGrammatical).map Token.lexeme = ls := by
    rw [tokenize, lexeme_filter_place, htext, filter_split_gap hgap]
    exact filter_split_of_laidOut hs (splitsOff_of_spelledAll hspelled)
  exact Draft.parse_items (items_of_spelledAll hspelled hlexemes) []

/-- A text that renders trees reads as their commands, whatever case, gaps and braces were chosen. -/
theorem read_of_renders {trees : List Tree} {text : String} (h : Renders trees text) :
    Program.read text = .ok (commands trees) := by
  obtain ⟨ls, gap, s, hspelled, hgap, hs, htext⟩ := h
  exact read_of_laidOut hspelled hgap hs htext

/-- Two repeats around an assignment. -/
def sample : Tree :=
  .repeat ⟨['2'], [], nofun, by simp, nofun⟩
    [.repeat ⟨['3'], [], nofun, by simp, nofun⟩
      [.leaf (.set ⟨'a', ['_'], by decide, by simp [Lexeme.isWordChar], by intro k; cases k <;> decide⟩
        ⟨['1'], ['5'], nofun, by simp, by simp⟩)]]

/-- The outer body in braces and the inner one without, with a comment in a gap and one at the end. -/
theorem read_sample :
    Renders [sample] "RePeat 2\x7brepeat 3//x\nSET a_ 1.5\x7d //y\n" ∧
      Program.read "RePeat 2\x7brepeat 3//x\nSET a_ 1.5\x7d //y\n" = .ok (commands [sample]) := by
  have hblank {c : Char} (h : Text.isBlank c) : Gap [c] := .blank h .nil
  have hcomment {c : Char} (h : '\n' ∉ [c]) : Gap ('/' :: '/' :: ([c] ++ ['\n'])) := .comment h .nil
  have hopening : ∀ l ∈ some opening, IsBrace l := fun l h => .inl (Option.some.inj h).symm
  have hclosing : ∀ l ∈ some closing, IsBrace l := fun l h => .inr (Option.some.inj h).symm
  have h : Renders [sample] "RePeat 2\x7brepeat 3//x\nSET a_ 1.5\x7d //y\n" := by
    refine ⟨[⟨some .command, "RePeat".toList⟩, ⟨some .number, ['2']⟩, opening, ⟨some .command, "repeat".toList⟩,
      ⟨some .number, ['3']⟩, ⟨some .command, "SET".toList⟩, ⟨some .identifier, ['a', '_']⟩,
      ⟨some .number, ['1', '.', '5']⟩, closing], [], _, ?_, .nil,
      .cons (hblank (c := ' ') rfl) nofun <| .cons .nil (fun _ => .inr hopening) <|
      .cons .nil (fun _ => .inl (.inl rfl)) <| .cons (hblank (c := ' ') rfl) nofun <|
      .cons (hcomment (c := 'x') (by decide)) nofun <| .cons (hblank (c := ' ') rfl) nofun <|
      .cons (hblank (c := ' ') rfl) nofun <| .cons .nil (fun _ => .inr hclosing) <|
      .cons (.blank (c := ' ') rfl (hcomment (c := 'y') (by decide))) nofun .nil, by decide⟩
    exact .cons (.braces ⟨rfl, by decide⟩
      (.cons (.single ⟨rfl, by decide⟩ (.leaf ⟨rfl, by decide⟩)) .nil)) .nil
  exact ⟨h, read_of_renders h⟩

end Easel.Source
