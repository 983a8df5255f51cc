import Easel.Proofs.Program.Blame
import Easel.Proofs.Token.Layout

/-!
# Texts of the same words

The grammar looks at the kinds of tokens and at their texts, and does not see the case of a command (`Token.SameWord`).
Two runs of the parser over lists of such tokens stay in step (`Draft.parse_agree`): both read the same phrases into the
same drafts, or both refuse the tokens at the same place. Where tokens stand is kept for the error only.

In a text, words may be apart by anything that is no token, and by comments (`Source.Writes`). So texts agree if they
are written with the same words.

`Source.agree_of_forall₂_sameWord`: token lists of the same words, and texts of the same words, are the same program or
have errors that match.
-/

namespace Easel

open Grammar

/-! ## Words -/

/-- The characters as the grammar sees them: a command is in lower case. -/
def Lexeme.folded (l : Lexeme) : List Char :=
  if l.kind = some .command then l.chars.map Char.toLower else l.chars

theorem Lexeme.folded_of_command {l : Lexeme} (h : l.kind = some .command) : l.folded = l.chars.map Char.toLower :=
  if_pos h

theorem Lexeme.folded_of_ne {l : Lexeme} (h : l.kind ≠ some .command) : l.folded = l.chars := if_neg h

/-- The lexemes have one kind and the same characters, up to the case of a command. -/
structure Lexeme.SameWord (l l' : Lexeme) : Prop where
  kind_eq : l.kind = l'.kind
  folded_eq : l.folded = l'.folded

namespace Token

/-- The tokens have one kind and the same text, up to the case of a command. They may stand anywhere. -/
def SameWord (t u : Token) : Prop := t.lexeme.SameWord u.lexeme

namespace SameWord

variable {t u : Token}

theorem kind_eq (h : t.SameWord u) : t.kind = u.kind := Option.some.inj (Lexeme.SameWord.kind_eq h)

theorem text_eq (h : t.SameWord u) (hk : t.kind ≠ .command) : t.text = u.text := by
  have hk' : t.lexeme.kind ≠ some .command := mt Option.some.inj hk
  have hfolded := h.folded_eq
  rw [Lexeme.folded_of_ne hk', Lexeme.folded_of_ne (Lexeme.SameWord.kind_eq h ▸ hk')] at hfolded
  exact String.toList_inj.1 hfolded

theorem map_toLower_eq (h : t.SameWord u) (hk : t.kind = .command) :
    t.text.map Char.toLower = u.text.map Char.toLower := by
  have hk' : t.lexeme.kind = some .command := congrArg some hk
  have hfolded := h.folded_eq
  rw [Lexeme.folded_of_command hk', Lexeme.folded_of_command (Lexeme.SameWord.kind_eq h ▸ hk')] at hfolded
  rw [← String.toList_inj, String.toList_map, String.toList_map]
  exact hfolded

theorem isKeyword (h : t.SameWord u) {k : Keyword} (hk : IsKeyword t k) : IsKeyword u k :=
  ⟨h.kind_eq ▸ hk.1, h.map_toLower_eq hk.1 ▸ hk.2⟩

theorem ofWord?_eq (h : t.SameWord u) (hk : t.kind = .command) : Keyword.ofWord? t.text = Keyword.ofWord? u.text := by
  rw [Keyword.ofWord?, Keyword.ofWord?, h.map_toLower_eq hk]

theorem number?_eq (h : t.SameWord u) : t.number? = u.number? := by
  rw [number?, number?, ← h.kind_eq]
  split
  · next hk => rw [h.text_eq (by rw [hk]; decide)]
  · rfl

theorem name?_eq (h : t.SameWord u) : t.name? = u.name? := by
  rw [name?, name?, ← h.kind_eq]
  split
  · next hk => rw [h.text_eq (by rw [hk]; decide)]
  · rfl

theorem isOperator_eq (h : t.SameWord u) (hk : t.kind ≠ .command) (op : Char) : t.isOperator op = u.isOperator op := by
  rw [isOperator, isOperator, h.kind_eq, h.text_eq hk]

end SameWord

end Token

/-! ## Outcomes -/

/-- The errors have the same cause at tokens that are a pair of `P`: the same unknown command, something else where the
same was expected, the end where the same was expected, or a block without end. -/
inductive SyntaxError.Matches (P : Token → Token → Prop) : SyntaxError → SyntaxError → Prop
  | unknownCommand {t u : Token} : P t u → t.kind = .command →
      Matches P ⟨.unknownCommand t.text, t.position⟩ ⟨.unknownCommand u.text, u.position⟩
  | unexpected (slot : Slot) {t u : Token} : P t u →
      Matches P ⟨slot.cause (.token t.text), t.position⟩ ⟨slot.cause (.token u.text), u.position⟩
  | endOfInput (slot : Slot) {t u : Token} : P t u →
      Matches P ⟨slot.cause .endOfInput, t.position⟩ ⟨slot.cause .endOfInput, u.position⟩
  | unterminatedBlock {t u : Token} : P t u →
      Matches P ⟨.unterminatedBlock, t.position⟩ ⟨.unterminatedBlock, u.position⟩

/-- The outcomes are the same value or errors that match. -/
inductive Agree (P : Token → Token → Prop) {α : Type} : Except SyntaxError α → Except SyntaxError α → Prop
  | ok (a : α) : Agree P (.ok a) (.ok a)
  | error {e e' : SyntaxError} : e.Matches P e' → Agree P (.error e) (.error e')

variable {P : Token → Token → Prop}

namespace Agree

variable {α β : Type}

theorem bind {x y : Except SyntaxError α} {f g : α → Except SyntaxError β} (h : Agree P x y)
    (hfg : ∀ a, Agree P (f a) (g a)) : Agree P (x >>= f) (y >>= g) := by
  cases h with
  | ok a => exact hfg a
  | error he => exact .error he

theorem eq_ok {a : α} {y : Except SyntaxError α} (h : Agree P (.ok a) y) : y = .ok a := by
  cases h
  rfl

theorem exists_eq_error {e : SyntaxError} {y : Except SyntaxError α} (h : Agree P (.error e) y) :
    ∃ e', y = .error e' ∧ e.Matches P e' := by
  cases h with
  | error he => exact ⟨_, rfl, he⟩

end Agree

/-! ## Two runs -/

section
variable (hP : ∀ t u, P t u → t.SameWord u) {last last' : Position}
  (hlast : ∃ t u, P t u ∧ last = t.position ∧ last' = u.position)

namespace Phrase

variable {ts us : List Token}

include hlast in
theorem unexpected_matches (slot : Slot) (h : List.Forall₂ P ts us) :
    (unexpected slot.cause last ts).Matches P (unexpected slot.cause last' us) := by
  cases h with
  | nil =>
    obtain ⟨t, u, htu, rfl, rfl⟩ := hlast
    exact .endOfInput slot htu
  | cons htu _ => exact .unexpected slot htu

theorem head?_bind_eq {α : Type} {value? : Token → Option α} (hvalue : ∀ t u, P t u → value? t = value? u)
    (h : List.Forall₂ P ts us) : ts.head?.bind value? = us.head?.bind value? := by
  cases h with
  | nil => rfl
  | cons htu _ => exact hvalue _ _ htu

include hP hlast

theorem number_agree (h : List.Forall₂ P ts us) : Agree P (number last ts) (number last' us) := by
  rw [number, number, head?_bind_eq (fun t u htu => (hP t u htu).number?_eq) h]
  cases us.head?.bind Token.number? with
  | none => exact .error (unexpected_matches hlast .number h)
  | some v => exact .ok v

theorem name_agree (h : List.Forall₂ P ts us) : Agree P (name last ts) (name last' us) := by
  rw [name, name, head?_bind_eq (fun t u htu => (hP t u htu).name?_eq) h]
  cases us.head?.bind Token.name? with
  | none => exact .error (unexpected_matches hlast .name h)
  | some n => exact .ok n

theorem point_agree (h : List.Forall₂ P ts us) : Agree P (point last ts) (point last' us) :=
  (number_agree hP hlast h).bind fun _ => (number_agree hP hlast (List.forall₂_drop 1 h)).bind fun _ => .ok _

/-- The same phrase is read. -/
theorem read_agree (h : List.Forall₂ P ts us) (k : Keyword) : Agree P (read last ts k) (read last' us k) := by
  have hnumber (n : Nat) := number_agree hP hlast (List.forall₂_drop n h)
  have hpoint (n : Nat) := point_agree hP hlast (List.forall₂_drop n h)
  cases k with
  | pen | paper | color | «repeat» => exact (hnumber 0).bind fun _ => .ok _
  | line | rect => exact (hpoint 0).bind fun _ => (hpoint 2).bind fun _ => .ok _
  | circle => exact (hpoint 0).bind fun _ => (hnumber 2).bind fun _ => .ok _
  | set => exact (name_agree hP hlast h).bind fun _ => (hnumber 1).bind fun _ => .ok _

end Phrase

/-- The frames wait for the same, but a block may have its brace elsewhere. -/
inductive Frame.Matches (P : Token → Token → Prop) : Frame → Frame → Prop
  | awaiting (count : Float) : Matches P (.awaiting count) (.awaiting count)
  | block {t u : Token} (count : Float) (body : List Command) : P t u →
      Matches P (.block count t.position body) (.block count u.position body)

namespace Draft

/-- The drafts are the same but for the places of braces. -/
structure Matches (P : Token → Token → Prop) (d d' : Draft) : Prop where
  frames : List.Forall₂ (Frame.Matches P) d.frames d'.frames
  done_eq : d.done = d'.done

variable {d d' : Draft}

theorem complete_matches {frames frames' : List Frame} (h : List.Forall₂ (Frame.Matches P) frames frames')
    (done : List Command) (item : Option Command) :
    (complete done frames item).Matches P (complete done frames' item) := by
  induction h generalizing item with
  | nil => exact ⟨.nil, rfl⟩
  | cons hf hframes ih =>
    cases hf with
    | awaiting count => exact ih _
    | block count body htu => exact ⟨.cons (.block count _ htu) hframes, rfl⟩

theorem addItem_matches (h : d.Matches P d') (item : Option Command) :
    (d.addItem item).Matches P (d'.addItem item) := by
  rw [addItem, addItem, h.done_eq]
  exact complete_matches h.frames _ item

theorem addPhrase_matches (h : d.Matches P d') (phrase : Phrase) :
    (d.addPhrase phrase).Matches P (d'.addPhrase phrase) := by
  cases phrase with
  | command c => exact addItem_matches h (some c)
  | repeatHead count => exact ⟨.cons (.awaiting count) h.frames, h.done_eq⟩

include hP in
theorem addOther_matches (h : d.Matches P d') {t u : Token} (htu : P t u) (hk : t.kind ≠ .command) :
    (d.addOther t).Matches P (d'.addOther u) := by
  have hitem := addItem_matches h none
  have hoperator := (hP t u htu).isOperator_eq hk
  obtain ⟨frames, done⟩ := d
  obtain ⟨frames', done'⟩ := d'
  obtain ⟨hframes, rfl⟩ := h
  cases hframes with
  | nil => exact hitem
  | cons hf hframes =>
    cases hf with
    | awaiting count =>
      simp only [addOther, ← hoperator]
      split
      · exact ⟨.cons (.block count [] htu) hframes, rfl⟩
      · exact hitem
    | block count body _ =>
      simp only [addOther, ← hoperator]
      split
      · exact complete_matches hframes done _
      · exact hitem

theorem finish_agree (h : d.Matches P d') : Agree P d.finish d'.finish := by
  -- A draft that awaits no body has no items left to complete.
  have hsettled {d d' : Draft} (h : d.Matches P d') (hd : ∀ count frames, d.frames ≠ .awaiting count :: frames) :
      Agree P d.finish d'.finish := by
    obtain ⟨frames, done⟩ := d
    obtain ⟨frames', done'⟩ := d'
    obtain ⟨hframes, rfl⟩ := h
    cases hframes with
    | nil => exact .ok _
    | cons hf _ =>
      cases hf with
      | awaiting count => exact absurd rfl (hd count _)
      | block count body htu => exact .error (.unterminatedBlock htu)
  obtain ⟨frames, done⟩ := d
  obtain ⟨frames', done'⟩ := d'
  obtain ⟨hframes, rfl⟩ := h
  cases hframes with
  | nil => exact hsettled ⟨.nil, rfl⟩ nofun
  | cons hf hframes =>
    cases hf with
    | block count body htu => exact hsettled ⟨.cons (.block count body htu) hframes, rfl⟩ nofun
    | awaiting count =>
      rw [finish_awaiting, finish_awaiting]
      exact hsettled (complete_matches hframes done _) (frames_complete_ne_awaiting _ _ _)

include hP hlast in
/-- The two runs stay in step up to the end of the tokens or the first one that is refused. -/
theorem parse_agree {ts us : List Token} (h : List.Forall₂ P ts us) (hd : d.Matches P d') :
    Agree P (parse last d ts) (parse last' d' us) := by
  induction d, ts using extend.induct last generalizing d' us with
  | case1 d =>
    cases h
    rw [parse_nil, parse_nil]
    exact finish_agree hd
  | case2 d t rest hk hw =>
    obtain _ | ⟨htu, _⟩ := h
    have hword := hP _ _ htu
    rw [parse_unknown hk hw, parse_unknown (hword.kind_eq ▸ hk) (hword.ofWord?_eq hk ▸ hw)]
    exact .error (.unknownCommand htu hk)
  | case3 d t rest hk w hw e hread =>
    obtain _ | ⟨htu, hrest⟩ := h
    have hkey : IsKeyword t w := ⟨hk, (Keyword.ofWord?_eq_some_iff _ w).1 hw⟩
    obtain ⟨e', hread', he⟩ := (hread ▸ Phrase.read_agree hP hlast hrest w).exists_eq_error
    rw [parse_refused hkey hread, parse_refused ((hP _ _ htu).isKeyword hkey) hread']
    exact .error he
  | case4 d t rest hk w hw phrase hread ih =>
    obtain _ | ⟨htu, hrest⟩ := h
    have hkey : IsKeyword t w := ⟨hk, (Keyword.ofWord?_eq_some_iff _ w).1 hw⟩
    have hread' := (hread ▸ Phrase.read_agree hP hlast hrest w).eq_ok
    rw [parse_phrase hkey hread, parse_phrase ((hP _ _ htu).isKeyword hkey) hread']
    exact ih (List.forall₂_drop _ hrest) (addPhrase_matches hd phrase)
  | case5 d t rest hk ih =>
    obtain _ | ⟨htu, hrest⟩ := h
    rw [parse_other hk, parse_other ((hP _ _ htu).kind_eq ▸ hk)]
    exact ih hrest (addOther_matches hP hd htu hk)

end Draft

end

/-! ## Token lists -/

namespace Program

theorem lastPosition_matches {ts us : List Token} (h : List.Forall₂ P ts us) (hne : ts ≠ []) :
    ∃ t u, P t u ∧ lastPosition ts = t.position ∧ lastPosition us = u.position := by
  induction h with
  | nil => exact absurd rfl hne
  | @cons t u ts us htu hrest ih =>
    cases hrest with
    | nil => exact ⟨t, u, htu, rfl, rfl⟩
    | cons htu' hrest' =>
      obtain ⟨t', u', h', hts, hus⟩ := ih (List.cons_ne_nil _ _)
      refine ⟨t', u', h', ?_, ?_⟩
      · rw [← hts, lastPosition, lastPosition, List.getLast?_cons_cons]
      · rw [← hus, lastPosition, lastPosition, List.getLast?_cons_cons]

theorem parse_eq (ts : List Token) :
    parse ts =
      Draft.parse (lastPosition (ts.filter Token.isGrammatical)) ⟨[], []⟩ (ts.filter Token.isGrammatical) := rfl

/-- The tokens are at the same place among the grammatical tokens of two lists, and are the same word. -/
def Counterparts (ts us : List Token) (t u : Token) : Prop :=
  (t, u) ∈ (ts.filter Token.isGrammatical).zip (us.filter Token.isGrammatical) ∧ t.SameWord u

theorem parse_agree_of_sameWord {ts us : List Token}
    (h : List.Forall₂ Token.SameWord (ts.filter Token.isGrammatical) (us.filter Token.isGrammatical)) :
    Agree (Counterparts ts us) (parse ts) (parse us) := by
  have hpairs : List.Forall₂ (Counterparts ts us) (ts.filter Token.isGrammatical) (us.filter Token.isGrammatical) := by
    obtain ⟨hlength, hsame⟩ := List.forall₂_iff_zip.1 h
    exact List.forall₂_iff_zip.2 ⟨hlength, fun hmem => ⟨hmem, hsame hmem⟩⟩
  rw [parse_eq, parse_eq]
  by_cases hne : ts.filter Token.isGrammatical = []
  · rw [hne] at hpairs ⊢
    rw [List.forall₂_nil_left_iff.1 hpairs, Draft.parse_nil]
    exact .ok _
  · exact Draft.parse_agree (fun _ _ htu => htu.2) (lastPosition_matches hpairs hne) hpairs ⟨.nil, rfl⟩

end Program

/-! ## Texts -/

namespace Source

open Lexeme

/-- The text is these words, each whole where it stands, with comments and characters that start no token, such as
blanks, around them. -/
inductive Writes : List Lexeme → List Char → Prop
  | nil : Writes [] []
  | skip {c ls s} : ¬ StartsToken c → Writes ls s → Writes ls (c :: s)
  | comment {cs ls s} : IsWhole .comment cs s → Writes ls s → Writes ls (cs ++ s)
  | word {kind cs ls s} : kind ≠ .comment → IsWhole kind cs s → Writes ls s → Writes (⟨some kind, cs⟩ :: ls) (cs ++ s)

theorem isGrammatical_of_isWhole {kind : TokenKind} {cs s : List Char} (h : IsWhole kind cs s)
    (hkind : kind ≠ .comment) : isGrammatical ⟨some kind, cs⟩ := by
  cases kind with
  | command | identifier | number | operator => rfl
  | comment => exact absurd rfl hkind
  | blank => exact h.elim

theorem filter_split_of_writes {ls : List Lexeme} {s : List Char} (h : Writes ls s) :
    (split s).filter isGrammatical = ls := by
  induction h with
  | nil =>
    rw [split]
    rfl
  | skip hc _ ih =>
    rw [split_cons_of_not_startsToken hc]
    exact ih
  | comment hcs _ ih =>
    rw [split_of_isWhole hcs]
    exact ih
  | word hkind hcs _ ih =>
    rw [split_of_isWhole hcs, List.filter_cons_of_pos (isGrammatical_of_isWhole hcs hkind), ih]

/-- Every text is written with some words. -/
theorem writes_filter_split (s : List Char) : Writes ((split s).filter isGrammatical) s := by
  fun_induction split s with
  | case1 => exact .nil
  | case2 c rest ih =>
    have hcomplete := isComplete_next c rest
    rw [← chars_append_next c rest]
    generalize next c rest = r at *
    obtain ⟨⟨kind, cs⟩, s⟩ := r
    rcases kind with _ | kind
    · obtain ⟨d, rfl, hd⟩ := hcomplete
      exact .skip hd ih
    · by_cases hkind : kind = .comment
      · subst hkind
        exact .comment hcomplete ih
      · rw [List.filter_cons_of_pos (isGrammatical_of_isWhole hcomplete hkind)]
        exact .word hkind hcomplete ih

theorem forall₂_sameWord_of_writes {s s' : String} {ls ls' : List Lexeme} (h : Writes ls s.toList)
    (h' : Writes ls' s'.toList) (hsame : List.Forall₂ Lexeme.SameWord ls ls') :
    List.Forall₂ Token.SameWord ((tokenize s).filter Token.isGrammatical)
      ((tokenize s').filter Token.isGrammatical) := by
  rw [← filter_split_of_writes h, ← filter_split_of_writes h', ← lexeme_filter_place .start,
    ← lexeme_filter_place .start, List.forall₂_map_left_iff, List.forall₂_map_right_iff] at hsame
  exact hsame

/-- Token lists with the same words, in the same order, up to the case of commands, agree: they are the same program, or
they have errors that match at tokens of the same place among the words. Neither the lines and columns of the tokens nor
the blanks and comments among them make a difference. And so do texts that are written with the same words. -/
theorem agree_of_forall₂_sameWord :
    (∀ ts us : List Token,
      List.Forall₂ Token.SameWord (ts.filter Token.isGrammatical) (us.filter Token.isGrammatical) →
      Agree (Program.Counterparts ts us) (Program.parse ts) (Program.parse us)) ∧
    ∀ (s s' : String) (ls ls' : List Lexeme), Writes ls s.toList → Writes ls' s'.toList →
      List.Forall₂ Lexeme.SameWord ls ls' →
      Agree (Program.Counterparts (tokenize s) (tokenize s')) (Program.read s) (Program.read s') :=
  ⟨fun _ _ => Program.parse_agree_of_sameWord,
    fun _ _ _ _ h h' hsame => Program.parse_agree_of_sameWord (forall₂_sameWord_of_writes h h' hsame)⟩

/-- A command in capitals with a comment behind it, and one over two lines. -/
theorem agree_of_forall₂_sameWord_pen :
    Agree (Program.Counterparts (tokenize "PEN 5 // wide") (tokenize "pen\n5"))
      (Program.read "PEN 5 // wide") (Program.read "pen\n5") := by
  refine agree_of_forall₂_sameWord.2 _ _ _ _ (writes_filter_split _) (writes_filter_split _) ?_
  have hsplit : (split "PEN 5 // wide".toList).filter isGrammatical =
      [⟨some .command, ['P', 'E', 'N']⟩, ⟨some .number, ['5']⟩] := by decide +kernel
  have hsplit' : (split "pen\n5".toList).filter isGrammatical =
      [⟨some .command, ['p', 'e', 'n']⟩, ⟨some .number, ['5']⟩] := by decide +kernel
  rw [hsplit, hsplit']
  exact .cons ⟨rfl, by decide⟩ (.cons ⟨rfl, rfl⟩ .nil)

end Source

end Easel
