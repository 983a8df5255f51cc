import Easel.Proofs.Number.Sign
import Easel.Proofs.Program.Blame
import Easel.Proofs.Program.Conservation
import Easel.Proofs.Token.Layout

/-!
# What can be written

A text can say less than a program can hold. It has no words for filled shapes and for commands that do nothing,
its literals have no sign, and a word that it sets is no reserved word. `Command.IsWritten` is the trees that
are left, and the grammar makes no others from the tokens of a text (`isWritten_of_item`).

The tokens of a text are also better than tokens made by hand: a command token is a reserved word, and what starts
with a digit is a number token. So two of the errors never come from a text.

`read_isWritten`: what texts read as, whether it is a program or an error.
-/

namespace Easel

open Grammar Number

/-! ## Commands that can be written -/

/-- An ASCII letter or an underscore, then ASCII letters, digits and underscores; no reserved word, in upper or
lower case or a mix of the two. -/
structure IsVariableName (name : String) : Prop where
  head : ∃ c ∈ name.toList.head?, c.isAlpha ∨ c = '_'
  forall_mem : ∀ c ∈ name.toList, c.isAlphanum ∨ c = '_'
  not_reserved : ∀ k : Keyword, name.map Char.toLower ≠ k.spelling

structure Point.IsUnsigned (a : Point) : Prop where
  x : Number.IsUnsigned a.x
  y : Number.IsUnsigned a.y

/-- The command is none of the three that no text has words for, none of its numbers has a sign or is NaN, and
a variable that it sets has a name that is one. The same holds for the commands of its body, at every depth. -/
inductive Command.IsWritten : Command → Prop
  | pen {size} : IsUnsigned size → IsWritten (.draw (.pen size))
  | paper {level} : IsUnsigned level → IsWritten (.draw (.paper level))
  | color {level} : IsUnsigned level → IsWritten (.draw (.color level))
  | line {a b} : a.IsUnsigned → b.IsUnsigned → IsWritten (.draw (.shape (.line a b)))
  | rect {a b} : a.IsUnsigned → b.IsUnsigned → IsWritten (.draw (.shape (.rect a b)))
  | circle {center radius} : center.IsUnsigned → IsUnsigned radius →
      IsWritten (.draw (.shape (.circle center radius)))
  | set {name value} : IsVariableName name → IsUnsigned value → IsWritten (.set name value)
  | repeat {count body} : IsUnsigned count → (∀ c ∈ body, IsWritten c) → IsWritten (.repeat count body)

/-! ## The tokens of a text -/

namespace Token.IsLexed

variable {t : Token}

theorem isWhole_text (h : t.IsLexed) (hkind : t.kind ≠ .comment) : Lexeme.IsWhole t.kind t.text.toList [] := by
  have hwhole := h.isWhole
  rwa [written_of_ne_comment hkind] at hwhole

theorem isVariableName (h : t.IsLexed) (hkind : t.kind = .identifier) : IsVariableName t.text := by
  have hwhole := h.isWhole_text (by simp [hkind])
  rw [hkind] at hwhole
  obtain ⟨⟨c, hc, hstart⟩, hall, -, hreserved⟩ := hwhole
  constructor
  · exact ⟨c, hc, by simpa [Lexeme.isWordStart] using hstart⟩
  · intro d hd
    simpa [Lexeme.isWordChar] using hall d hd
  · intro k hk
    refine hreserved ⟨k, ?_⟩
    rw [← hk, String.toList_map]

theorem exists_isKeyword (h : t.IsLexed) (hkind : t.kind = .command) : ∃ k, IsKeyword t k := by
  have hwhole := h.isWhole_text (by simp [hkind])
  rw [hkind] at hwhole
  obtain ⟨-, -, -, k, hk⟩ := hwhole
  refine ⟨k, hkind, ?_⟩
  rw [← String.toList_inj, String.toList_map, hk]

/-- Words start with letters and underscores, and operators are no digits. -/
theorem kind_eq_number (h : t.IsLexed) (hgrammatical : t.isGrammatical) {c : Char} (hc : c ∈ t.text.toList.head?)
    (hdigit : c.isDigit) : t.kind = .number := by
  have hwhole := h.isWhole_text (by
    intro hkind
    simp [isGrammatical, hkind] at hgrammatical)
  cases hkind : t.kind with
  | number => rfl
  | blank | comment => simp [isGrammatical, hkind] at hgrammatical
  | command | identifier =>
    rw [hkind] at hwhole
    obtain ⟨⟨d, hd, hstart⟩, -⟩ := hwhole
    obtain rfl := Option.mem_unique hc hd
    exact absurd hdigit (Lexeme.not_isDigit_of_isWordStart hstart)
  | operator =>
    rw [hkind] at hwhole
    obtain ⟨d, hd, hoperator, -⟩ := hwhole
    rw [hd] at hc
    obtain rfl : d = c := Option.some.inj hc
    exact absurd hdigit (Lexeme.not_isDigit_of_isOperatorChar hoperator)

end Token.IsLexed

/-! ## Programs -/

theorem isUnsigned_of_isNumber {t : Token} {v : Float} (h : IsNumber t v) : IsUnsigned v :=
  isUnsigned_of_read? h.2.2

theorem isWritten_of_arguments {k : Keyword} {arguments : List Token} {c : Command} (h : Arguments k arguments c)
    (hlexed : ∀ t ∈ arguments, t.IsLexed) : c.IsWritten := by
  cases h with
  | pen h => exact .pen (isUnsigned_of_isNumber h)
  | paper h => exact .paper (isUnsigned_of_isNumber h)
  | color h => exact .color (isUnsigned_of_isNumber h)
  | line h₁ h₂ h₃ h₄ =>
    exact .line ⟨isUnsigned_of_isNumber h₁, isUnsigned_of_isNumber h₂⟩
      ⟨isUnsigned_of_isNumber h₃, isUnsigned_of_isNumber h₄⟩
  | rect h₁ h₂ h₃ h₄ =>
    exact .rect ⟨isUnsigned_of_isNumber h₁, isUnsigned_of_isNumber h₂⟩
      ⟨isUnsigned_of_isNumber h₃, isUnsigned_of_isNumber h₄⟩
  | circle h₁ h₂ h₃ =>
    exact .circle ⟨isUnsigned_of_isNumber h₁, isUnsigned_of_isNumber h₂⟩ (isUnsigned_of_isNumber h₃)
  | @set t _ name _ hname hvalue =>
    have hvariable := (hlexed t List.mem_cons_self).isVariableName hname.1
    rw [hname.2] at hvariable
    exact .set hvariable (isUnsigned_of_isNumber hvalue)

mutual

theorem isWritten_of_item {tokens rest : List Token} {item : Option Command} (h : Item tokens item rest)
    (hlexed : ∀ t ∈ tokens, t.IsLexed) : ∀ c ∈ item.toList, c.IsWritten :=
  match h with
  | .stray _ => nofun
  | .command _ ha => by
    have hwritten := isWritten_of_arguments ha fun t ht => hlexed t (by simp [ht])
    simpa using hwritten
  | .repeat _ hu hb => by
    have hbody := isWritten_of_body hb fun t ht => hlexed t (by simp [ht])
    simpa using Command.IsWritten.repeat (isUnsigned_of_isNumber hu) hbody

theorem isWritten_of_body {tokens rest : List Token} {body : List Command} (h : Body tokens body rest)
    (hlexed : ∀ t ∈ tokens, t.IsLexed) : ∀ c ∈ body, c.IsWritten :=
  match h with
  | .block _ hb => isWritten_of_block hb fun t ht => hlexed t (List.mem_cons_of_mem _ ht)
  | .single _ hitem => isWritten_of_item hitem hlexed
  | .missing => nofun

theorem isWritten_of_block {tokens rest : List Token} {body : List Command} (h : Block tokens body rest)
    (hlexed : ∀ t ∈ tokens, t.IsLexed) : ∀ c ∈ body, c.IsWritten :=
  match h with
  | .close _ => nofun
  | .item _ hitem hb => by
    have hrest := isWritten_of_block hb fun t ht => hlexed t ((suffix_of_item hitem).subset ht)
    exact List.forall_mem_append.2 ⟨isWritten_of_item hitem hlexed, hrest⟩

end

theorem isWritten_of_items {tokens : List Token} {p : Program} (h : Items tokens p)
    (hlexed : ∀ t ∈ tokens, t.IsLexed) : ∀ c ∈ p, c.IsWritten := by
  induction h with
  | nil => nofun
  | cons hitem _ ih =>
    refine List.forall_mem_append.2 ⟨isWritten_of_item hitem hlexed, ih fun t ht => ?_⟩
    exact hlexed t ((suffix_of_item hitem).subset ht)

/-! ## Errors -/

/-- The causes that no text has: a command that is no reserved word, and a number that is called for where one
stands. -/
def SyntaxError.Cause.IsUnwritten : SyntaxError.Cause → Prop
  | .unknownCommand _ => True
  | .expectedNumber (.token text) => ∃ c ∈ text.toList.head?, c.isDigit
  | _ => False

theorem not_isUnwritten_of_reports {tokens : List Token} {k : Nat} {e : SyntaxError} (h : Reports tokens k e)
    (hlexed : ∀ t ∈ tokens, t.IsLexed) (hgrammatical : ∀ t ∈ tokens, t.isGrammatical) :
    ¬ e.cause.IsUnwritten := by
  cases h with
  | @unknown t ht hkind hnone =>
    obtain ⟨w, hw⟩ := (hlexed t (List.mem_of_getElem? ht)).exists_isKeyword hkind
    exact absurd hw (hnone w)
  | @unfilled _ w j slot _ _ hslot =>
    unfold Slot.error
    cases hu : tokens[k + 1 + j]? with
    | none => cases slot <;> exact id
    | some u =>
      cases slot with
      | name => exact id
      | number =>
        -- A token that starts with a digit would have filled the slot.
        rintro ⟨c, hc, hdigit⟩
        have hmem := List.mem_of_getElem? hu
        have hkind := (hlexed u hmem).kind_eq_number (hgrammatical u hmem) hc hdigit
        exact hslot.not_fitsAt ⟨u, hu, hkind, c, hc, hdigit⟩

/-- A text that is a program has, at every depth, only commands that can be written. A text that is none never has
an unknown command in it, and never a number missing where the text of a token starts with a digit. -/
theorem read_isWritten (source : String) :
    (∀ p, Program.read source = .ok p → ∀ c ∈ p, c.IsWritten) ∧
    ∀ e, Program.read source = .error e → ¬ e.cause.IsUnwritten := by
  let ts := (tokenize source).filter Token.isGrammatical
  have hlexed : ∀ t ∈ ts, t.IsLexed := fun t ht => Lexeme.isLexed_of_mem_place t (List.mem_of_mem_filter ht)
  have hgrammatical : ∀ t ∈ ts, t.isGrammatical := fun t ht => (List.mem_filter.1 ht).2
  constructor
  · intro p hp
    exact isWritten_of_items (items_of_parse_eq_ok hp) hlexed
  · intro e he
    by_cases hcause : e.cause = .unterminatedBlock
    · rw [hcause]
      exact id
    · obtain ⟨k, hreports, -⟩ := (Draft.parse_eq_error_iff ⟨[], []⟩ ts e).1 ⟨he, hcause⟩
      exact not_isUnwritten_of_reports hreports hlexed hgrammatical

end Easel
