import Easel.Proofs.Token.Segmentation
import Mathlib.Data.List.Chain
import Mathlib.Data.List.DropRight

/-!
# Tokens at their places

Tokens know their lines and columns, so they can be written down again, each at its place, with spaces and
newlines between them. `LaysOut` says when a text is that, and `layOut` is the shortest such text.

The tokens of a text leave each other room (`Token.Precedes`): each starts behind the one before, a comment has
the rest of its line to itself, and where two tokens touch, the second does not go on with the first. This is all
that a layout needs to be split into the same tokens again (`place_split_of_laysOut`).

`tokenize_of_laysOut`: tokens do not collide, and every text that lays out the tokens of a text has these tokens.
-/

namespace Easel

/-! ## Places -/

namespace Position

/-- In the order of reading: by lines, and by columns within a line. -/
instance : LE Position where
  le p q := p.line < q.line ∨ p.line = q.line ∧ p.column ≤ q.column

theorem le_def {p q : Position} : p ≤ q ↔ p.line < q.line ∨ p.line = q.line ∧ p.column ≤ q.column := Iff.rfl

theorem le_refl (p : Position) : p ≤ p := .inr ⟨rfl, Nat.le_refl _⟩

theorem le_trans {p q r : Position} (h : p ≤ q) (h' : q ≤ r) : p ≤ r := by
  rw [le_def] at *
  omega

theorem not_advance_le (p : Position) (c : Char) : ¬ p.advance c ≤ p := by
  rw [le_def, advance]
  split <;> simp

theorem le_advance (p : Position) (c : Char) : p ≤ p.advance c := by
  rw [le_def, advance]
  split <;> simp

/-- Within a line only the columns grow. -/
theorem advanceAll_of_not_mem {cs : List Char} (h : '\n' ∉ cs) (p : Position) :
    p.advanceAll cs = ⟨p.line, p.column + cs.length⟩ := by
  induction cs generalizing p with
  | nil => rfl
  | cons c cs ih =>
    obtain ⟨hc, hcs⟩ := not_or.1 (mt List.mem_cons.2 h)
    have hcons : p.advanceAll (c :: cs) = (p.advance c).advanceAll cs := rfl
    rw [hcons, ih hcs, advance, if_neg (Ne.symm hc), List.length_cons, Nat.add_assoc, Nat.add_comm 1]

theorem advanceAll_newlines (n : Nat) (p : Position) :
    p.advanceAll (List.replicate (n + 1) '\n') = ⟨p.line + (n + 1), 0⟩ := by
  induction n generalizing p with
  | zero => rfl
  | succ n ih =>
    have hcons : p.advanceAll (List.replicate (n + 1 + 1) '\n') =
      (p.advance '\n').advanceAll (List.replicate (n + 1) '\n') := rfl
    rw [hcons, ih]
    simp [advance, Nat.add_assoc, Nat.add_comm 1]

/-- The shortest text of newlines and spaces that leads from `p` to `q`. -/
def gapTo (p q : Position) : List Char :=
  if p.line < q.line then List.replicate (q.line - p.line) '\n' ++ List.replicate q.column ' '
  else List.replicate (q.column - p.column) ' '

theorem advanceAll_gapTo {p q : Position} (h : p ≤ q) : p.advanceAll (p.gapTo q) = q := by
  have hspaces (n : Nat) : '\n' ∉ List.replicate n ' ' := by simp
  rw [gapTo]
  split
  · next hline =>
    obtain ⟨n, hn⟩ : ∃ n, q.line - p.line = n + 1 := ⟨q.line - p.line - 1, by omega⟩
    rw [advanceAll_append, hn, advanceAll_newlines, advanceAll_of_not_mem (hspaces _), ← hn, List.length_replicate,
      Nat.add_sub_cancel' (Nat.le_of_lt hline), Nat.zero_add]
  · next hline =>
    obtain ⟨heq, hcolumn⟩ := (le_def.1 h).resolve_left hline
    rw [advanceAll_of_not_mem (hspaces _), List.length_replicate, Nat.add_sub_cancel' hcolumn, heq]

end Position

/-! ## Layouts -/

namespace Token

/-- The token as it is written in a text. -/
def written (t : Token) : List Char :=
  if t.kind = .comment then '/' :: '/' :: t.text.toList else t.text.toList

/-- The place right behind the token, on the same line. -/
def stop (t : Token) : Position := ⟨t.position.line, t.position.column + t.written.length⟩

/-- The first token ends where the second one starts, or before. -/
def EndsBefore (t u : Token) : Prop := t.stop ≤ u.position

instance : Trans EndsBefore EndsBefore EndsBefore where
  trans {_ u _} htu huv :=
    have hu : u.position ≤ u.stop := .inr ⟨rfl, Nat.le_add_right _ _⟩
    Position.le_trans htu (Position.le_trans hu huv)

end Token

/-- Nothing but spaces and newlines. -/
def IsGap (gap : List Char) : Prop := ∀ c ∈ gap, c = ' ' ∨ c = '\n'

/-- The text has the tokens written at their places, and nothing else but spaces and newlines. It starts at `p`. -/
inductive LaysOut : Position → List Token → List Char → Prop
  | nil {p gap} : IsGap gap → LaysOut p [] gap
  | cons {p t ts gap s} : IsGap gap → p.advanceAll gap = t.position → LaysOut t.stop ts s →
      LaysOut p (t :: ts) (gap ++ (t.written ++ s))

/-- Writes tokens at their places, with no more newlines and spaces than it takes to get there from `p`. -/
def layOut (p : Position) : List Token → List Char
  | [] => []
  | t :: ts => p.gapTo t.position ++ (t.written ++ layOut t.stop ts)

theorem isGap_gapTo (p q : Position) : IsGap (p.gapTo q) := by
  intro c hc
  rw [Position.gapTo] at hc
  split at hc
  · rcases List.mem_append.1 hc with h | h
    · exact .inr (List.eq_of_mem_replicate h)
    · exact .inl (List.eq_of_mem_replicate h)
  · exact .inl (List.eq_of_mem_replicate hc)

/-- Tokens that do not collide can be laid out. -/
theorem laysOut_layOut {p : Position} {ts : List Token} (hp : ∀ t ∈ ts.head?, p ≤ t.position)
    (hts : ts.IsChain Token.EndsBefore) : LaysOut p ts (layOut p ts) := by
  induction ts generalizing p with
  | nil => exact .nil nofun
  | cons t ts ih =>
    obtain ⟨hnext, hrest⟩ := List.isChain_cons.1 hts
    exact .cons (isGap_gapTo _ _) (Position.advanceAll_gapTo (hp t rfl)) (ih hnext hrest)

/-! ## Trimmed texts -/

namespace Text

theorem trim_eq_rdropWhile (text : List Char) : trim text = (text.dropWhile isBlank).rdropWhile isBlank := rfl

theorem mem_of_mem_trim {text : List Char} {c : Char} (h : c ∈ trim text) : c ∈ text :=
  (List.dropWhile_suffix isBlank).subset ((List.rdropWhile_prefix isBlank _).subset h)

/-- The first character of a trimmed text is no blank. -/
theorem dropWhile_trim (text : List Char) : (trim text).dropWhile isBlank = trim text := by
  have hprefix : trim text <+: text.dropWhile isBlank := List.rdropWhile_prefix isBlank _
  cases htrim : trim text with
  | nil => rfl
  | cons c cs =>
    obtain ⟨rest, hrest⟩ := htrim ▸ hprefix
    have hc := List.head?_dropWhile_not isBlank text
    rw [← hrest] at hc
    exact List.dropWhile_cons_of_neg (by simpa using hc)

theorem trim_trim (text : List Char) : trim (trim text) = trim text := by
  rw [trim_eq_rdropWhile (trim text), dropWhile_trim, trim_eq_rdropWhile, List.rdropWhile_idempotent]

/-- Blanks behind a text are trimmed. -/
theorem trim_append_of_isBlank (text : List Char) {blanks : List Char} (h : ∀ c ∈ blanks, isBlank c) :
    trim (text ++ blanks) = trim text := by
  -- The last blank goes first, so the induction takes blanks off the end.
  induction blanks using List.reverseRecOn with
  | nil => rw [List.append_nil]
  | append_singleton blanks c ih =>
    obtain ⟨hblanks, hc⟩ := List.forall_mem_append.1 h
    rw [← ih hblanks, ← List.append_assoc, trim_eq_rdropWhile, List.dropWhile_append]
    split
    · next hnil =>
      rw [trim_eq_rdropWhile, List.isEmpty_iff.1 hnil, List.dropWhile_cons_of_pos (hc c (List.mem_singleton_self c))]
      rfl
    · rw [List.rdropWhile_concat_pos _ _ _ (hc c (List.mem_singleton_self c)), trim_eq_rdropWhile]

end Text

/-! ## Tokens by themselves -/

namespace Lexeme

/-- What follows a token matters by its first character only. -/
theorem isWhole_of_head? {kind : TokenKind} {cs after after' : List Char} (h : IsWhole kind cs after)
    (hafter : after'.head? = after.head?) : IsWhole kind cs after' := by
  cases kind with
  | number | command | identifier | operator | comment => simpa [IsWhole, StopsAt, hafter] using h
  | blank => exact h

/-- A token is whole at the end of a text if it is in front of anything. -/
theorem isWhole_nil {kind : TokenKind} {cs after : List Char} (h : IsWhole kind cs after) : IsWhole kind cs [] := by
  cases kind with
  | number => exact ⟨h.1, h.2.1, nofun⟩
  | command | identifier => exact ⟨h.1, h.2.1, nofun, h.2.2.2⟩
  | operator =>
    obtain ⟨c, hcs, hc, -⟩ := h
    exact ⟨c, hcs, hc, nofun⟩
  | comment =>
    obtain ⟨body, hcs, hbody, -⟩ := h
    exact ⟨body, hcs, hbody, nofun⟩
  | blank => exact h

/-- A blank ends every token but a comment. -/
theorem isWhole_cons_blank {kind : TokenKind} {cs after : List Char} (h : IsWhole kind cs [])
    (hkind : kind ≠ .comment) {c : Char} (hc : Text.isBlank c) : IsWhole kind cs (c :: after) := by
  have hn := toNat_of_isBlank hc
  have hnumber : StopsAt isNumberChar (c :: after) := by
    rintro d ⟨⟩
    rw [isNumberChar_iff_toNat]
    omega
  have hword : StopsAt isWordChar (c :: after) := by
    rintro d ⟨⟩
    rw [isWordChar_iff_toNat, isWordStart_iff_toNat]
    omega
  have hslash : c ≠ '/' := by
    rintro rfl
    exact absurd hc (by decide)
  cases kind with
  | number => exact ⟨h.1, h.2.1, hnumber⟩
  | command | identifier => exact ⟨h.1, h.2.1, hword, h.2.2.2⟩
  | operator =>
    obtain ⟨d, hcs, hd, -⟩ := h
    exact ⟨d, hcs, hd, fun _ hhead => hslash (Option.some.inj hhead)⟩
  | comment => exact absurd rfl hkind
  | blank => exact h

/-- Only comments have characters of their own choice, and they end with their line. -/
theorem newline_not_mem_of_isWhole {kind : TokenKind} {cs after : List Char} (h : IsWhole kind cs after) :
    '\n' ∉ cs := by
  cases kind with
  | number => exact fun hmem => absurd (h.2.1 _ hmem) (by decide)
  | command | identifier => exact fun hmem => absurd (h.2.1 _ hmem) (by decide)
  | operator =>
    obtain ⟨c, rfl, hc, -⟩ := h
    intro hmem
    cases List.mem_singleton.1 hmem
    exact absurd hc (by decide)
  | comment =>
    obtain ⟨body, rfl, hbody, -⟩ := h
    simpa using hbody
  | blank => exact h.elim

/-- A token that is whole where it stands splits off there. -/
theorem split_of_isWhole {kind : TokenKind} {cs after : List Char} (h : IsWhole kind cs after) :
    split (cs ++ after) = ⟨some kind, cs⟩ :: split after := by
  cases kind with
  | number =>
    obtain ⟨⟨c, hc, hdigit⟩, hall, hstop⟩ := h
    obtain ⟨cs, rfl⟩ := List.head?_eq_some_iff.1 hc
    exact split_number hdigit (fun d hd => hall d (List.mem_cons_of_mem c hd)) hstop
  | command =>
    obtain ⟨⟨c, hc, hstart⟩, hall, hstop, hword⟩ := h
    obtain ⟨cs, rfl⟩ := List.head?_eq_some_iff.1 hc
    rw [List.cons_append, split_word hstart (fun d hd => hall d (List.mem_cons_of_mem c hd)) hstop]
    rcases wordKind_eq (c :: cs) with ⟨hkind, -⟩ | ⟨-, hnot⟩
    · rw [hkind]
    · exact absurd hword hnot
  | identifier =>
    obtain ⟨⟨c, hc, hstart⟩, hall, hstop, hword⟩ := h
    obtain ⟨cs, rfl⟩ := List.head?_eq_some_iff.1 hc
    rw [List.cons_append, split_word hstart (fun d hd => hall d (List.mem_cons_of_mem c hd)) hstop]
    rcases wordKind_eq (c :: cs) with ⟨-, hk⟩ | ⟨hkind, -⟩
    · exact absurd hk hword
    · rw [hkind]
  | operator =>
    obtain ⟨c, rfl, hc, hslash⟩ := h
    exact split_operator hc hslash
  | comment =>
    obtain ⟨body, rfl, hbody, hafter⟩ := h
    refine split_comment_of_stopsAt hbody ?_
    intro d hd
    cases hafter d hd
    decide
  | blank => exact h.elim

/-- A character that starts no token is by itself. -/
theorem split_cons_of_not_startsToken {c : Char} (h : ¬ StartsToken c) (s : List Char) :
    split (c :: s) = ⟨none, [c]⟩ :: split s := by
  obtain ⟨hdigit, hword, hoperator⟩ : ¬ c.isDigit ∧ ¬ isWordStart c ∧ ¬ isOperatorChar c := by
    simpa only [StartsToken, not_or] using h
  have hslash : c ≠ '/' := by
    rintro rfl
    exact hoperator rfl
  have hnext : next c s = (⟨none, [c]⟩, s) := by
    rw [next, if_neg (mt And.left hslash), if_neg hdigit, if_neg hword, if_neg hoperator]
  rw [split_cons, hnext]

end Lexeme

namespace Token

/-- The token is one that a text can have: all of its kind when written, and trimmed if it is a comment. -/
structure IsLexed (t : Token) : Prop where
  isWhole : Lexeme.IsWhole t.kind t.written []
  trim_text : t.kind = .comment → Text.trim t.text.toList = t.text.toList

theorem written_of_ne_comment {t : Token} (h : t.kind ≠ .comment) : t.written = t.text.toList := if_neg h

theorem written_of_comment {t : Token} (h : t.kind = .comment) : t.written = '/' :: '/' :: t.text.toList := if_pos h

theorem IsLexed.advanceAll_written {t : Token} (h : t.IsLexed) : t.position.advanceAll t.written = t.stop :=
  Position.advanceAll_of_not_mem (Lexeme.newline_not_mem_of_isWhole h.isWhole) t.position

/-- What a whole lexeme makes is written as the lexeme, up to the blanks at the ends of a comment. -/
theorem written_eq {kind : TokenKind} {cs : List Char} (p : Position) (h : kind ≠ .comment) :
    written ⟨kind, Lexeme.tokenText kind cs, p⟩ = cs := by
  rw [written_of_ne_comment h, Lexeme.tokenText, if_neg h, String.toList_ofList]

theorem isLexed_of_isWhole {kind : TokenKind} {cs after : List Char} (h : Lexeme.IsWhole kind cs after)
    (p : Position) : IsLexed ⟨kind, Lexeme.tokenText kind cs, p⟩ := by
  by_cases hkind : kind = .comment
  · subst hkind
    obtain ⟨body, rfl, hbody, -⟩ := h
    have htext : (Lexeme.tokenText .comment ('/' :: '/' :: body)).toList = Text.trim body := by
      simp [Lexeme.tokenText]
    constructor
    · refine ⟨Text.trim body, ?_, fun hmem => hbody (Text.mem_of_mem_trim hmem), by simp⟩
      rw [written_of_comment rfl, htext]
    · intro _
      rw [htext, Text.trim_trim]
  · refine ⟨?_, fun h => absurd h hkind⟩
    rw [written_eq p hkind]
    exact Lexeme.isWhole_nil h

end Token

/-! ## Tokens next to each other -/

/-- `u` leaves `t` the room that it needs. -/
structure Token.Precedes (t u : Token) : Prop where
  endsBefore : t.EndsBefore u
  line_lt : t.kind = .comment → t.position.line < u.position.line
  isWhole : t.stop = u.position → Lexeme.IsWhole t.kind t.written u.written

namespace Lexeme

theorem isLexed_of_mem_place {p : Position} {cs : List Char} : ∀ t ∈ place p (split cs), t.IsLexed := by
  fun_induction split cs generalizing p with
  | case1 => exact List.forall_mem_nil _
  | case2 c rest ih =>
    have hcomplete := isComplete_next c rest
    generalize next c rest = r at *
    obtain ⟨⟨kind, chars⟩, rest'⟩ := r
    cases kind with
    | none => exact ih
    | some kind => exact List.forall_mem_cons.2 ⟨Token.isLexed_of_isWhole hcomplete p, ih⟩

/-- The first token of a text stands behind its start, or right at it and starts with the same character. -/
theorem head?_place {p : Position} {cs : List Char} :
    ∀ t ∈ (place p (split cs)).head?, p ≤ t.position ∧ (p = t.position → t.written.head? = cs.head?) := by
  fun_induction split cs generalizing p with
  | case1 => rintro t ⟨⟩
  | case2 c rest ih =>
    have hcomplete := isComplete_next c rest
    have hhead : ((next c rest).1.chars ++ (next c rest).2).head? = some c := by rw [chars_append_next, List.head?_cons]
    generalize next c rest = r at *
    obtain ⟨⟨kind, chars⟩, rest'⟩ := r
    cases kind with
    | none =>
      obtain ⟨d, rfl, -⟩ := hcomplete
      intro t ht
      obtain ⟨hle, -⟩ := ih t ht
      refine ⟨Position.le_trans (Position.le_advance p d) hle, ?_⟩
      rintro rfl
      exact absurd hle (Position.not_advance_le _ _)
    | some kind =>
      rintro t ⟨⟩
      refine ⟨Position.le_refl p, fun _ => ?_⟩
      rw [List.head?_append_of_ne_nil _ (ne_nil_of_isWhole hcomplete)] at hhead
      by_cases hkind : kind = .comment
      · subst hkind
        obtain ⟨body, rfl, -, -⟩ := hcomplete
        rw [Token.written_of_comment rfl]
        exact hhead
      · rw [Token.written_eq p hkind]
        exact hhead

/-- What a whole lexeme makes leaves room for what is split behind it. -/
theorem precedes_of_isWhole {kind : TokenKind} {cs after : List Char} (h : IsWhole kind cs after) (p : Position) :
    ∀ u ∈ (place (p.advanceAll cs) (split after)).head?, Token.Precedes ⟨kind, tokenText kind cs, p⟩ u := by
  intro u hu
  have hadvance := Position.advanceAll_of_not_mem (newline_not_mem_of_isWhole h) p
  by_cases hkind : kind = .comment
  · subst hkind
    obtain ⟨body, rfl, -, hafter⟩ := h
    -- A newline follows the comment, and all else is below it.
    have hline : p.line < u.position.line := by
      cases after with
      | nil =>
        rw [split] at hu
        cases hu
      | cons c rest =>
        cases hafter c rfl
        rw [split_blank (by decide)] at hu
        have hle := (head?_place u hu).1
        rw [hadvance, Position.le_def] at hle
        simp only [Position.advanceAll, List.foldl_cons, List.foldl_nil, Position.advance, if_true] at hle
        omega
    exact ⟨.inl hline, fun _ => hline, fun hstop => absurd (congrArg Position.line hstop) (Nat.ne_of_lt hline)⟩
  · have hstop : p.advanceAll cs = Token.stop ⟨kind, tokenText kind cs, p⟩ := by
      rw [hadvance, Token.stop, Token.written_eq p hkind]
    obtain ⟨hle, htouch⟩ := head?_place u hu
    rw [hstop] at hle htouch
    refine ⟨hle, fun hcomment => absurd hcomment hkind, fun heq => ?_⟩
    rw [Token.written_eq p hkind]
    exact isWhole_of_head? h (htouch heq)

theorem isChain_place {p : Position} {cs : List Char} : (place p (split cs)).IsChain Token.Precedes := by
  fun_induction split cs generalizing p with
  | case1 => exact .nil
  | case2 c rest ih =>
    have hcomplete := isComplete_next c rest
    generalize next c rest = r at *
    obtain ⟨⟨kind, chars⟩, rest'⟩ := r
    cases kind with
    | none => exact ih
    | some kind => exact List.isChain_cons.2 ⟨precedes_of_isWhole hcomplete p, ih⟩

/-! ## Layouts as they are read -/

theorem isBlank_of_isGap {gap : List Char} (h : IsGap gap) : ∀ c ∈ gap, Text.isBlank c := by
  intro c hc
  rcases h c hc with rfl | rfl <;> decide

/-- Blanks are no tokens. -/
theorem place_split_append {blanks : List Char} (h : ∀ c ∈ blanks, Text.isBlank c) (p : Position) (s : List Char) :
    place p (split (blanks ++ s)) = place (p.advanceAll blanks) (split s) := by
  induction blanks generalizing p with
  | nil => rfl
  | cons c cs ih =>
    obtain ⟨hc, hcs⟩ := List.forall_mem_cons.1 h
    rw [List.cons_append, split_blank hc]
    exact ih hcs _

/-- Behind a token that is no comment a layout goes on with nothing that would go on with the token. -/
theorem isWhole_of_laysOut {t : Token} {ts : List Token} {s : List Char} (ht : t.IsLexed) (hkind : t.kind ≠ .comment)
    (hlexed : ∀ u ∈ ts, u.IsLexed) (hnext : ∀ u ∈ ts.head?, t.Precedes u) (h : LaysOut t.stop ts s) :
    IsWhole t.kind t.written s := by
  have hgap {c : Char} {cs : List Char} (h : IsGap (c :: cs)) (s : List Char) : IsWhole t.kind t.written (c :: s) :=
    isWhole_cons_blank ht.isWhole hkind (isBlank_of_isGap h c List.mem_cons_self)
  cases h with
  | nil hblank =>
    cases s with
    | nil => exact ht.isWhole
    | cons c cs => exact hgap hblank cs
  | @cons _ u us gap s hblank hplace _ =>
    cases gap with
    | nil =>
      have hu := (hlexed u List.mem_cons_self).isWhole
      refine isWhole_of_head? ((hnext u rfl).isWhole hplace) ?_
      exact List.head?_append_of_ne_nil _ (ne_nil_of_isWhole hu)
    | cons c cs => exact hgap hblank _

/-- Behind a comment a layout has spaces and a newline, or spaces and its end. -/
theorem head?_dropWhile_of_laysOut {t : Token} {ts : List Token} {s : List Char}
    (hnext : ∀ u ∈ ts.head?, t.position.line < u.position.line) (h : LaysOut t.stop ts s) :
    ∀ c ∈ (s.dropWhile (· = ' ')).head?, c = '\n' := by
  have hgap {gap : List Char} (h : IsGap gap) : ∀ c ∈ (gap.dropWhile (· = ' ')).head?, c = '\n' := by
    intro c hc
    have hspace := stopsAt_dropWhile (· = ' ') gap c hc
    exact (h c ((List.dropWhile_suffix _).subset (List.mem_of_mem_head? hc))).resolve_left (by simpa using hspace)
  cases h with
  | nil hblank => exact hgap hblank
  | @cons _ u us gap s hblank hplace _ =>
    have hdrop : gap.dropWhile (· = ' ') ≠ [] := by
      intro hnil
      have hspaces := List.dropWhile_eq_nil_iff.1 hnil
      have hnewline : '\n' ∉ gap := fun hmem => absurd (hspaces _ hmem) (by decide)
      rw [Position.advanceAll_of_not_mem hnewline] at hplace
      exact absurd (congrArg Position.line hplace) (Nat.ne_of_lt (hnext u rfl))
    rw [List.dropWhile_append, if_neg (by simpa using hdrop), List.head?_append_of_ne_nil _ hdrop]
    exact hgap hblank

theorem place_cons_some (p : Position) (kind : TokenKind) (cs : List Char) (ls : List Lexeme) :
    place p (⟨some kind, cs⟩ :: ls) = ⟨kind, tokenText kind cs, p⟩ :: place (p.advanceAll cs) ls := rfl

/-- A token in a layout is read as the token that it is. -/
theorem place_split_written {t : Token} {ts : List Token} {s : List Char} (ht : t.IsLexed)
    (hlexed : ∀ u ∈ ts, u.IsLexed) (hnext : ∀ u ∈ ts.head?, t.Precedes u) (h : LaysOut t.stop ts s) :
    place t.position (split (t.written ++ s)) = t :: place t.stop (split s) := by
  rw [← ht.advanceAll_written]
  by_cases hkind : t.kind = .comment
  · -- Spaces behind the comment on its line are read as a part of it, and trimmed.
    have hspaces : ∀ c ∈ s.takeWhile (· = ' '), Text.isBlank c := by
      intro c hc
      have hspace := forall_mem_takeWhile (· = ' ') s c hc
      rw [decide_eq_true_eq] at hspace
      subst hspace
      decide
    have hwhole : IsWhole .comment (t.written ++ s.takeWhile (· = ' ')) (s.dropWhile (· = ' ')) := by
      rw [Token.written_of_comment hkind]
      refine ⟨t.text.toList ++ s.takeWhile (· = ' '), rfl, ?_, ?_⟩
      · have hnewline := newline_not_mem_of_isWhole ht.isWhole
        rw [Token.written_of_comment hkind] at hnewline
        intro hmem
        rcases List.mem_append.1 hmem with hmem | hmem
        · exact hnewline (by simp [hmem])
        · exact absurd (forall_mem_takeWhile (· = ' ') s _ hmem) (by decide)
      · exact head?_dropWhile_of_laysOut (fun u hu => (hnext u hu).line_lt hkind) h
    have htext : tokenText .comment (t.written ++ s.takeWhile (· = ' ')) = t.text := by
      have htrim := Text.trim_append_of_isBlank t.text.toList hspaces
      rw [ht.trim_text hkind] at htrim
      simp [tokenText, Token.written_of_comment hkind, htrim]
    calc
      place t.position (split (t.written ++ s))
      _ = place t.position (split (t.written ++ s.takeWhile (· = ' ') ++ s.dropWhile (· = ' '))) := by
        rw [List.append_assoc, List.takeWhile_append_dropWhile]
      _ = ⟨.comment, t.text, t.position⟩ ::
          place (t.position.advanceAll (t.written ++ s.takeWhile (· = ' '))) (split (s.dropWhile (· = ' '))) := by
        rw [split_of_isWhole hwhole, place_cons_some, htext]
      _ = t :: place (t.position.advanceAll t.written) (split (s.takeWhile (· = ' ') ++ s.dropWhile (· = ' '))) := by
        rw [place_split_append hspaces, Position.advanceAll_append, ← hkind]
      _ = t :: place (t.position.advanceAll t.written) (split s) := by rw [List.takeWhile_append_dropWhile]
  · have hwhole := isWhole_of_laysOut ht hkind hlexed hnext h
    rw [split_of_isWhole hwhole, place_cons_some, tokenText, if_neg hkind, Token.written_of_ne_comment hkind,
      String.ofList_toList]

/-- Tokens that a text can have, with the room that they need, are read again wherever they are laid out. -/
theorem place_split_of_laysOut {p : Position} {ts : List Token} {s : List Char} (h : LaysOut p ts s)
    (hlexed : ∀ t ∈ ts, t.IsLexed) (hts : ts.IsChain Token.Precedes) : place p (split s) = ts := by
  induction h with
  | @nil p gap hgap =>
    rw [← List.append_nil gap, place_split_append (isBlank_of_isGap hgap), split]
    rfl
  | @cons p t ts gap s hgap hplace hrest ih =>
    obtain ⟨hnext, hchain⟩ := List.isChain_cons.1 hts
    obtain ⟨ht, hlexed⟩ := List.forall_mem_cons.1 hlexed
    rw [place_split_append (isBlank_of_isGap hgap), hplace, place_split_written ht hlexed hnext hrest,
      ih hlexed hchain]

end Lexeme

/-! ## The tokens of a text -/

/-- The tokens of a text do not collide at the places that they have. So they can be laid out, and whatever text
has them written at their places, with nothing but spaces and newlines between them, has the same tokens: the same
kinds and texts in the same places. -/
theorem tokenize_of_laysOut (source : String) :
    (tokenize source).Pairwise Token.EndsBefore ∧
    LaysOut .start (tokenize source) (layOut .start (tokenize source)) ∧
    (∀ text : String, LaysOut .start (tokenize source) text.toList → tokenize text = tokenize source) ∧
    tokenize (String.ofList (layOut .start (tokenize source))) = tokenize source := by
  have hchain : (tokenize source).IsChain Token.Precedes := Lexeme.isChain_place
  have hlexed : ∀ t ∈ tokenize source, t.IsLexed := Lexeme.isLexed_of_mem_place
  have hends : (tokenize source).IsChain Token.EndsBefore := hchain.imp fun _ _ h => h.endsBefore
  have hlayout : LaysOut .start (tokenize source) (layOut .start (tokenize source)) :=
    laysOut_layOut (fun t ht => (Lexeme.head?_place t ht).1) hends
  have hread (text : String) (h : LaysOut .start (tokenize source) text.toList) : tokenize text = tokenize source :=
    Lexeme.place_split_of_laysOut h hlexed hchain
  refine ⟨List.isChain_iff_pairwise.1 hends, hlayout, hread, hread _ ?_⟩
  rw [String.toList_ofList]
  exact hlayout

end Easel
