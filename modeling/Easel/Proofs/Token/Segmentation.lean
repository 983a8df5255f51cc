import Easel.Proofs.Token.Lines
import Mathlib.Data.List.Forall2

/-!
# Where tokens stand

The tokens of a text stand at intervals of it, one behind the other. `Lexeme.IsWhole` says what a token of
each kind is made of and what may not follow it, and `Token.StandsAt` adds what its text and its place
have to be. What lies outside of all intervals belongs to no token.

The lexemes of a text and the text are read off together. Behind `before`, the position that `place` has
counted up to is that of the next character (`advanceAll_start`), so every token knows where it stands
(`forall₂_standsAt`).

`tokenize_segments`: the intervals of a text's tokens.
-/

namespace Easel

/-! ## Intervals -/

/-- The characters of a text from index `start` on, before index `stop`. -/
structure Interval where
  start : Nat
  stop : Nat

namespace Interval

instance : Membership Nat Interval where
  mem i n := i.start ≤ n ∧ n < i.stop

def before (i : Interval) (s : List Char) : List Char := s.take i.start

def chars (i : Interval) (s : List Char) : List Char := (s.drop i.start).take (i.stop - i.start)

def after (i : Interval) (s : List Char) : List Char := s.drop i.stop

end Interval

namespace Lexeme

/-! ## Lexemes in a text -/

/-- The character is one that a token starts with. -/
def StartsToken (c : Char) : Prop := c.isDigit ∨ isWordStart c ∨ isOperatorChar c

/-- The characters are all there is of a token of this kind, where `after` follows them. -/
def IsWhole : TokenKind → List Char → List Char → Prop
  | .number, cs, after =>
    (∃ c ∈ cs.head?, c.isDigit) ∧ (∀ c ∈ cs, isNumberChar c) ∧ StopsAt isNumberChar after
  | .command, cs, after =>
    (∃ c ∈ cs.head?, isWordStart c) ∧ (∀ c ∈ cs, isWordChar c) ∧ StopsAt isWordChar after ∧
      ∃ k : Keyword, cs.map Char.toLower = k.spelling.toList
  | .identifier, cs, after =>
    (∃ c ∈ cs.head?, isWordStart c) ∧ (∀ c ∈ cs, isWordChar c) ∧ StopsAt isWordChar after ∧
      ¬ ∃ k : Keyword, cs.map Char.toLower = k.spelling.toList
  | .operator, cs, after =>
    ∃ c, cs = [c] ∧ isOperatorChar c ∧ (c = '/' → after.head? ≠ some '/')
  | .comment, cs, after =>
    ∃ body, cs = '/' :: '/' :: body ∧ '\n' ∉ body ∧ ∀ c ∈ after.head?, c = '\n'
  | .blank, _, _ => False

theorem stopsAt_dropWhile (more : Char → Bool) (s : List Char) : StopsAt more (s.dropWhile more) := by
  intro c hc
  have h := List.head?_dropWhile_not more s
  rw [Option.mem_def.1 hc] at h
  simp [h]

theorem forall_mem_takeWhile (more : Char → Bool) (s : List Char) : ∀ c ∈ s.takeWhile more, more c :=
  List.all_eq_true.1 List.all_takeWhile

theorem wordKind_eq (word : List Char) :
    wordKind word = .command ∧ (∃ k : Keyword, word.map Char.toLower = k.spelling.toList) ∨
    wordKind word = .identifier ∧ ¬ ∃ k : Keyword, word.map Char.toLower = k.spelling.toList := by
  have hword : (Keyword.ofWord? (String.ofList word)).isSome ↔
      ∃ k : Keyword, word.map Char.toLower = k.spelling.toList := by
    simp [Option.isSome_iff_exists, Keyword.ofWord?_eq_some_iff, ← String.toList_inj]
  unfold wordKind
  split
  · next h => exact .inl ⟨rfl, hword.1 h⟩
  · next h => exact .inr ⟨rfl, fun hk => h (hword.2 hk)⟩

/-- The lexeme is all of a token, where `after` follows it, or one character that starts none. -/
def IsComplete (l : Lexeme) (after : List Char) : Prop :=
  match l.kind with
  | none => ∃ c, l.chars = [c] ∧ ¬ StartsToken c
  | some kind => IsWhole kind l.chars after

theorem isComplete_next (c : Char) (rest : List Char) : IsComplete (next c rest).1 (next c rest).2 := by
  unfold next
  dsimp only
  split
  · next h =>
    obtain ⟨rfl, hslash⟩ := h
    obtain ⟨rest, rfl⟩ : ∃ rest', rest = '/' :: rest' := by
      cases rest with
      | nil => cases hslash
      | cons d rest' => exact ⟨rest', by simpa using hslash⟩
    refine ⟨rest.takeWhile isCommentChar, by simp [isCommentChar], ?_, ?_⟩
    · intro hmem
      have hmore := forall_mem_takeWhile isCommentChar rest _ hmem
      simp [isCommentChar] at hmore
    · intro d hd
      have hstop := stopsAt_dropWhile isCommentChar ('/' :: rest) d hd
      simpa [isCommentChar] using hstop
  split
  · next _ hdigit =>
    refine ⟨⟨c, rfl, hdigit⟩, List.forall_mem_cons.2 ⟨by simp [isNumberChar, hdigit], ?_⟩, ?_⟩
    · exact forall_mem_takeWhile isNumberChar rest
    · exact stopsAt_dropWhile isNumberChar rest
  split
  · next _ _ hstart =>
    have hchar : isWordChar c := isWordChar_iff_toNat.2 (.inl hstart)
    have hall : ∀ d ∈ c :: rest.takeWhile isWordChar, isWordChar d :=
      List.forall_mem_cons.2 ⟨hchar, forall_mem_takeWhile isWordChar rest⟩
    have hstop := stopsAt_dropWhile isWordChar rest
    rcases wordKind_eq (c :: rest.takeWhile isWordChar) with ⟨hkind, hk⟩ | ⟨hkind, hk⟩
    · simp only [IsComplete, hkind]
      exact ⟨⟨c, rfl, hstart⟩, hall, hstop, hk⟩
    · simp only [IsComplete, hkind]
      exact ⟨⟨c, rfl, hstart⟩, hall, hstop, hk⟩
  split
  · next hcomment _ _ hoperator =>
    refine ⟨c, rfl, hoperator, ?_⟩
    -- With a slash behind it, it would have been taken for a comment already.
    intro hslash hnext
    exact hcomment ⟨hslash, hnext⟩
  · next _ hdigit hword hoperator =>
    refine ⟨c, rfl, ?_⟩
    rintro (h | h | h)
    · exact hdigit h
    · exact hword h
    · exact hoperator h

/-- The intervals of the lexemes that are tokens, where the first lexeme starts at index `start`. -/
def intervals (start : Nat) : List Lexeme → List Interval
  | [] => []
  | l :: ls =>
    let stop := start + l.chars.length
    match l.kind with
    | none => intervals stop ls
    | some _ => ⟨start, stop⟩ :: intervals stop ls

theorem le_start_of_mem_intervals {start : Nat} {ls : List Lexeme} {i : Interval}
    (h : i ∈ intervals start ls) : start ≤ i.start := by
  induction ls generalizing start with
  | nil => cases h
  | cons l ls ih =>
    unfold intervals at h
    cases hkind : l.kind with
    | none =>
      simp only [hkind] at h
      exact Nat.le_trans (Nat.le_add_right _ _) (ih h)
    | some kind =>
      simp only [hkind, List.mem_cons] at h
      rcases h with rfl | h
      · exact Nat.le_refl _
      · exact Nat.le_trans (Nat.le_add_right _ _) (ih h)

theorem pairwise_intervals (start : Nat) (ls : List Lexeme) :
    (intervals start ls).Pairwise fun i j => i.stop ≤ j.start := by
  induction ls generalizing start with
  | nil => exact .nil
  | cons l ls ih =>
    unfold intervals
    cases hkind : l.kind with
    | none => exact ih _
    | some kind => exact .cons (fun i hi => le_start_of_mem_intervals hi) (ih _)

/-- A character outside of the intervals starts no token. -/
theorem not_startsToken_of_forall_not_mem (start : Nat) (cs : List Char) {n : Nat} {c : Char}
    (hn : cs[n]? = some c) (hout : ∀ i ∈ intervals start (split cs), start + n ∉ i) : ¬ StartsToken c := by
  fun_induction split cs generalizing start n with
  | case1 => cases hn
  | case2 d rest ih =>
    have happend := chars_append_next d rest
    have hcomplete := isComplete_next d rest
    generalize next d rest = r at *
    obtain ⟨⟨kind, chars⟩, rest'⟩ := r
    simp only at *
    rw [← happend] at hn
    -- The character lies in the first lexeme, which is no token then, or behind it.
    by_cases hlt : n < chars.length
    · rw [List.getElem?_append_left hlt] at hn
      cases kind with
      | none =>
        obtain ⟨e, rfl, he⟩ := hcomplete
        simp at hlt
        subst hlt
        cases hn
        exact he
      | some kind =>
        have hmem := hout ⟨start, start + chars.length⟩ (by simp [intervals])
        exact absurd ⟨Nat.le_add_right _ _, Nat.add_lt_add_left hlt _⟩ hmem
    · rw [List.getElem?_append_right (Nat.le_of_not_lt hlt)] at hn
      refine ih (start + chars.length) hn ?_
      intro i hi
      have hi' : i ∈ intervals start (⟨kind, chars⟩ :: split rest') := by
        cases kind with
        | none => exact hi
        | some kind => exact List.mem_cons_of_mem _ hi
      have hindex : start + chars.length + (n - chars.length) = start + n := by omega
      rw [hindex]
      exact hout i hi'

end Lexeme

/-! ## Tokens in a text -/

/-- The token is what stands at the interval of the text: all characters of a token of its kind, with its
text, its line and its column. -/
structure Token.StandsAt (t : Token) (s : List Char) (i : Interval) : Prop where
  start_lt_stop : i.start < i.stop
  stop_le_length : i.stop ≤ s.length
  isWhole : Lexeme.IsWhole t.kind (i.chars s) (i.after s)
  text_eq : t.text = String.ofList (if t.kind = .comment then Text.trim ((i.chars s).drop 2) else i.chars s)
  line_eq : t.position.line = 1 + (i.before s).count '\n'
  column_eq : t.position.column = ((i.before s).reverse.takeWhile (· ≠ '\n')).length

theorem Lexeme.ne_nil_of_isWhole {kind : TokenKind} {cs after : List Char} (h : IsWhole kind cs after) : cs ≠ [] := by
  rintro rfl
  cases kind with
  | number | command | identifier =>
    obtain ⟨⟨c, hc, -⟩, -⟩ := h
    cases hc
  | operator | comment =>
    obtain ⟨_, hc, -⟩ := h
    cases hc
  | blank => exact h

/-- What a lexeme between `before` and `after` makes is a token that stands there. -/
theorem Lexeme.standsAt {kind : TokenKind} {cs after : List Char} (h : IsWhole kind cs after) (before : List Char) :
    Token.StandsAt ⟨kind, tokenText kind cs, Position.start.advanceAll before⟩ (before ++ (cs ++ after))
      ⟨before.length, before.length + cs.length⟩ := by
  have hpos := List.length_pos_iff.2 (ne_nil_of_isWhole h)
  have hbefore : Interval.before ⟨before.length, before.length + cs.length⟩ (before ++ (cs ++ after)) = before := by
    simp [Interval.before]
  have hchars : Interval.chars ⟨before.length, before.length + cs.length⟩ (before ++ (cs ++ after)) = cs := by
    simp [Interval.chars]
  have hafter : Interval.after ⟨before.length, before.length + cs.length⟩ (before ++ (cs ++ after)) = after := by
    simp [Interval.after, ← List.append_assoc, ← List.length_append]
  constructor
  · exact Nat.lt_add_of_pos_right hpos
  · simp
  · rw [hchars, hafter]
    exact h
  · rw [hchars]
    rfl
  · rw [hbefore, Position.advanceAll_start]
  · rw [hbefore, Position.advanceAll_start]

/-- The tokens of a text behind `before` stand at the intervals of its lexemes. -/
theorem forall₂_standsAt (before cs : List Char) :
    List.Forall₂ (fun t i => Token.StandsAt t (before ++ cs) i)
      (Lexeme.place (Position.start.advanceAll before) (Lexeme.split cs))
      (Lexeme.intervals before.length (Lexeme.split cs)) := by
  fun_induction Lexeme.split cs generalizing before with
  | case1 => exact .nil
  | case2 c rest ih =>
    have hcomplete := Lexeme.isComplete_next c rest
    rw [← Lexeme.chars_append_next c rest]
    generalize Lexeme.next c rest = r at *
    obtain ⟨⟨kind, chars⟩, rest'⟩ := r
    have hrest := ih (before ++ chars)
    rw [Position.advanceAll_append, List.length_append, List.append_assoc] at hrest
    cases kind with
    | none => exact hrest
    | some kind => exact .cons (Lexeme.standsAt hcomplete before) hrest

/-- The tokens of a text stand at intervals of it, in order and apart from each other, each of them all of a
number, a word, an operator or a comment, with its text and its place. A character outside of these
intervals is a blank, or another one that no token starts with. -/
theorem tokenize_segments (source : String) : ∃ is : List Interval,
    List.Forall₂ (fun t i => Token.StandsAt t source.toList i) (tokenize source) is ∧
    is.Pairwise (fun i j => i.stop ≤ j.start) ∧
    ∀ n c, source.toList[n]? = some c → (∀ i ∈ is, n ∉ i) → ¬ Lexeme.StartsToken c := by
  refine ⟨Lexeme.intervals 0 (Lexeme.split source.toList), ?_, Lexeme.pairwise_intervals _ _, ?_⟩
  · exact forall₂_standsAt [] source.toList
  · intro n c hn hout
    refine Lexeme.not_startsToken_of_forall_not_mem 0 source.toList hn ?_
    simpa using hout

end Easel
