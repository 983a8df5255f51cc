import Easel.Proofs.Token.Lexing

/-!
# Lines

A position counts the lines and the characters of the last line (`Position.advanceAll_start`). No lexeme goes
on behind a newline, so the text behind one splits as if it stood alone (`Lexeme.split_append_newline`), and its
tokens are the same ones, as many lines further down as there are above it (`tokenize_append_newline`).
-/

namespace Easel

/-! ## Positions -/

namespace Position

/-- The same column `n` lines further down. -/
def down (n : Nat) (p : Position) : Position := ⟨p.line + n, p.column⟩

theorem advanceAll_append (p : Position) (cs ds : List Char) :
    p.advanceAll (cs ++ ds) = (p.advanceAll cs).advanceAll ds :=
  List.foldl_append

/-- A line is as far down as there are newlines above it, and a column as far to the right as there are
characters since the last of them. -/
theorem advanceAll_start (cs : List Char) :
    start.advanceAll cs = ⟨1 + cs.count '\n', (cs.reverse.takeWhile (· ≠ '\n')).length⟩ := by
  -- The last character decides, so the induction takes characters off the end.
  induction h : cs.reverse generalizing cs with
  | nil =>
    rw [List.reverse_eq_nil_iff] at h
    subst h
    rfl
  | cons c ds ih =>
    obtain rfl : cs = ds.reverse ++ [c] := by
      rw [← List.reverse_cons, ← h, List.reverse_reverse]
    have hds := ih ds.reverse (List.reverse_reverse ds)
    rw [advanceAll_append, hds, List.count_append]
    by_cases hc : c = '\n'
    · simp [advanceAll, advance, hc, Nat.add_assoc]
    · simp [advanceAll, advance, hc]

theorem advanceAll_down (n : Nat) (p : Position) (cs : List Char) :
    (p.down n).advanceAll cs = (p.advanceAll cs).down n := by
  induction cs generalizing p with
  | nil => rfl
  | cons c cs ih =>
    have hc : (p.down n).advance c = (p.advance c).down n := by
      unfold advance
      split
      · simp [down, Nat.add_right_comm]
      · rfl
    have hcons (q : Position) : q.advanceAll (c :: cs) = (q.advance c).advanceAll cs := rfl
    rw [hcons, hcons, hc, ih]

/-- Behind a newline a line starts anew. -/
theorem advanceAll_start_newline (cs : List Char) :
    start.advanceAll (cs ++ ['\n']) = start.down (1 + cs.count '\n') := by
  rw [advanceAll_start, List.count_append]
  simp [start, down, Nat.add_comm]

end Position

/-- The same token `n` lines further down. -/
def Token.down (n : Nat) (t : Token) : Token := { t with position := t.position.down n }

namespace Lexeme

/-! ## Lexemes in a row -/

theorem place_append (p : Position) (ls ls' : List Lexeme) :
    place p (ls ++ ls') = place p ls ++ place (p.advanceAll (ls.flatMap chars)) ls' := by
  induction ls generalizing p with
  | nil => rfl
  | cons l ls ih =>
    rw [List.flatMap_cons, Position.advanceAll_append]
    cases hkind : l.kind with
    | none => simp [place, hkind, ih]
    | some kind => simp [place, hkind, ih]

theorem place_down (n : Nat) (p : Position) (ls : List Lexeme) :
    place (p.down n) ls = (place p ls).map (Token.down n) := by
  induction ls generalizing p with
  | nil => rfl
  | cons l ls ih =>
    cases hkind : l.kind with
    | none => simp [place, hkind, Position.advanceAll_down, ih]
    | some kind => simp [place, hkind, Position.advanceAll_down, ih, Token.down]

/-! ## Newlines -/

theorem takeWhile_append_cons {more : Char → Bool} {c : Char} (hc : ¬ more c) (cs ds : List Char) :
    (cs ++ c :: ds).takeWhile more = cs.takeWhile more := by
  rw [List.takeWhile_append, List.takeWhile_cons_of_neg hc]
  split
  · next h => rw [List.append_nil, (List.takeWhile_prefix more).eq_of_length h]
  · rfl

theorem dropWhile_append_cons {more : Char → Bool} {c : Char} (hc : ¬ more c) (cs ds : List Char) :
    (cs ++ c :: ds).dropWhile more = cs.dropWhile more ++ c :: ds := by
  rw [List.dropWhile_append, List.dropWhile_cons_of_neg hc]
  split
  · next h => rw [List.isEmpty_iff.1 h, List.nil_append]
  · rfl

/-- A lexeme ends at a newline at the latest. -/
theorem next_append_newline (c : Char) (rest s : List Char) :
    next c (rest ++ '\n' :: s) = ((next c rest).1, (next c rest).2 ++ '\n' :: s) := by
  have hhead : (rest ++ '\n' :: s).head? = some '/' ↔ rest.head? = some '/' := by
    cases rest <;> simp
  have hcomment : ¬ isCommentChar '\n' := by decide
  have hnumber : ¬ isNumberChar '\n' := by decide
  have hword : ¬ isWordChar '\n' := by decide
  unfold next
  dsimp only
  simp only [hhead, takeWhile_append_cons hcomment, takeWhile_append_cons hnumber, takeWhile_append_cons hword,
    dropWhile_append_cons hcomment, dropWhile_append_cons hnumber, dropWhile_append_cons hword]
  split
  · rfl
  split
  · rfl
  split
  · rfl
  split
  · rfl
  · rfl

/-- A text splits anew behind every newline. -/
theorem split_append_newline (a b : List Char) : split (a ++ '\n' :: b) = split a ++ ⟨none, ['\n']⟩ :: split b := by
  fun_induction split a with
  | case1 => exact split_blank rfl
  | case2 c rest ih => rw [List.cons_append, split_cons, next_append_newline, ih, List.cons_append]

/-- The tokens behind a newline are those of the text behind it, further down. -/
theorem place_append_newline (a b : List Char) :
    place .start (split (a ++ '\n' :: b)) =
      place .start (split a) ++ (place .start (split b)).map (Token.down (1 + a.count '\n')) := by
  rw [split_append_newline, place_append, flatMap_split, ← place_down, ← Position.advanceAll_start_newline,
    Position.advanceAll_append]
  rfl

end Lexeme

/-- Two texts with a newline between them have the tokens of both: those of the first where they are, and those of the
second in the same columns, one line further down and one more for each newline in the first. -/
theorem tokenize_append_newline (a b : String) :
    tokenize (a ++ "\n" ++ b) = tokenize a ++ (tokenize b).map (Token.down (1 + a.toList.count '\n')) := by
  have hchars : (a ++ "\n" ++ b).toList = a.toList ++ '\n' :: b.toList := by simp
  rw [tokenize, hchars, Lexeme.place_append_newline]
  rfl

end Easel
