import Easel.Token.Lexeme

/-!
# Where a text splits

`Lexeme.next` takes the longest number, word or comment. So a number splits off in front of any text
that does not go on with a digit or a dot, a word in front of any that does not go on with a letter, a
digit or an underscore, and a comment in front of a newline; a blank and a brace always split off.

`lexeme_filter_place`: the grammatical tokens of lexemes are the grammatical lexemes, wherever they stand.
-/

namespace Easel

/-! ## Classes of characters -/

theorem isAlpha_iff_toNat {c : Char} :
    c.isAlpha ↔ (65 ≤ c.toNat ∧ c.toNat ≤ 90) ∨ (97 ≤ c.toNat ∧ c.toNat ≤ 122) := by
  have hupper : c.isUpper ↔ 65 ≤ c.toNat ∧ c.toNat ≤ 90 := by
    refine decide_eq_true_iff.trans ?_
    simp [UInt32.le_iff_toNat_le]
  have hlower : c.isLower ↔ 97 ≤ c.toNat ∧ c.toNat ≤ 122 := by
    refine Bool.and_eq_true_iff.trans ?_
    simp [UInt32.le_iff_toNat_le]
  exact Bool.or_eq_true_iff.trans (or_congr hupper hlower)

/-- Only letters have letters in lower case. -/
theorem isAlpha_of_isAlpha_toLower {c : Char} (h : c.toLower.isAlpha) : c.isAlpha := by
  unfold Char.toLower at h
  split at h
  · next hu => exact Bool.or_eq_true_iff.2 (.inl (decide_eq_true hu))
  · exact h

theorem toNat_of_isBlank {c : Char} (h : Text.isBlank c) : c.toNat ≤ 32 ∨ 133 ≤ c.toNat := by
  simp only [Text.isBlank, Bool.or_eq_true, Bool.and_eq_true, decide_eq_true_eq, beq_iff_eq] at h
  omega

namespace Lexeme

theorem isWordStart_iff_toNat {c : Char} :
    isWordStart c ↔ (65 ≤ c.toNat ∧ c.toNat ≤ 90) ∨ (97 ≤ c.toNat ∧ c.toNat ≤ 122) ∨ c.toNat = 95 := by
  simp [isWordStart, isAlpha_iff_toNat, ← Char.toNat_inj, or_assoc]

theorem isWordChar_iff_toNat {c : Char} :
    isWordChar c ↔ isWordStart c ∨ (48 ≤ c.toNat ∧ c.toNat ≤ 57) := by
  simp only [isWordChar, isWordStart, Char.isAlphanum, Bool.or_eq_true, Char.isDigit_iff_toNat]
  exact or_right_comm

theorem isNumberChar_iff_toNat {c : Char} :
    isNumberChar c ↔ (48 ≤ c.toNat ∧ c.toNat ≤ 57) ∨ c.toNat = 46 := by
  simp [isNumberChar, Char.isDigit_iff_toNat, ← Char.toNat_inj]

theorem isOperatorChar_iff_toNat {c : Char} :
    isOperatorChar c ↔ c.toNat ∈ [43, 45, 42, 47, 61, 40, 41, 123, 125] := by
  simp [isOperatorChar, ← Char.toNat_inj]

theorem not_isDigit_of_isWordStart {c : Char} (h : isWordStart c) : ¬ c.isDigit := by
  have := isWordStart_iff_toNat.1 h
  rw [Char.isDigit_iff_toNat]
  simp only [Char.reduceToNat]
  omega

theorem not_isDigit_of_isOperatorChar {c : Char} (h : isOperatorChar c) : ¬ c.isDigit := by
  have hn := isOperatorChar_iff_toNat.1 h
  simp only [List.mem_cons, List.not_mem_nil, or_false] at hn
  rw [Char.isDigit_iff_toNat]
  simp only [Char.reduceToNat]
  omega

/-! ## The first lexeme -/

/-- No character of `more` comes next. -/
def StopsAt (more : Char → Bool) (s : List Char) : Prop :=
  ∀ c ∈ s.head?, ¬ more c

theorem takeWhile_append_of_stopsAt {more : Char → Bool} {cs s : List Char} (hcs : ∀ c ∈ cs, more c)
    (hs : StopsAt more s) : (cs ++ s).takeWhile more = cs := by
  rw [List.takeWhile_append_of_pos hcs]
  cases s with
  | nil => simp
  | cons c s => rw [List.takeWhile_cons_of_neg (hs c rfl), List.append_nil]

theorem dropWhile_append_of_stopsAt {more : Char → Bool} {cs s : List Char} (hcs : ∀ c ∈ cs, more c)
    (hs : StopsAt more s) : (cs ++ s).dropWhile more = s := by
  rw [List.dropWhile_append_of_pos hcs]
  cases s with
  | nil => rfl
  | cons c s => exact List.dropWhile_cons_of_neg (hs c rfl)

theorem split_cons (c : Char) (s : List Char) : split (c :: s) = (next c s).1 :: split (next c s).2 := by
  rw [split]

theorem split_number {c : Char} {cs s : List Char} (hc : c.isDigit) (hcs : ∀ d ∈ cs, isNumberChar d)
    (hs : StopsAt isNumberChar s) : split (c :: (cs ++ s)) = ⟨some .number, c :: cs⟩ :: split s := by
  have hslash : c ≠ '/' := by rintro rfl; exact absurd hc (by decide)
  have hnext : next c (cs ++ s) = (⟨some .number, c :: cs⟩, s) := by
    simp only [next, hslash, hc, false_and, if_false, if_true]
    rw [takeWhile_append_of_stopsAt hcs hs, dropWhile_append_of_stopsAt hcs hs]
  rw [split_cons, hnext]

theorem split_word {c : Char} {cs s : List Char} (hc : isWordStart c) (hcs : ∀ d ∈ cs, isWordChar d)
    (hs : StopsAt isWordChar s) :
    split (c :: (cs ++ s)) = ⟨some (wordKind (c :: cs)), c :: cs⟩ :: split s := by
  have hslash : c ≠ '/' := by rintro rfl; exact absurd hc (by decide)
  have hdigit := not_isDigit_of_isWordStart hc
  have hnext : next c (cs ++ s) = (⟨some (wordKind (c :: cs)), c :: cs⟩, s) := by
    simp only [next, hslash, hdigit, hc, false_and, Bool.false_eq_true, if_false, if_true]
    rw [takeWhile_append_of_stopsAt hcs hs, dropWhile_append_of_stopsAt hcs hs]
  rw [split_cons, hnext]

theorem split_comment_of_stopsAt {body s : List Char} (hbody : '\n' ∉ body) (hs : StopsAt isCommentChar s) :
    split ('/' :: '/' :: (body ++ s)) = ⟨some .comment, '/' :: '/' :: body⟩ :: split s := by
  have hmore : ∀ d ∈ '/' :: body, isCommentChar d := by
    intro d hd
    rcases List.mem_cons.1 hd with rfl | hd
    · decide
    · have hne : d ≠ '\n' := fun h => hbody (h ▸ hd)
      simp [isCommentChar, hne]
  have hnext : next '/' ('/' :: body ++ s) = (⟨some .comment, '/' :: '/' :: body⟩, s) := by
    simp only [next, List.cons_append, List.head?_cons, and_self, if_true]
    rw [← List.cons_append, takeWhile_append_of_stopsAt hmore hs, dropWhile_append_of_stopsAt hmore hs]
  rw [split_cons]
  exact congrArg (fun r => r.1 :: split r.2) hnext

theorem split_comment {body s : List Char} (hbody : '\n' ∉ body) :
    split ('/' :: '/' :: (body ++ '\n' :: s)) = ⟨some .comment, '/' :: '/' :: body⟩ :: split ('\n' :: s) := by
  refine split_comment_of_stopsAt hbody ?_
  intro d hd
  cases hd
  decide

theorem split_blank {c : Char} {s : List Char} (hc : Text.isBlank c) :
    split (c :: s) = ⟨none, [c]⟩ :: split s := by
  have hn := toNat_of_isBlank hc
  have hslash : c ≠ '/' := by rintro rfl; exact absurd hc (by decide)
  have hdigit : ¬ c.isDigit := by
    rw [Char.isDigit_iff_toNat]
    simp only [Char.reduceToNat]
    omega
  have hword : ¬ isWordStart c := by
    rw [isWordStart_iff_toNat]
    omega
  have hoperator : ¬ isOperatorChar c := by
    rw [isOperatorChar_iff_toNat]
    simp only [List.mem_cons, List.not_mem_nil, or_false]
    omega
  have hnext : next c s = (⟨none, [c]⟩, s) := by simp [next, hslash, hdigit, hword, hoperator]
  rw [split_cons, hnext]

theorem split_operator {c : Char} {s : List Char} (hc : isOperatorChar c) (hslash : c = '/' → s.head? ≠ some '/') :
    split (c :: s) = ⟨some .operator, [c]⟩ :: split s := by
  have hcomment : ¬ (c = '/' ∧ s.head? = some '/') := fun h => hslash h.1 h.2
  have hdigit := not_isDigit_of_isOperatorChar hc
  have hword : ¬ isWordStart c := by
    have hn := isOperatorChar_iff_toNat.1 hc
    simp only [List.mem_cons, List.not_mem_nil, or_false] at hn
    rw [isWordStart_iff_toNat]
    omega
  have hnext : next c s = (⟨some .operator, [c]⟩, s) := by simp [next, hcomment, hdigit, hword, hc]
  rw [split_cons, hnext]

theorem split_brace {c : Char} {s : List Char} (hc : c = '\x7b' ∨ c = '\x7d') :
    split (c :: s) = ⟨some .operator, [c]⟩ :: split s := by
  rcases hc with rfl | rfl
  · exact split_operator (by decide) nofun
  · exact split_operator (by decide) nofun

/-! ## Lexemes and tokens -/

/-- Whether the grammar looks at the token that the lexeme is. -/
def isGrammatical (l : Lexeme) : Bool :=
  match l.kind with
  | none | some .blank | some .comment => false
  | _ => true

end Lexeme

/-- The token without its place. -/
def Token.lexeme (t : Token) : Lexeme := ⟨some t.kind, t.text.toList⟩

/-- The grammatical tokens of lexemes are the grammatical lexemes, wherever they start. -/
theorem lexeme_filter_place (p : Position) (ls : List Lexeme) :
    ((Lexeme.place p ls).filter Token.isGrammatical).map Token.lexeme = ls.filter Lexeme.isGrammatical := by
  induction ls generalizing p with
  | nil => rfl
  | cons l ls ih =>
    obtain ⟨kind, chars⟩ := l
    rcases kind with _ | kind
    · exact ih _
    · cases kind <;> simp [Lexeme.place, List.filter_cons, Token.isGrammatical, Lexeme.isGrammatical,
        Token.lexeme, Lexeme.tokenText, ih]

end Easel
