import Easel.Proofs.Number.Nearest
import Easel.Proofs.Program.Rendering
import Easel.Proofs.Token.Segmentation

/-!
# Literals at the start of a text

Of a text only the longest literal that it starts with is read (`Source.Literal.IsLongest`), whatever stands behind it
(`Source.Literal.literal_append`). A literal has a decimal value (`Source.Literal.decimal`), and what is read depends on
that value alone (`Source.Literal.value_congr`), so zeros in front of it or behind its fraction do not matter.

`Source.read?_isNearest`: what is read is the double nearest to the decimal value of the longest literal.
-/

namespace Easel

/-! ## Digits -/

namespace Number

theorem foldl_digits (n : ℕ) (digits : List Char) :
    digits.foldl (fun n c => 10 * n + (c.toNat - '0'.toNat)) n = n * 10 ^ digits.length + ofDigits digits := by
  induction digits generalizing n with
  | nil => simp [ofDigits]
  | cons c cs ih =>
    rw [ofDigits, List.foldl_cons, List.foldl_cons, ih, ih, List.length_cons, pow_succ]
    ring

theorem ofDigits_append (whole fraction : List Char) :
    ofDigits (whole ++ fraction) = ofDigits whole * 10 ^ fraction.length + ofDigits fraction := by
  rw [ofDigits, List.foldl_append, foldl_digits]
  rfl

theorem ofDigits_replicate_zero (n : ℕ) : ofDigits (List.replicate n '0') = 0 := by
  induction n with
  | zero => rfl
  | succ n ih => exact ih

end Number

namespace Source

open Number

namespace Literal

/-! ## Decimal values -/

/-- The number that the literal denotes. -/
def decimal (l : Literal) : ℚ := ofDigits l.whole + ofDigits l.fraction / 10 ^ l.fraction.length

theorem decimal_eq (l : Literal) :
    (l.decimal : ℝ) = (ofDigits (l.whole ++ l.fraction) : ℝ) / 10 ^ l.fraction.length := by
  rw [decimal, ofDigits_append, eq_div_iff (by positivity)]
  push_cast
  rw [add_mul, div_mul_cancel₀ _ (by positivity)]

/-- The literal with zeros in front of it and behind its fraction. -/
def padded (l : Literal) (leading trailing : ℕ) : Literal where
  whole := List.replicate leading '0' ++ l.whole
  fraction := l.fraction ++ List.replicate trailing '0'
  whole_ne_nil := List.append_ne_nil_of_right_ne_nil _ l.whole_ne_nil
  isDigit_whole := List.forall_mem_append.2
    ⟨fun _ hc => List.eq_of_mem_replicate hc ▸ by decide, l.isDigit_whole⟩
  isDigit_fraction := List.forall_mem_append.2
    ⟨l.isDigit_fraction, fun _ hc => List.eq_of_mem_replicate hc ▸ by decide⟩

theorem decimal_padded (l : Literal) (leading trailing : ℕ) : (l.padded leading trailing).decimal = l.decimal := by
  have hten : (10 : ℚ) ^ trailing ≠ 0 := by positivity
  simp only [decimal, padded, ofDigits_append, ofDigits_replicate_zero, List.length_append, List.length_replicate]
  push_cast
  rw [zero_mul, zero_add, add_zero, pow_add, mul_div_mul_right _ _ hten]

/-! ## The longest literal -/

/-- The text goes on with nothing that belongs to the literal: no digit, and no point with a digit behind it unless the
literal has a fraction already. -/
structure EndsBefore (l : Literal) (rest : List Char) : Prop where
  stopsAt : Lexeme.StopsAt Char.isDigit rest
  stopsAt_of_point : l.fraction = [] → ∀ more, rest = '.' :: more → Lexeme.StopsAt Char.isDigit more

theorem literal_point {whole : List Char} (h : ∀ c ∈ whole, c.isDigit) (more : List Char) :
    Number.literal (whole ++ '.' :: more) = (whole, more.takeWhile Char.isDigit) := by
  have hstops : Lexeme.StopsAt Char.isDigit ('.' :: more) := by
    intro c hc
    cases hc
    decide
  rw [Number.literal, Lexeme.takeWhile_append_of_stopsAt h hstops, Lexeme.dropWhile_append_of_stopsAt h hstops]
  rfl

theorem literal_append {l : Literal} {rest : List Char} (h : l.EndsBefore rest) :
    Number.literal (l.chars ++ rest) = (l.whole, l.fraction) := by
  by_cases hfraction : l.fraction = []
  · rw [chars, if_pos hfraction, List.append_nil, Number.literal,
      Lexeme.takeWhile_append_of_stopsAt l.isDigit_whole h.stopsAt,
      Lexeme.dropWhile_append_of_stopsAt l.isDigit_whole h.stopsAt, hfraction]
    split
    · next more =>
      have hdigits : ∀ c ∈ ([] : List Char), c.isDigit := List.forall_mem_nil _
      exact congrArg (l.whole, ·)
        (Lexeme.takeWhile_append_of_stopsAt hdigits (h.stopsAt_of_point hfraction more rfl))
    · rfl
  · rw [chars, if_neg hfraction, List.append_assoc, List.cons_append, literal_point l.isDigit_whole,
      Lexeme.takeWhile_append_of_stopsAt l.isDigit_fraction h.stopsAt]

theorem endsBefore_nil (l : Literal) : l.EndsBefore [] := ⟨nofun, nofun⟩

/-- All of the literal is read. -/
theorem literal_chars (l : Literal) : Number.literal l.chars = (l.whole, l.fraction) := by
  rw [← l.chars.append_nil]
  exact literal_append l.endsBefore_nil

theorem read?_of_literal {l : Literal} {text : String} (h : Number.literal text.toList = (l.whole, l.fraction)) :
    read? text = some (Float.ofScientific (ofDigits (l.whole ++ l.fraction)) true l.fraction.length) := by
  obtain ⟨c, cs, hwhole⟩ := List.exists_cons_of_ne_nil l.whole_ne_nil
  rw [read?, h, hwhole]

theorem value_eq (l : Literal) :
    l.value = Float.ofScientific (ofDigits (l.whole ++ l.fraction)) true l.fraction.length := by
  have hread : Number.literal (String.ofList l.chars).toList = (l.whole, l.fraction) := by
    rw [String.toList_ofList, literal_chars]
  exact Option.get_of_eq_some _ (read?_of_literal hread)

theorem read?_eq_value {l : Literal} {text : String} {rest : List Char} (htext : text.toList = l.chars ++ rest)
    (h : l.EndsBefore rest) : read? text = some l.value := by
  rw [value_eq, read?_of_literal (htext ▸ literal_append h)]

theorem value_congr {l l' : Literal} (h : l.decimal = l'.decimal) : l.value = l'.value := by
  rw [value_eq, value_eq]
  refine ofScientific_congr ?_
  rw [← decimal_eq, ← decimal_eq, h]

theorem isNearest_value (l : Literal) : IsNearest l.value l.decimal := by
  rw [value_eq, decimal_eq]
  exact isNearest_ofScientific _ _

/-- The text starts with the literal and with no longer one. -/
structure IsLongest (l : Literal) (text : List Char) : Prop where
  isPrefix : l.chars <+: text
  length_le : ∀ l' : Literal, l'.chars <+: text → l'.chars.length ≤ l.chars.length

theorem length_le_of_endsBefore {l l' : Literal} {rest : List Char} (h : l.EndsBefore rest)
    (h' : l'.chars <+: l.chars ++ rest) : l'.chars.length ≤ l.chars.length := by
  obtain ⟨rest', htext⟩ := h'
  have hread := literal_append h
  by_cases hfraction : l'.fraction = []
  · rw [← htext, chars, if_pos hfraction, List.append_nil, Number.literal, Prod.mk.injEq,
      List.takeWhile_append_of_pos l'.isDigit_whole] at hread
    rw [chars, if_pos hfraction, chars, ← hread.1]
    simp only [List.length_append, List.length_nil]
    omega
  · rw [← htext, chars, if_neg hfraction, List.append_assoc, List.cons_append, literal_point l'.isDigit_whole,
      List.takeWhile_append_of_pos l'.isDigit_fraction, Prod.mk.injEq] at hread
    obtain ⟨hwhole, hrest⟩ := hread
    have hfraction' : l.fraction ≠ [] := by
      rw [← hrest]
      exact List.append_ne_nil_of_left_ne_nil hfraction _
    rw [chars, if_neg hfraction, chars, if_neg hfraction', ← hwhole, ← hrest]
    simp only [List.length_append, List.length_cons]
    omega

theorem isLongest_of_endsBefore {l : Literal} {rest : List Char} (h : l.EndsBefore rest) :
    l.IsLongest (l.chars ++ rest) :=
  ⟨List.prefix_append _ _, fun _ => length_le_of_endsBefore h⟩

theorem exists_endsBefore {text : List Char} (h : ∃ c ∈ text.head?, c.isDigit) :
    ∃ (l : Literal) (rest : List Char), text = l.chars ++ rest ∧ l.EndsBefore rest := by
  have hwhole : text.takeWhile Char.isDigit ≠ [] := by
    obtain ⟨c, hc, hdigit⟩ := h
    obtain ⟨cs, rfl⟩ := List.head?_eq_some_iff.1 hc
    rw [List.takeWhile_cons_of_pos hdigit]
    exact List.cons_ne_nil _ _
  have hdigits (text : List Char) : ∀ c ∈ text.takeWhile Char.isDigit, c.isDigit := Lexeme.forall_mem_takeWhile _ _
  have hstops (text : List Char) : Lexeme.StopsAt Char.isDigit (text.dropWhile Char.isDigit) :=
    Lexeme.stopsAt_dropWhile _ _
  by_cases hpoint : ∃ more, text.dropWhile Char.isDigit = '.' :: more ∧ more.takeWhile Char.isDigit ≠ []
  · obtain ⟨more, hmore, hfraction⟩ := hpoint
    refine ⟨⟨_, more.takeWhile Char.isDigit, hwhole, hdigits text, hdigits more⟩, more.dropWhile Char.isDigit, ?_,
      hstops more, fun hnil => absurd hnil hfraction⟩
    rw [chars, if_neg hfraction, List.append_assoc, List.cons_append, List.takeWhile_append_dropWhile, ← hmore,
      List.takeWhile_append_dropWhile]
  · refine ⟨⟨_, [], hwhole, hdigits text, List.forall_mem_nil _⟩, text.dropWhile Char.isDigit, ?_, hstops text,
      fun _ more hmore => ?_⟩
    · rw [chars, if_pos rfl, List.append_nil, List.takeWhile_append_dropWhile]
    · have hnil : more.takeWhile Char.isDigit = [] := by_contra fun hne => hpoint ⟨more, hmore, hne⟩
      have hdrop := hstops more
      rwa [← List.nil_append (more.dropWhile _), ← hnil, List.takeWhile_append_dropWhile] at hdrop

end Literal

/-- Nothing is read of a text that does not start with a digit. Of any other text, the longest literal that it starts
with is read as the nearest double, and neither what follows that literal nor zeros in front of it or behind its
fraction make a difference. -/
theorem read?_isNearest (text : String) :
    (read? text = none ↔ ∀ c ∈ text.toList.head?, ¬ c.isDigit) ∧
      (∀ v, read? text = some v → ∃ l : Literal, l.IsLongest text.toList ∧ IsNearest v l.decimal) ∧
      ∀ (l : Literal) (leading trailing : ℕ) (rest : List Char),
        text.toList = (l.padded leading trailing).chars ++ rest → (l.padded leading trailing).EndsBefore rest →
        read? text = read? (String.ofList l.chars) := by
  have hsome := read?_isSome_iff text
  refine ⟨?_, fun v hv => ?_, fun l leading trailing rest htext hends => ?_⟩
  · rw [← Option.not_isSome_iff_eq_none, hsome]
    simp only [not_exists, not_and]
  · obtain ⟨l, rest, htext, hends⟩ := Literal.exists_endsBefore (hsome.1 (hv ▸ rfl))
    rw [Literal.read?_eq_value htext hends] at hv
    cases hv
    exact ⟨l, htext ▸ Literal.isLongest_of_endsBefore hends, l.isNearest_value⟩
  · have hplain : (String.ofList l.chars).toList = l.chars ++ [] := by rw [String.toList_ofList, List.append_nil]
    rw [Literal.read?_eq_value htext hends, Literal.value_congr (l.decimal_padded leading trailing),
      Literal.read?_eq_value hplain l.endsBefore_nil]

end Source

end Easel
