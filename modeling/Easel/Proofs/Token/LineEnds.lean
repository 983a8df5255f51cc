import Easel.Program.Parser
import Easel.Proofs.Token.Layout

/-!
# Line ends

A blank at the end of a text changes no token of it: it belongs to no lexeme but a comment, and the text of a comment
is trimmed (`Lexeme.place_split_append_blank`). A carriage return before a newline is a blank at the end of its line,
and behind the newline the columns start anew. So a text has the same tokens whichever way its lines end
(`tokenize_withReturns`).
-/

namespace Easel

namespace Text

/-- The text with a carriage return before every newline. -/
def withReturns (text : List Char) : List Char :=
  text.flatMap fun c => if c = '\n' then ['\r', '\n'] else [c]

theorem withReturns_of_not_mem {line : List Char} (h : '\n' ∉ line) : withReturns line = line := by
  have hkept : ∀ c ∈ line, (if c = '\n' then ['\r', '\n'] else [c]) = [c] :=
    fun c hc => if_neg (ne_of_mem_of_not_mem hc h)
  rw [withReturns, List.flatMap_congr hkept, List.flatMap_singleton']

theorem withReturns_append_newline {line : List Char} (h : '\n' ∉ line) (text : List Char) :
    withReturns (line ++ '\n' :: text) = line ++ ['\r'] ++ '\n' :: withReturns text := by
  have hline := withReturns_of_not_mem h
  rw [withReturns] at hline ⊢
  rw [List.flatMap_append, hline]
  simp [withReturns]

end Text

namespace Lexeme

/-! ## Blanks at the end -/

/-- A blank behind a token takes nothing from it, and becomes part of it only behind a comment that nothing else
follows. -/
theorem isWhole_append_blank {kind : TokenKind} {cs after : List Char} (h : IsWhole kind cs after) {b : Char}
    (hb : Text.isBlank b) :
    IsWhole kind cs (after ++ [b]) ∨
      kind = .comment ∧ after = [] ∧ IsWhole kind (cs ++ [b]) [] ∧ tokenText kind (cs ++ [b]) = tokenText kind cs := by
  by_cases hafter : after = []
  · subst hafter
    by_cases hkind : kind = .comment
    · subst hkind
      obtain ⟨body, rfl, hbody, -⟩ := h
      by_cases hnewline : b = '\n'
      · refine .inl ⟨body, rfl, hbody, ?_⟩
        rintro d ⟨⟩
        exact hnewline
      · have hmem : '\n' ∉ body ++ [b] := by simp [hbody, Ne.symm hnewline]
        have htrim : Text.trim (body ++ [b]) = Text.trim body :=
          Text.trim_append_of_isBlank body (List.forall_mem_singleton.2 hb)
        exact .inr ⟨rfl, rfl, ⟨body ++ [b], rfl, hmem, nofun⟩, by simp [tokenText, htrim]⟩
    · exact .inl (isWhole_cons_blank h hkind hb)
  · exact .inl (isWhole_of_head? h (List.head?_append_of_ne_nil after hafter))

/-- The induction is on the lexemes of the text: all of them stay, but the last one if that is a comment. -/
theorem place_split_append_blank {b : Char} (hb : Text.isBlank b) (p : Position) (cs : List Char) :
    place p (split (cs ++ [b])) = place p (split cs) := by
  fun_induction split cs generalizing p with
  | case1 =>
    rw [List.nil_append, split_blank hb]
    simp [split, place]
  | case2 c rest ih =>
    have hcomplete := isComplete_next c rest
    rw [← chars_append_next c rest]
    generalize next c rest = r at *
    obtain ⟨⟨kind, chars⟩, after⟩ := r
    rw [List.append_assoc]
    cases kind with
    | none =>
      obtain ⟨d, rfl, hd⟩ := hcomplete
      rw [List.singleton_append, split_cons_of_not_startsToken hd]
      exact ih _
    | some kind =>
      rcases isWhole_append_blank hcomplete hb with hwhole | ⟨rfl, rfl, hwhole, htext⟩
      · rw [split_of_isWhole hwhole]
        exact congrArg (_ :: ·) (ih _)
      · have hsplit := split_of_isWhole hwhole
        rw [List.append_nil] at hsplit
        rw [List.nil_append, hsplit, place_cons_some, place_cons_some, htext]
        simp [split, place]

/-! ## Carriage returns before newlines -/

/-- The text is taken line by line, from the first one on. -/
theorem place_split_withReturns (p : Position) (cs : List Char) :
    place p (split (Text.withReturns cs)) = place p (split cs) := by
  induction h : cs.length using Nat.strongRecOn generalizing p cs with
  | _ n ih =>
    subst h
    by_cases hnewline : '\n' ∈ cs
    · obtain ⟨line, text, rfl, hline⟩ := List.eq_append_cons_of_mem hnewline
      have hplace (line : List Char) (s : List Char) : place p (split (line ++ '\n' :: s)) =
          place p (split line) ++ place (p.advanceAll (line ++ ['\n'])) (split s) := by
        rw [split_append_newline, place_append, flatMap_split, Position.advanceAll_append]
        rfl
      have hposition : p.advanceAll (line ++ ['\r'] ++ ['\n']) = p.advanceAll (line ++ ['\n']) := by
        simp only [Position.advanceAll_append]
        rfl
      have hshorter : text.length < (line ++ '\n' :: text).length := by
        simp only [List.length_append, List.length_cons]
        omega
      rw [Text.withReturns_append_newline hline, hplace, hplace, place_split_append_blank rfl, hposition,
        ih _ hshorter _ text rfl]
    · rw [Text.withReturns_of_not_mem hnewline]

end Lexeme

/-- A text keeps its tokens, with their texts and places, when every newline in it gets a carriage return before it;
so it is the same program, or has the same error in the same place. -/
theorem tokenize_withReturns (source : String) :
    tokenize (String.ofList (Text.withReturns source.toList)) = tokenize source ∧
      Program.read (String.ofList (Text.withReturns source.toList)) = Program.read source := by
  have htokens : tokenize (String.ofList (Text.withReturns source.toList)) = tokenize source := by
    rw [tokenize, String.toList_ofList, Lexeme.place_split_withReturns]
    rfl
  exact ⟨htokens, by rw [Program.read, htokens, Program.read]⟩

end Easel
