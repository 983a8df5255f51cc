import Easel.Proofs.Program.Blame
import Easel.Proofs.Token.Lines

/-!
# Texts below each other

A text below another one is parsed as if it stood alone. Its tokens are further down, and the drafts that
they are read into have the commands of the text above before their own (`Draft.parse_behind`). The text above
leaves nothing unfinished but, maybe, a repeat whose body is missing (`Draft.endsInRepeatHead_of_awaiting`); and
if it has a bad command, that command is the first one of the whole as well (`reports_append`).

`read_append_newline`: what the two texts are together, if the first is a program or has an error that names
a token.
-/

namespace Easel

open Grammar

/-! ## Further down -/

def SyntaxError.down (n : Nat) (e : SyntaxError) : SyntaxError := { e with position := e.position.down n }

/-- The result with `f` of its value or, if it is an error, with that error `n` lines further down. -/
def mapDown {α β : Type} (n : Nat) (f : α → β) : Except SyntaxError α → Except SyntaxError β
  | .ok a => .ok (f a)
  | .error e => .error (e.down n)

namespace Phrase

variable (n : Nat) (last : Position) (tokens : List Token)

theorem unexpected_down (cause : Found → SyntaxError.Cause) :
    unexpected cause (last.down n) (tokens.map (Token.down n)) = (unexpected cause last tokens).down n := by
  cases tokens <;> rfl

theorem number_down : number (last.down n) (tokens.map (Token.down n)) = mapDown n id (number last tokens) := by
  have hnumber : Token.number? ∘ Token.down n = Token.number? := rfl
  simp only [number, List.head?_map, Option.bind_map, hnumber, unexpected_down]
  cases tokens.head?.bind Token.number? <;> rfl

theorem name_down : name (last.down n) (tokens.map (Token.down n)) = mapDown n id (name last tokens) := by
  have hname : Token.name? ∘ Token.down n = Token.name? := rfl
  simp only [name, List.head?_map, Option.bind_map, hname, unexpected_down]
  cases tokens.head?.bind Token.name? <;> rfl

theorem point_down : point (last.down n) (tokens.map (Token.down n)) = mapDown n id (point last tokens) := by
  simp only [point, ← List.map_drop, number_down]
  cases number last tokens with
  | error e => rfl
  | ok x => cases number last (tokens.drop 1) <;> rfl

/-- Tokens further down read as the same phrase. -/
theorem read_down (k : Keyword) :
    read (last.down n) (tokens.map (Token.down n)) k = mapDown n id (read last tokens k) := by
  cases k with
  | pen | paper | color | «repeat» =>
    simp only [read, number_down]
    cases number last tokens <;> rfl
  | line | rect =>
    simp only [read, ← List.map_drop, point_down]
    cases point last tokens with
    | error e => rfl
    | ok a => cases point last (tokens.drop 2) <;> rfl
  | circle =>
    simp only [read, ← List.map_drop, point_down, number_down]
    cases point last tokens with
    | error e => rfl
    | ok center => cases number last (tokens.drop 2) <;> rfl
  | set =>
    simp only [read, ← List.map_drop, name_down, number_down]
    cases name last tokens with
    | error e => rfl
    | ok v => cases number last (tokens.drop 1) <;> rfl

end Phrase

def Frame.down (n : Nat) : Frame → Frame
  | .awaiting count => .awaiting count
  | .block count brace body => .block count (brace.down n) body

namespace Draft

/-- The draft `n` lines further down and behind finished commands, latest first. -/
def behind (n : Nat) (before : List Command) (d : Draft) : Draft :=
  ⟨d.frames.map (Frame.down n), d.done ++ before⟩

variable (n : Nat) (before : List Command)

theorem complete_behind (done : List Command) (frames : List Frame) (item : Option Command) :
    complete (done ++ before) (frames.map (Frame.down n)) item = (complete done frames item).behind n before := by
  induction frames generalizing item with
  | nil => simp [complete, behind]
  | cons f frames ih =>
    cases f with
    | awaiting count => exact ih _
    | block count brace body => rfl

theorem addItem_behind (d : Draft) (item : Option Command) :
    (d.behind n before).addItem item = (d.addItem item).behind n before :=
  complete_behind n before d.done d.frames item

theorem addPhrase_behind (d : Draft) (phrase : Phrase) :
    (d.behind n before).addPhrase phrase = (d.addPhrase phrase).behind n before := by
  cases phrase with
  | command c => exact addItem_behind n before d (some c)
  | repeatHead count => rfl

theorem addOther_behind (d : Draft) (t : Token) :
    (d.behind n before).addOther (t.down n) = (d.addOther t).behind n before := by
  have hoperator (op : Char) : (t.down n).isOperator op = t.isOperator op := rfl
  have hitem := addItem_behind n before d none
  obtain ⟨frames, done⟩ := d
  cases frames with
  | nil => exact hitem
  | cons f frames =>
    cases f with
    | awaiting count =>
      simp only [addOther, behind, List.map_cons, Frame.down, hoperator]
      split
      · rfl
      · exact hitem
    | block count brace body =>
      simp only [addOther, behind, List.map_cons, Frame.down, hoperator]
      split
      · exact complete_behind n before done frames _
      · exact hitem

theorem finish_behind (d : Draft) : (d.behind n before).finish = mapDown n (before.reverse ++ ·) d.finish := by
  -- A draft that awaits no body has no items left to complete.
  have hsettled (d : Draft) (h : ∀ count frames, d.frames ≠ .awaiting count :: frames) :
      (d.behind n before).finish = mapDown n (before.reverse ++ ·) d.finish := by
    obtain ⟨frames, done⟩ := d
    cases frames with
    | nil => simp [finish, behind, mapDown]
    | cons f frames =>
      cases f with
      | awaiting count => exact absurd rfl (h count frames)
      | block count brace body => rfl
  obtain ⟨frames, done⟩ := d
  cases frames with
  | nil => exact hsettled _ nofun
  | cons f frames =>
    cases f with
    | block count brace body => exact hsettled _ nofun
    | awaiting count =>
      have hcomplete := complete_behind n before done frames (some (.repeat count []))
      rw [finish_awaiting, ← hsettled _ (frames_complete_ne_awaiting done frames _), ← hcomplete]
      exact finish_awaiting count (frames.map (Frame.down n)) (done ++ before)

/-- Tokens further down are parsed as they are, behind any commands. -/
theorem parse_behind (last : Position) (d : Draft) (tokens : List Token) :
    parse (last.down n) (d.behind n before) (tokens.map (Token.down n)) =
      mapDown n (before.reverse ++ ·) (parse last d tokens) := by
  induction d, tokens using extend.induct last with
  | case1 d => rw [List.map_nil, parse_nil, parse_nil, finish_behind]
  | case2 d t rest hk hw =>
    have hk' : (t.down n).kind = .command := hk
    have hw' : Keyword.ofWord? (t.down n).text = none := hw
    rw [List.map_cons, parse_unknown hk' hw', parse_unknown hk hw]
    rfl
  | case3 d t rest hk w hw e hread =>
    have hkey : IsKeyword t w := ⟨hk, (Keyword.ofWord?_eq_some_iff _ w).1 hw⟩
    have hkey' : IsKeyword (t.down n) w := hkey
    have hread' := Phrase.read_down n last rest w
    rw [hread] at hread'
    rw [List.map_cons, parse_refused hkey' hread', parse_refused hkey hread]
    rfl
  | case4 d t rest hk w hw phrase hread ih =>
    have hkey : IsKeyword t w := ⟨hk, (Keyword.ofWord?_eq_some_iff _ w).1 hw⟩
    have hkey' : IsKeyword (t.down n) w := hkey
    have hread' := Phrase.read_down n last rest w
    rw [hread] at hread'
    rw [List.map_cons, parse_phrase hkey' hread', parse_phrase hkey hread, id, addPhrase_behind, ← List.map_drop, ih]
  | case5 d t rest hk ih =>
    have hk' : (t.down n).kind ≠ .command := hk
    rw [List.map_cons, parse_other hk', parse_other hk, addOther_behind, ih]

end Draft

/-! ## The text above -/

/-- Tokens that read as a phrase read as the same one whatever follows them. -/
theorem Phrase.read_append {last : Position} {tokens : List Token} {k : Keyword} {phrase : Phrase}
    (h : read last tokens k = .ok phrase) (last' : Position) (more : List Token) :
    read last' (tokens ++ more) k = .ok phrase ∧ arity k ≤ tokens.length := by
  cases phrase with
  | command c =>
    obtain ⟨arguments, rest, rfl, ha⟩ := read_eq_command_iff.1 h
    refine ⟨read_eq_command_iff.2 ⟨arguments, rest ++ more, List.append_assoc _ _ _, ha⟩, ?_⟩
    rw [arity_eq_length ha, List.length_append]
    exact Nat.le_add_right _ _
  | repeatHead count =>
    obtain ⟨rfl, t, rest, rfl, ht⟩ := read_eq_repeatHead_iff.1 h
    exact ⟨read_eq_repeatHead_iff.2 ⟨rfl, t, rest ++ more, rfl, ht⟩, Nat.succ_le_succ (Nat.zero_le _)⟩

/-- The tokens end in a repeat that has its count and no body. -/
def EndsInRepeatHead (tokens : List Token) : Prop :=
  ∃ before t u, tokens = before ++ [t, u] ∧ IsKeyword t .repeat ∧ u.kind = .number

namespace Draft

/-- What tokens are read as does not depend on what follows them. -/
theorem parse_append {last last' : Position} {d d' : Draft} {tokens : List Token}
    (h : extend last d tokens = .ok d') (more : List Token) :
    parse last' d (tokens ++ more) = parse last' d' more := by
  fun_induction extend last d tokens with
  | case1 d =>
    cases h
    rfl
  | case2 | case3 => cases h
  | case4 d t rest hk w hw phrase hread ih =>
    have hkey : IsKeyword t w := ⟨hk, (Keyword.ofWord?_eq_some_iff _ w).1 hw⟩
    obtain ⟨hread', harity⟩ := Phrase.read_append hread last' more
    rw [List.cons_append, parse_phrase hkey hread', List.drop_append_of_le_length harity, ih h]
  | case5 d t rest hk ih => rw [List.cons_append, parse_other hk, ih h]

theorem frames_addOther_ne_awaiting (d : Draft) (t : Token) (count : Float) (frames : List Frame) :
    (d.addOther t).frames ≠ .awaiting count :: frames := by
  have hitem := frames_complete_ne_awaiting d.done d.frames none count frames
  obtain ⟨outer, done⟩ := d
  cases outer with
  | nil => exact hitem
  | cons f outer =>
    cases f with
    | awaiting n =>
      simp only [addOther]
      split
      · intro h
        cases h
      · exact hitem
    | block n brace body =>
      simp only [addOther]
      split
      · exact frames_complete_ne_awaiting _ _ _ _ _
      · exact hitem

/-- A repeat awaits its body only if the tokens end in its head. -/
theorem endsInRepeatHead_of_awaiting {last : Position} {d d' : Draft} {tokens : List Token} {count : Float}
    {frames : List Frame} (h : extend last d tokens = .ok d') (hd' : d'.frames = .awaiting count :: frames)
    (hne : tokens ≠ []) : EndsInRepeatHead tokens := by
  fun_induction extend last d tokens with
  | case1 => exact absurd rfl hne
  | case2 | case3 => cases h
  | case4 d t rest hk w hw phrase hread ih =>
    -- Only the last phrase counts: a repeat before it has its body in what follows.
    by_cases hrest : rest.drop (Phrase.arity w) = []
    · rw [hrest, extend] at h
      cases h
      cases phrase with
      | command c => exact absurd hd' (frames_complete_ne_awaiting _ _ _ _ _)
      | repeatHead n =>
        obtain ⟨rfl, u, us, rfl, hu⟩ := Phrase.read_eq_repeatHead_iff.1 hread
        obtain rfl : us = [] := hrest
        exact ⟨[], t, u, rfl, ⟨hk, (Keyword.ofWord?_eq_some_iff _ _).1 hw⟩, hu.1⟩
    · obtain ⟨before, u, v, hbefore, hends⟩ := ih h hrest
      refine ⟨t :: (rest.take (Phrase.arity w) ++ before), u, v, ?_, hends⟩
      rw [List.cons_append, List.append_assoc, ← hbefore, List.take_append_drop]
  | case5 d t rest hk ih =>
    by_cases hrest : rest = []
    · subst hrest
      rw [extend] at h
      cases h
      exact absurd hd' (frames_addOther_ne_awaiting _ _ _ _)
    · obtain ⟨before, u, v, rfl, hends⟩ := ih h hrest
      exact ⟨t :: before, u, v, rfl, hends⟩

/-- A draft that finishes and awaits nothing has no frames. -/
theorem eq_of_finish_eq_ok {d : Draft} {p : Program} (h : d.finish = .ok p)
    (hd : ∀ count frames, d.frames ≠ .awaiting count :: frames) : d = ⟨[], p.reverse⟩ := by
  obtain ⟨frames, done⟩ := d
  cases frames with
  | nil =>
    obtain rfl : done.reverse = p := Except.ok.inj h
    rw [List.reverse_reverse]
  | cons f frames =>
    cases f with
    | awaiting count => exact absurd rfl (hd count frames)
    | block count brace body => cases h

end Draft

/-! ## The first bad command of the text above -/

/-- The error says which token was found. -/
def SyntaxError.NamesToken (e : SyntaxError) : Prop :=
  match e.cause with
  | .unknownCommand _ | .expectedNumber (.token _) | .expectedIdentifier (.token _) => True
  | .expectedNumber .endOfInput | .expectedIdentifier .endOfInput | .unterminatedBlock => False

section
variable {tokens : List Token}

namespace Slot

theorem fitsAt_append {slot : Slot} {n : Nat} (hn : n < tokens.length) (more : List Token) :
    slot.FitsAt (tokens ++ more) n ↔ slot.FitsAt tokens n := by
  rw [FitsAt, FitsAt, List.getElem?_append_left hn]

theorem filled_append {slots : List Slot} {n : Nat} (h : Filled slots tokens n) (more : List Token) :
    Filled slots (tokens ++ more) n := by
  intro j slot hslot
  obtain ⟨t, ht, hfits⟩ := h j slot hslot
  exact ⟨t, by rw [List.getElem?_append_left (List.getElem?_eq_some_iff.1 ht).1, ht], hfits⟩

/-- An error that names a token is about a place before the end. -/
theorem lt_length_of_namesToken {slot : Slot} {n : Nat} (h : (slot.error tokens n).NamesToken) : n < tokens.length := by
  unfold Slot.error at h
  cases ht : tokens[n]? with
  | some t => exact (List.getElem?_eq_some_iff.1 ht).1
  | none =>
    rw [ht] at h
    cases slot <;> exact h.elim

theorem firstUnfilled_append {slots : List Slot} {n j : Nat} {slot : Slot} (h : FirstUnfilled slots tokens n j slot)
    (hlt : n + j < tokens.length) (more : List Token) : FirstUnfilled slots (tokens ++ more) n j slot where
  getElem_eq := h.getElem_eq
  not_fitsAt := by
    rw [fitsAt_append hlt]
    exact h.not_fitsAt
  filled_take := filled_append h.filled_take more

end Slot

theorem isBad_of_append {more : List Token} {i : Nat} (hi : i < tokens.length) (h : IsBad (tokens ++ more) i) :
    IsBad tokens i := by
  obtain ⟨t, ht, hk, hbad⟩ := h
  rw [List.getElem?_append_left hi] at ht
  refine ⟨t, ht, hk, ?_⟩
  rcases hbad with hnone | ⟨w, hw, hnot⟩
  · exact .inl hnone
  · exact .inr ⟨w, hw, fun hfilled => hnot (Slot.filled_append hfilled more)⟩

/-- A command that is blamed for a token is blamed for it whatever follows. -/
theorem reports_append {k : Nat} {e : SyntaxError} (h : Reports tokens k e) (he : e.NamesToken) (more : List Token) :
    Reports (tokens ++ more) k e := by
  have happend {k : Nat} {t : Token} (ht : tokens[k]? = some t) : (tokens ++ more)[k]? = some t := by
    rw [List.getElem?_append_left (List.getElem?_eq_some_iff.1 ht).1, ht]
  cases h with
  | unknown ht hk hw => exact .unknown (happend ht) hk hw
  | @unfilled t w j slot ht hw hslot =>
    have hlt := Slot.lt_length_of_namesToken he
    have herror : slot.error tokens (k + 1 + j) = slot.error (tokens ++ more) (k + 1 + j) := by
      rw [Slot.error, Slot.error, List.getElem?_append_left hlt, List.getElem?_eq_getElem hlt]
    rw [herror]
    exact .unfilled (happend ht) hw (Slot.firstUnfilled_append hslot hlt more)

/-- If the error names a token it is the error of the tokens whatever follows them. -/
theorem Draft.parse_append_of_namesToken {d : Draft} {e : SyntaxError}
    (h : parse (Program.lastPosition tokens) d tokens = .error e) (he : e.NamesToken) (more : List Token) :
    parse (Program.lastPosition (tokens ++ more)) d (tokens ++ more) = .error e := by
  have hcause : e.cause ≠ .unterminatedBlock := by
    intro hcause
    rw [SyntaxError.NamesToken, hcause] at he
    exact he
  obtain ⟨k, hreports, hfirst⟩ := (parse_eq_error_iff d tokens e).1 ⟨h, hcause⟩
  have hlt : k < tokens.length := by
    obtain ⟨t, ht, -⟩ := isBad_of_reports hreports
    exact (List.getElem?_eq_some_iff.1 ht).1
  refine ((parse_eq_error_iff d (tokens ++ more) e).2 ⟨k, reports_append hreports he more, ?_⟩).1
  intro i hi hbad
  exact hfirst i hi (isBad_of_append (Nat.lt_trans hi hlt) hbad)

end

/-! ## Texts -/

theorem filter_tokenize_append_newline (a b : String) :
    (tokenize (a ++ "\n" ++ b)).filter Token.isGrammatical =
      (tokenize a).filter Token.isGrammatical ++
        ((tokenize b).filter Token.isGrammatical).map (Token.down (1 + a.toList.count '\n')) := by
  have hchars : (a ++ "\n" ++ b).toList = a.toList ++ '\n' :: b.toList := by simp
  have hgrammatical (n : Nat) : Token.isGrammatical ∘ Token.down n = Token.isGrammatical := rfl
  rw [tokenize, hchars, Lexeme.place_append_newline, List.filter_append, List.filter_map, hgrammatical]
  rfl

theorem lastPosition_append_map_down (above : List Token) {tokens : List Token} (h : tokens ≠ []) (n : Nat) :
    Program.lastPosition (above ++ tokens.map (Token.down n)) = (Program.lastPosition tokens).down n := by
  obtain ⟨t, ht⟩ := Option.ne_none_iff_exists'.1 (mt List.getLast?_eq_none_iff.1 h)
  simp [Program.lastPosition, List.getLast?_append, List.getLast?_map, ht, Token.down]

/-- Behind the tokens of a program, tokens further down are parsed as they would be alone. -/
theorem Draft.parse_append_map_down {last : Position} {above : List Token} {p : Program}
    (h : parse last ⟨[], []⟩ above = .ok p) (hends : ¬ EndsInRepeatHead above) (n : Nat) (tokens : List Token) :
    parse (Program.lastPosition (above ++ tokens.map (Token.down n))) ⟨[], []⟩ (above ++ tokens.map (Token.down n)) =
      mapDown n (p ++ ·) (parse (Program.lastPosition tokens) ⟨[], []⟩ tokens) := by
  obtain ⟨d, hextend, hfinish⟩ := bind_eq_ok_iff.1 h
  have hd : d = ⟨[], p.reverse⟩ := by
    refine eq_of_finish_eq_ok hfinish ?_
    intro count frames hawaiting
    by_cases hne : above = []
    · subst hne
      rw [extend] at hextend
      cases hextend
      cases hawaiting
    · exact hends (endsInRepeatHead_of_awaiting hextend hawaiting hne)
  have hbehind := parse_behind n p.reverse (Program.lastPosition tokens) ⟨[], []⟩ tokens
  rw [List.reverse_reverse] at hbehind
  rw [parse_append hextend, hd, ← hbehind]
  by_cases hne : tokens = []
  · subst hne
    rw [List.map_nil, parse_nil, parse_nil]
    rfl
  · rw [lastPosition_append_map_down above hne]
    rfl

theorem read_eq_parse (source : String) :
    Program.read source = Draft.parse (Program.lastPosition ((tokenize source).filter Token.isGrammatical)) ⟨[], []⟩
      ((tokenize source).filter Token.isGrammatical) := rfl

/-- Two texts with a newline between them. If the first is a program, and no repeat at its end is without a
body, then the whole is the first program and the second if the second text is one, and has the error of the
second text further down if not. If the first has an error that names a token, then so has the whole. -/
theorem read_append_newline (a b : String) :
    (∀ p, Program.read a = .ok p → ¬ EndsInRepeatHead ((tokenize a).filter Token.isGrammatical) →
      (∀ q, Program.read b = .ok q → Program.read (a ++ "\n" ++ b) = .ok (p ++ q)) ∧
      (∀ e, Program.read b = .error e →
        Program.read (a ++ "\n" ++ b) = .error (e.down (1 + a.toList.count '\n')))) ∧
    (∀ e, Program.read a = .error e → e.NamesToken → Program.read (a ++ "\n" ++ b) = .error e) := by
  have happend := filter_tokenize_append_newline a b
  constructor
  · intro p hp hends
    have hboth : Program.read (a ++ "\n" ++ b) = mapDown (1 + a.toList.count '\n') (p ++ ·) (Program.read b) := by
      rw [read_eq_parse (a ++ "\n" ++ b), happend]
      exact Draft.parse_append_map_down hp hends _ _
    constructor
    · intro q hq
      rw [hboth, hq]
      rfl
    · intro e he
      rw [hboth, he]
      rfl
  · intro e he hnames
    rw [read_eq_parse, happend]
    exact Draft.parse_append_of_namesToken he hnames _

/-- A program above another one, a program above a command without arguments, and a bad command above a
program. -/
theorem read_append_newline_pen : ∃ size,
    Program.read "pen 1" = .ok [.draw (.pen size)] ∧
    Program.read ("pen 1" ++ "\n" ++ "pen 1") = .ok [.draw (.pen size), .draw (.pen size)] ∧
    Program.read ("pen 1" ++ "\n" ++ "line") = .error ⟨.expectedNumber .endOfInput, ⟨2, 0⟩⟩ ∧
    Program.read ("set (" ++ "\n" ++ "pen 1") = .error ⟨.expectedIdentifier (.token "("), ⟨1, 4⟩⟩ := by
  have htokens : (tokenize "pen 1").filter Token.isGrammatical =
      [⟨.command, "pen", ⟨1, 0⟩⟩, ⟨.number, "1", ⟨1, 4⟩⟩] := by decide +kernel
  obtain ⟨size, hsize⟩ := Option.isSome_iff_exists.1 ((Number.read?_isSome_iff "1").2 ⟨'1', rfl, rfl⟩)
  have hpen : Program.read "pen 1" = .ok [.draw (.pen size)] := by
    rw [read_eq_parse, htokens]
    exact Draft.parse_items (.cons (.command ⟨rfl, by decide +kernel⟩ (.pen ⟨rfl, ⟨'1', rfl, rfl⟩, hsize⟩)) .nil) []
  have hends : ¬ EndsInRepeatHead ((tokenize "pen 1").filter Token.isGrammatical) := by
    rw [htokens]
    rintro ⟨before, t, u, htu, ⟨-, ht⟩, -⟩
    cases (List.append_inj' (show [] ++ [_, _] = before ++ [t, u] from htu) rfl).2
    exact absurd ht (by decide +kernel)
  have hline : Program.read "line" = .error ⟨.expectedNumber .endOfInput, ⟨1, 0⟩⟩ := by
    have htokens : (tokenize "line").filter Token.isGrammatical = [⟨.command, "line", ⟨1, 0⟩⟩] := by decide +kernel
    rw [read_eq_parse, htokens]
    exact Draft.parse_refused (k := .line) ⟨rfl, by decide +kernel⟩ rfl
  have hset : Program.read "set (" = .error ⟨.expectedIdentifier (.token "("), ⟨1, 4⟩⟩ := by
    have htokens : (tokenize "set (").filter Token.isGrammatical =
        [⟨.command, "set", ⟨1, 0⟩⟩, ⟨.operator, "(", ⟨1, 4⟩⟩] := by decide +kernel
    rw [read_eq_parse, htokens]
    exact Draft.parse_refused (k := .set) ⟨rfl, by decide +kernel⟩ rfl
  have habove := (read_append_newline "pen 1" "pen 1").1 _ hpen hends
  exact ⟨size, hpen, habove.1 _ hpen, ((read_append_newline "pen 1" "line").1 _ hpen hends).2 _ hline,
    (read_append_newline "set (" "pen 1").2 _ hset trivial⟩

end Easel
