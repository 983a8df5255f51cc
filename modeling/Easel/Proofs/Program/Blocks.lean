import Easel.Proofs.Program.Concatenation
import Mathlib.Data.List.Infix

/-!
# Blocks and their braces

A block without end is an open brace in the draft at the end of the input (`Draft.parse_eq_unterminatedBlock_iff`).
What braces a draft has open goes back to the tokens that were read into it (`ReadFrom`): each of them stands
right behind the head of a repeat, and there are no more of them than the tokens have braces to close. A closing
brace closes the innermost block, but right behind the head of a repeat it is an item like any other, and the
whole body; braces that are closed in the text may then be open in the draft.

`unterminatedBlock_iff_closable`: closing braces at the end of the tokens repair a block without end, and no other
error. `parse_ne_unterminatedBlock_of_balanced`: tokens with balanced braces have no block without end, if no
repeat has a closing brace for its body; `repeat 2 { repeat 3 }` has one (`unterminatedBlock_of_balanced`).
-/

namespace Easel

open Grammar

/-! ## Open braces of a draft -/

/-- The place of the brace of a block. -/
def Frame.brace? : Frame → Option Position
  | .awaiting _ => none
  | .block _ brace _ => some brace

def Token.opens (t : Token) : Bool := t.isOperator '\x7b'

def Token.closes (t : Token) : Bool := t.isOperator '\x7d'

theorem Token.closes_eq_false_of_kind_ne {t : Token} (h : t.kind ≠ .operator) : t.closes = false := by
  simp [Token.closes, Token.isOperator, h]

theorem Token.opens_eq_false_of_closes {t : Token} (h : t.closes) : t.opens = false := by
  simp only [Token.closes, Token.isOperator, Bool.and_eq_true, beq_iff_eq] at h
  simp [Token.opens, Token.isOperator, h.2]

/-- No brace is taken for an argument. -/
theorem Phrase.kind_ne_operator_of_read {last : Position} {tokens : List Token} {k : Keyword} {phrase : Phrase}
    (h : read last tokens k = .ok phrase) : ∀ t ∈ tokens.take (arity k), t.kind ≠ .operator := by
  cases phrase with
  | command c =>
    obtain ⟨arguments, rest, rfl, ha⟩ := read_eq_command_iff.1 h
    rw [arity_eq_length ha, List.take_left]
    intro t ht
    rcases kind_of_arguments ha t ht with hk | hk <;> simp [hk]
  | repeatHead count =>
    obtain ⟨rfl, t, rest, rfl, ht⟩ := read_eq_repeatHead_iff.1 h
    simp [arity, ht.1]

namespace Draft

/-- The draft awaits the body of its innermost repeat. -/
def Awaiting (d : Draft) : Prop := ∃ count frames, d.frames = .awaiting count :: frames

/-- The places of the braces that no brace has closed yet, innermost first. -/
def openBraces (d : Draft) : List Position := d.frames.filterMap Frame.brace?

theorem openBraces_complete (done : List Command) (frames : List Frame) (item : Option Command) :
    (complete done frames item).openBraces = frames.filterMap Frame.brace? := by
  induction frames generalizing item with
  | nil => rfl
  | cons f frames ih =>
    cases f with
    | awaiting count => exact ih _
    | block count brace body => rfl

theorem openBraces_addItem (d : Draft) (item : Option Command) : (d.addItem item).openBraces = d.openBraces :=
  openBraces_complete d.done d.frames item

theorem openBraces_addPhrase (d : Draft) (phrase : Phrase) : (d.addPhrase phrase).openBraces = d.openBraces := by
  cases phrase with
  | command c => exact openBraces_addItem d (some c)
  | repeatHead count => rfl

/-- A token that is no command opens a block where a body is awaited, closes one where none is, or leaves the open
braces as they are. -/
theorem openBraces_addOther (d : Draft) (t : Token) :
    (t.opens ∧ d.Awaiting ∧ (d.addOther t).openBraces = t.position :: d.openBraces) ∨
    (t.closes ∧ (d.addOther t).openBraces = d.openBraces.tail) ∨
    ((t.closes → d.Awaiting) ∧ (d.addOther t).openBraces = d.openBraces) := by
  have hitem := openBraces_addItem d none
  obtain ⟨frames, done⟩ := d
  cases frames with
  | nil =>
    by_cases ht : t.closes
    · exact .inr (.inl ⟨ht, hitem⟩)
    · exact .inr (.inr ⟨fun h => absurd h ht, hitem⟩)
  | cons f frames =>
    cases f with
    | awaiting count =>
      have hawaiting : Awaiting ⟨.awaiting count :: frames, done⟩ := ⟨count, frames, rfl⟩
      by_cases ht : t.opens
      · refine .inl ⟨ht, hawaiting, ?_⟩
        simp only [addOther, if_pos (show t.isOperator '\x7b' from ht)]
        rfl
      · refine .inr (.inr ⟨fun _ => hawaiting, ?_⟩)
        simp only [addOther, if_neg (show ¬ t.isOperator '\x7b' from ht)]
        exact hitem
    | block count brace body =>
      by_cases ht : t.closes
      · refine .inr (.inl ⟨ht, ?_⟩)
        simp only [addOther, if_pos (show t.isOperator '\x7d' from ht)]
        exact openBraces_complete done frames _
      · refine .inr (.inr ⟨fun h => absurd h ht, ?_⟩)
        simp only [addOther, if_neg (show ¬ t.isOperator '\x7d' from ht)]
        exact hitem

theorem finish_eq_error_iff (d : Draft) (e : SyntaxError) :
    d.finish = .error e ↔ ∃ brace, d.openBraces.head? = some brace ∧ e = ⟨.unterminatedBlock, brace⟩ := by
  -- A draft that awaits no body is finished as it is.
  have hsettled (d : Draft) (h : ¬ d.Awaiting) :
      d.finish = .error e ↔ ∃ brace, d.openBraces.head? = some brace ∧ e = ⟨.unterminatedBlock, brace⟩ := by
    obtain ⟨frames, done⟩ := d
    cases frames with
    | nil => simp [finish, openBraces]
    | cons f frames =>
      cases f with
      | awaiting count => exact absurd ⟨count, frames, rfl⟩ h
      | block count brace body => simp [finish, openBraces, Frame.brace?, eq_comm]
  by_cases hd : d.Awaiting
  · obtain ⟨frames, done⟩ := d
    obtain ⟨count, frames, rfl⟩ := hd
    have hcomplete := openBraces_complete done frames (some (.repeat count []))
    rw [finish_awaiting, hsettled, hcomplete]
    · rfl
    · rintro ⟨n, outer, h⟩
      exact frames_complete_ne_awaiting done frames _ n outer h
  · exact hsettled d hd

/-- Reading stops at a bad command, and a block without end is found only behind the last token. -/
theorem parse_eq_unterminatedBlock_iff (d : Draft) (tokens : List Token) (brace : Position) :
    parse (Program.lastPosition tokens) d tokens = .error ⟨.unterminatedBlock, brace⟩ ↔
      ∃ d', extend (Program.lastPosition tokens) d tokens = .ok d' ∧ d'.openBraces.head? = some brace := by
  have hscan := extend_reportsFirst (Program.lastPosition tokens) d tokens fun _ => rfl
  rw [parse]
  cases hextend : extend (Program.lastPosition tokens) d tokens with
  | error e =>
    rw [hextend] at hscan
    obtain ⟨k, hreports, -⟩ := reports_of_reportsFirst hscan
    have hcause := cause_ne_of_reports hreports
    constructor
    · intro h
      cases Except.error.inj h
      exact absurd rfl hcause
    · rintro ⟨d', h, -⟩
      cases h
  | ok d' =>
    have hfinish := finish_eq_error_iff d' ⟨.unterminatedBlock, brace⟩
    simpa [bind, Except.bind] using hfinish

end Draft

/-! ## Braces and what was read -/

/-- No part of the tokens up to some place closes more braces than it opens. -/
def NeverOvercloses (tokens : List Token) : Prop :=
  ∀ before, before <+: tokens → before.countP Token.closes ≤ before.countP Token.opens

/-- The braces of the tokens are balanced. -/
def Balanced (tokens : List Token) : Prop :=
  NeverOvercloses tokens ∧ tokens.countP Token.opens = tokens.countP Token.closes

instance (tokens : List Token) : Decidable (NeverOvercloses tokens) :=
  decidable_of_iff (∀ before ∈ tokens.inits, before.countP Token.closes ≤ before.countP Token.opens)
    (by simp only [List.mem_inits, NeverOvercloses])

instance (tokens : List Token) : Decidable (Balanced tokens) := inferInstanceAs (Decidable (_ ∧ _))

/-- The operator `op` stands at a place right behind the head of a repeat. -/
def StandsAtBody (op : Char) (tokens : List Token) (p : Position) : Prop :=
  ∃ before t after, tokens = before ++ t :: after ∧ EndsInRepeatHead before ∧ t.isOperator op ∧ t.position = p

theorem NeverOvercloses.of_append {tokens more : List Token} (h : NeverOvercloses (tokens ++ more)) :
    NeverOvercloses tokens :=
  fun before hbefore => h before (hbefore.trans (List.prefix_append tokens more))

theorem StandsAtBody.append {op : Char} {tokens : List Token} {p : Position} (h : StandsAtBody op tokens p)
    (more : List Token) : StandsAtBody op (tokens ++ more) p := by
  obtain ⟨before, t, after, rfl, hrest⟩ := h
  exact ⟨before, t, after ++ more, by simp, hrest⟩

/-- A number that an operator follows can be seen on two tokens at a time. -/
theorem StandsAtBody.exists_mem_zip {op : Char} {tokens : List Token} {p : Position} (h : StandsAtBody op tokens p) :
    ∃ pair ∈ tokens.zip tokens.tail, pair.1.kind = .number ∧ pair.2.isOperator op := by
  obtain ⟨_, t, after, rfl, ⟨before, u, v, rfl, -, hv⟩, ht, -⟩ := h
  have hat : (before ++ [u, v] ++ t :: after)[before.length + 1]? = some v := by simp
  have hnext : (before ++ [u, v] ++ t :: after)[before.length + 2]? = some t := by simp
  refine ⟨(v, t), List.mem_of_getElem? (List.getElem?_zip_eq_some.2 ⟨hat, ?_⟩), hv, ht⟩
  rw [List.getElem?_tail, hnext]

/-- Blanks and comments have no braces. -/
theorem Balanced.filter {tokens : List Token} (h : Balanced tokens) :
    Balanced (tokens.filter Token.isGrammatical) := by
  have hcount {op : Char} (ts : List Token) :
      (ts.filter Token.isGrammatical).countP (·.isOperator op) = ts.countP (·.isOperator op) := by
    rw [List.countP_filter]
    refine List.countP_congr fun t _ => ?_
    cases hk : t.kind <;> simp [Token.isGrammatical, Token.isOperator, hk]
  refine ⟨?_, (hcount _).trans (h.2.trans (hcount _).symm)⟩
  intro before hbefore
  obtain ⟨before', hbefore', rfl⟩ := List.prefix_filter_iff.1 hbefore
  exact (hcount _).trans_le ((h.1 before' hbefore').trans_eq (hcount _).symm)

/-- The draft agrees with the tokens that were read into it: it awaits a body only right behind the head of a repeat,
and only braces there are open. If no closing brace is taken for a body, the braces that are open in the draft
are open in the tokens. -/
structure ReadFrom (read : List Token) (d : Draft) : Prop where
  endsInRepeatHead : d.Awaiting → EndsInRepeatHead read
  standsAtBody : ∀ p ∈ d.openBraces, StandsAtBody '\x7b' read p
  count_le : NeverOvercloses read → (∀ p, ¬ StandsAtBody '\x7d' read p) →
    d.openBraces.length + read.countP Token.closes ≤ read.countP Token.opens

namespace ReadFrom

variable {read : List Token} {d d' : Draft}

theorem nil : ReadFrom [] ⟨[], []⟩ where
  endsInRepeatHead := by
    rintro ⟨_, _, h⟩
    cases h
  standsAtBody := nofun
  count_le _ _ := Nat.le_refl 0

theorem addPhrase (h : ReadFrom read d) {last : Position} {t : Token} {rest : List Token} {k : Keyword}
    {phrase : Phrase} (hk : IsKeyword t k) (hread : Phrase.read last rest k = .ok phrase) :
    ReadFrom (read ++ t :: rest.take (Phrase.arity k)) (d.addPhrase phrase) := by
  have hbraces := Draft.openBraces_addPhrase d phrase
  constructor
  · rintro ⟨count, frames, hframes⟩
    cases phrase with
    | command c => exact absurd hframes (Draft.frames_complete_ne_awaiting _ _ _ _ _)
    | repeatHead n =>
      obtain ⟨rfl, u, us, rfl, hu⟩ := Phrase.read_eq_repeatHead_iff.1 hread
      exact ⟨read, t, u, rfl, hk, hu.1⟩
  · intro p hp
    rw [hbraces] at hp
    exact (h.standsAtBody p hp).append _
  · intro hnever hbody
    have hle := h.count_le hnever.of_append fun p hp => hbody p (hp.append _)
    have hkind : ∀ a ∈ t :: rest.take (Phrase.arity k), a.kind ≠ .operator := by
      refine List.forall_mem_cons.2 ⟨by simp [hk.1], ?_⟩
      exact Phrase.kind_ne_operator_of_read hread
    have hcloses : (t :: rest.take (Phrase.arity k)).countP Token.closes = 0 :=
      List.countP_eq_zero.2 fun a ha => by simp [Token.closes_eq_false_of_kind_ne (hkind a ha)]
    rw [hbraces, List.countP_append, List.countP_append, hcloses]
    omega

theorem addOther (h : ReadFrom read d) (t : Token) : ReadFrom (read ++ [t]) (d.addOther t) := by
  have hat {op : Char} (ht : t.isOperator op) (hd : d.Awaiting) : StandsAtBody op (read ++ [t]) t.position :=
    ⟨read, t, [], rfl, h.endsInRepeatHead hd, ht, rfl⟩
  have hcases := Draft.openBraces_addOther d t
  constructor
  · rintro ⟨count, frames, hframes⟩
    exact absurd hframes (Draft.frames_addOther_ne_awaiting d t count frames)
  · intro p hp
    rcases hcases with ⟨ht, hd, hbraces⟩ | ⟨-, hbraces⟩ | ⟨-, hbraces⟩ <;> rw [hbraces] at hp
    · rcases List.mem_cons.1 hp with rfl | hp
      · exact hat ht hd
      · exact (h.standsAtBody p hp).append _
    · exact (h.standsAtBody p (List.mem_of_mem_tail hp)).append _
    · exact (h.standsAtBody p hp).append _
  · intro hnever hbody
    have hle := h.count_le hnever.of_append fun p hp => hbody p (hp.append _)
    have hdepth := hnever _ (List.prefix_refl _)
    rw [List.countP_append, List.countP_append, List.countP_singleton, List.countP_singleton] at hdepth ⊢
    rcases hcases with ⟨ht, -, hbraces⟩ | ⟨ht, hbraces⟩ | ⟨ht, hbraces⟩ <;> rw [hbraces]
    · have hcloses : t.closes = false := by
        by_contra hc
        rw [Token.opens_eq_false_of_closes (by simpa using hc)] at ht
        cases ht
      simp only [ht, hcloses, List.length_cons, if_true, Bool.false_eq_true, if_false]
      omega
    · -- At the top level there is nothing to close, and the brace is one that the tokens had open.
      simp only [ht, Token.opens_eq_false_of_closes ht, List.length_tail, if_true, Bool.false_eq_true,
        if_false] at hdepth ⊢
      omega
    · have hcloses : t.closes = false := by
        by_contra hc
        have hc' : t.closes := by simpa using hc
        exact hbody t.position (hat hc' (ht hc'))
      simp only [hcloses, Bool.false_eq_true, if_false]
      omega

/-- What was read before and what is read now are what the draft agrees with in the end. -/
theorem extend (h : ReadFrom read d) {last : Position} {tokens : List Token}
    (hextend : Draft.extend last d tokens = .ok d') : ReadFrom (read ++ tokens) d' := by
  fun_induction Draft.extend last d tokens generalizing read with
  | case1 d =>
    cases hextend
    rwa [List.append_nil]
  | case2 | case3 => cases hextend
  | case4 d t rest hk w hw phrase hread ih =>
    have hkey : IsKeyword t w := ⟨hk, (Keyword.ofWord?_eq_some_iff _ w).1 hw⟩
    have := ih (h.addPhrase hkey hread) hextend
    rwa [List.append_assoc, List.cons_append, List.take_append_drop] at this
  | case5 d t rest hk ih =>
    have := ih (h.addOther t) hextend
    rwa [List.append_assoc, List.singleton_append] at this

end ReadFrom

/-! ## Closing braces at the end -/

/-- A brace that closes a block. -/
def Token.closing (p : Position) : Token := ⟨.operator, "\x7d", p⟩

/-- Closing braces, each at a place of its own. -/
def closers (places : Nat → Position) (k : Nat) : List Token := (List.range k).map fun i => Token.closing (places i)

theorem closes_of_mem_closers {places : Nat → Position} {k : Nat} : ∀ t ∈ closers places k, t.closes := by
  simp [closers, Token.closing, Token.closes, Token.isOperator]

theorem length_closers (places : Nat → Position) (k : Nat) : (closers places k).length = k := by
  simp [closers]

namespace Draft

theorem length_frames_complete_le (done : List Command) (frames : List Frame) (item : Option Command) :
    (complete done frames item).frames.length ≤ frames.length := by
  induction frames generalizing item with
  | nil => exact Nat.le_refl 0
  | cons f frames ih =>
    cases f with
    | awaiting count => exact Nat.le_succ_of_le (ih _)
    | block count brace body => exact Nat.le_refl _

/-- A closing brace completes the innermost repeat, be it the end of its block or its whole body. -/
theorem length_frames_addOther_le (d : Draft) {t : Token} (ht : t.closes) :
    (d.addOther t).frames.length ≤ d.frames.length - 1 := by
  obtain ⟨frames, done⟩ := d
  cases frames with
  | nil => exact Nat.le_refl 0
  | cons f frames =>
    cases f with
    | awaiting count =>
      have hopens : ¬ t.isOperator '\x7b' := by simpa [Token.opens] using Token.opens_eq_false_of_closes ht
      simp only [addOther, if_neg hopens]
      exact length_frames_complete_le done frames _
    | block count brace body =>
      simp only [addOther, if_pos (show t.isOperator '\x7d' from ht)]
      exact length_frames_complete_le done frames _

/-- Closing braces that are at least as many as the unfinished repeats finish all of them. -/
theorem exists_parse_closers_eq_ok (last : Position) {d : Draft} {closers : List Token}
    (h : ∀ t ∈ closers, t.closes) (hlength : d.frames.length ≤ closers.length) :
    ∃ p, parse last d closers = .ok p := by
  induction closers generalizing d with
  | nil =>
    obtain ⟨frames, done⟩ := d
    cases List.length_eq_zero_iff.1 (Nat.le_zero.1 hlength)
    exact ⟨done.reverse, parse_nil⟩
  | cons t closers ih =>
    obtain ⟨ht, hclosers⟩ := List.forall_mem_cons.1 h
    have hkind : t.kind ≠ .command := by
      rw [kind_of_isOperator ht]
      decide
    rw [parse_other hkind]
    apply ih hclosers
    have := length_frames_addOther_le d ht
    rw [List.length_cons] at hlength
    omega

end Draft

/-- No operator fills a slot, so a bad command stays bad in front of operators. -/
theorem isBad_append_of_operators {tokens more : List Token} (hmore : ∀ t ∈ more, t.kind = .operator) {k : Nat}
    (h : IsBad tokens k) : IsBad (tokens ++ more) k := by
  obtain ⟨t, ht, hk, hbad⟩ := h
  refine ⟨t, ?_, hk, ?_⟩
  · rw [List.getElem?_append_left (List.getElem?_eq_some_iff.1 ht).1, ht]
  · rcases hbad with hnone | ⟨w, hw, hnot⟩
    · exact .inl hnone
    · refine .inr ⟨w, hw, fun hfilled => hnot ?_⟩
      intro j slot hslot
      obtain ⟨u, hu, hfits⟩ := hfilled j slot hslot
      refine ⟨u, ?_, hfits⟩
      rcases Nat.lt_or_ge (k + 1 + j) tokens.length with hlt | hge
      · rwa [List.getElem?_append_left hlt] at hu
      · rw [List.getElem?_append_right hge] at hu
        have hkind := hmore u (List.mem_of_getElem? hu)
        cases slot with
        | number => cases hkind.symm.trans hfits.1
        | name => cases hkind.symm.trans (show u.kind = .identifier from hfits)

/-! ## Blocks without end -/

section
variable (tokens : List Token) (places : Nat → Position)

theorem parse_eq_draftParse :
    Program.parse tokens =
      Draft.parse (Program.lastPosition (tokens.filter Token.isGrammatical)) ⟨[], []⟩
        (tokens.filter Token.isGrammatical) := rfl

/-- Braces are no layout, so they stay behind the tokens that the grammar looks at. -/
theorem filter_append_closers (k : Nat) :
    (tokens ++ closers places k).filter Token.isGrammatical =
      tokens.filter Token.isGrammatical ++ closers places k := by
  have hclosers : (closers places k).filter Token.isGrammatical = closers places k := by
    simp [List.filter_eq_self, closers, Token.closing, Token.isGrammatical]
  rw [List.filter_append, hclosers]

variable {tokens}

theorem exists_closers_of_unterminatedBlock {brace : Position}
    (h : Program.parse tokens = .error ⟨.unterminatedBlock, brace⟩) :
    ∃ k, 1 ≤ k ∧ ∃ p, Program.parse (tokens ++ closers places k) = .ok p := by
  obtain ⟨d, hextend, hbrace⟩ := (Draft.parse_eq_unterminatedBlock_iff ⟨[], []⟩ _ brace).1 h
  refine ⟨d.frames.length, ?_, ?_⟩
  · -- An open brace is the brace of a frame.
    have hpos : 0 < d.openBraces.length := List.length_pos_of_mem (List.mem_of_mem_head? hbrace)
    exact Nat.lt_of_lt_of_le hpos (List.length_filterMap_le Frame.brace? d.frames)
  · rw [parse_eq_draftParse, filter_append_closers, Draft.parse_append hextend]
    exact Draft.exists_parse_closers_eq_ok _ closes_of_mem_closers (length_closers places _).ge

/-- An error that closing braces mend is not that of a bad command. -/
theorem cause_eq_of_append_closers {e : SyntaxError} (h : Program.parse tokens = .error e) {k : Nat} {p : Program}
    (hp : Program.parse (tokens ++ closers places k) = .ok p) : e.cause = .unterminatedBlock := by
  by_contra hcause
  obtain ⟨i, hbad⟩ := (Draft.exists_parse_eq_error_iff ⟨[], []⟩ _).1 ⟨e, h, hcause⟩
  have hoperators : ∀ t ∈ closers places k, t.kind = .operator := fun t ht =>
    kind_of_isOperator (closes_of_mem_closers t ht)
  obtain ⟨e', he', -⟩ :=
    (Draft.exists_parse_eq_error_iff ⟨[], []⟩ _).2 ⟨i, isBad_append_of_operators hoperators hbad⟩
  rw [parse_eq_draftParse, filter_append_closers] at hp
  cases hp.symm.trans he'

theorem standsAtBody_of_unterminatedBlock {brace : Position}
    (h : Program.parse tokens = .error ⟨.unterminatedBlock, brace⟩) :
    StandsAtBody '\x7b' (tokens.filter Token.isGrammatical) brace := by
  obtain ⟨d, hextend, hbrace⟩ := (Draft.parse_eq_unterminatedBlock_iff ⟨[], []⟩ _ brace).1 h
  exact (ReadFrom.nil.extend hextend).standsAtBody brace (List.mem_of_mem_head? hbrace)

end

/-- Tokens have a block without end exactly if they are no program and some closing braces behind them make them
one, at whatever places these are. The place that is reported is that of an opening brace right behind the head
of a repeat. -/
theorem unterminatedBlock_iff_closable (tokens : List Token) (places : Nat → Position) :
    ((∃ brace, Program.parse tokens = .error ⟨.unterminatedBlock, brace⟩) ↔
      (∃ e, Program.parse tokens = .error e) ∧
        ∃ k, 1 ≤ k ∧ ∃ p, Program.parse (tokens ++ closers places k) = .ok p) ∧
    ∀ brace, Program.parse tokens = .error ⟨.unterminatedBlock, brace⟩ →
      StandsAtBody '\x7b' (tokens.filter Token.isGrammatical) brace := by
  refine ⟨⟨?_, ?_⟩, fun brace h => standsAtBody_of_unterminatedBlock h⟩
  · rintro ⟨brace, h⟩
    exact ⟨⟨_, h⟩, exists_closers_of_unterminatedBlock places h⟩
  · rintro ⟨⟨⟨cause, brace⟩, he⟩, k, -, p, hp⟩
    obtain rfl : cause = .unterminatedBlock := cause_eq_of_append_closers places he hp
    exact ⟨brace, he⟩

/-- How `repeat 2 { repeat 3` is read: a block is open, and the repeat in it awaits its body. -/
theorem Draft.parse_nested (last : Position) (rest : List Token) :
    Draft.parse last ⟨[], []⟩ (⟨.command, "repeat", ⟨1, 0⟩⟩ :: ⟨.number, "2", ⟨1, 7⟩⟩ :: ⟨.operator, "\x7b", ⟨1, 9⟩⟩ ::
        ⟨.command, "repeat", ⟨1, 11⟩⟩ :: ⟨.number, "3", ⟨1, 18⟩⟩ :: rest) =
      Draft.parse last ⟨[.awaiting 3, .block 2 ⟨1, 9⟩ []], []⟩ rest := by
  have htwo : IsNumber ⟨.number, "2", ⟨1, 7⟩⟩ 2 := ⟨rfl, ⟨'2', rfl, rfl⟩, by decide +kernel⟩
  have hthree : IsNumber ⟨.number, "3", ⟨1, 18⟩⟩ 3 := ⟨rfl, ⟨'3', rfl, rfl⟩, by decide +kernel⟩
  rw [Draft.parse_repeat ⟨rfl, by decide +kernel⟩ htwo, Draft.parse_open rfl,
    Draft.parse_repeat ⟨rfl, by decide +kernel⟩ hthree]

/-- Of the braces that mend this, the first is the body of the inner repeat and the second closes the block. -/
theorem unterminatedBlock_iff_closable_nested :
    let tokens := tokenize "repeat 2 \x7b repeat 3"
    Program.parse tokens = .error ⟨.unterminatedBlock, ⟨1, 9⟩⟩ ∧
    (∃ k, 1 ≤ k ∧ ∃ p, Program.parse (tokens ++ closers (fun i => ⟨2, i⟩) k) = .ok p) ∧
    StandsAtBody '\x7b' (tokens.filter Token.isGrammatical) ⟨1, 9⟩ := by
  intro tokens
  have htokens : tokens.filter Token.isGrammatical =
      [⟨.command, "repeat", ⟨1, 0⟩⟩, ⟨.number, "2", ⟨1, 7⟩⟩, ⟨.operator, "\x7b", ⟨1, 9⟩⟩,
        ⟨.command, "repeat", ⟨1, 11⟩⟩, ⟨.number, "3", ⟨1, 18⟩⟩] := by decide +kernel
  have hparse : Program.parse tokens = .error ⟨.unterminatedBlock, ⟨1, 9⟩⟩ := by
    rw [parse_eq_draftParse, htokens, Draft.parse_nested, Draft.parse_nil]
    rfl
  have h := unterminatedBlock_iff_closable tokens fun i => ⟨2, i⟩
  exact ⟨hparse, (h.1.1 ⟨_, hparse⟩).2, h.2 _ hparse⟩

/-- Tokens with balanced braces have no block without end, unless a closing brace stands where the body of a repeat
should. -/
theorem parse_ne_unterminatedBlock_of_balanced {tokens : List Token} (h : Balanced tokens)
    (hbody : ∀ p, ¬ StandsAtBody '\x7d' (tokens.filter Token.isGrammatical) p) (brace : Position) :
    Program.parse tokens ≠ .error ⟨.unterminatedBlock, brace⟩ := by
  intro hparse
  obtain ⟨d, hextend, hbrace⟩ := (Draft.parse_eq_unterminatedBlock_iff ⟨[], []⟩ _ brace).1 hparse
  have hle := (ReadFrom.nil.extend hextend).count_le h.filter.1 hbody
  have hpos : 0 < d.openBraces.length := List.length_pos_of_mem (List.mem_of_mem_head? hbrace)
  have heq := h.filter.2
  rw [List.nil_append] at hle
  omega

/-- A block with a stray opening brace in it. -/
theorem parse_ne_unterminatedBlock_of_stray :
    let tokens := tokenize "repeat 2 \x7b \x7b \x7d \x7d"
    Balanced tokens ∧ (∀ p, ¬ StandsAtBody '\x7d' (tokens.filter Token.isGrammatical) p) ∧
      Program.parse tokens ≠ .error ⟨.unterminatedBlock, ⟨1, 9⟩⟩ := by
  intro tokens
  have hbalanced : Balanced tokens := by decide +kernel
  have hpairs : ∀ pair ∈ (tokens.filter Token.isGrammatical).zip (tokens.filter Token.isGrammatical).tail,
      ¬ (pair.1.kind = .number ∧ pair.2.isOperator '\x7d') := by decide +kernel
  have hbody : ∀ p, ¬ StandsAtBody '\x7d' (tokens.filter Token.isGrammatical) p := by
    intro p hp
    obtain ⟨pair, hmem, hpair⟩ := hp.exists_mem_zip
    exact hpairs pair hmem hpair
  exact ⟨hbalanced, hbody, parse_ne_unterminatedBlock_of_balanced hbalanced hbody _⟩

/-- Balanced braces alone do not do. The inner repeat takes the only closing brace for its body, and the block of the
outer one is left open. -/
theorem unterminatedBlock_of_balanced :
    Balanced (tokenize "repeat 2 \x7b repeat 3 \x7d") ∧
      Program.read "repeat 2 \x7b repeat 3 \x7d" = .error ⟨.unterminatedBlock, ⟨1, 9⟩⟩ := by
  have htokens : (tokenize "repeat 2 \x7b repeat 3 \x7d").filter Token.isGrammatical =
      [⟨.command, "repeat", ⟨1, 0⟩⟩, ⟨.number, "2", ⟨1, 7⟩⟩, ⟨.operator, "\x7b", ⟨1, 9⟩⟩,
        ⟨.command, "repeat", ⟨1, 11⟩⟩, ⟨.number, "3", ⟨1, 18⟩⟩, ⟨.operator, "\x7d", ⟨1, 20⟩⟩] := by decide +kernel
  have hclosing : (⟨.operator, "\x7d", ⟨1, 20⟩⟩ : Token).kind ≠ .command := nofun
  refine ⟨by decide +kernel, ?_⟩
  rw [read_eq_parse, htokens, Draft.parse_nested, Draft.parse_other hclosing, Draft.parse_nil]
  rfl

end Easel
