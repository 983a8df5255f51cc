import Easel.Proofs.Program.Parsing

/-!
# The command to blame

Whatever blocks it stands in, a command is read with the tokens right behind its keyword, one for each of
the keyword's slots. It is bad if it is no reserved word, or if some slot is not filled as it should be, and
then there is one error to report for it (`Reports`).

The parser reads from left to right, and what it reads a command as does not depend on the repeats that are
open around it. Arguments are no commands, so the parser steps over every command that is not bad, and it
ends at the first one that is (`Draft.extend_reportsFirst`).

`parse_reports_first_bad`: the errors of the parser, other than for a block without end, are the errors
of the first bad commands.
-/

namespace Easel

open Grammar

/-! ## Slots -/

/-- What has to stand in one place behind a keyword. -/
inductive Slot
  | number | name

namespace Slot

/-- The token can stand in the slot. -/
def Fits : Slot → Token → Prop
  | number, t => t.kind = .number ∧ ∃ c ∈ t.text.toList.head?, c.isDigit
  | name, t => t.kind = .identifier

/-- There is a token at index `n`, and it can stand in the slot. -/
def FitsAt (slot : Slot) (tokens : List Token) (n : Nat) : Prop :=
  ∃ t, tokens[n]? = some t ∧ slot.Fits t

/-- The cause of an error at the slot. -/
def cause : Slot → Found → SyntaxError.Cause
  | number => .expectedNumber
  | name => .expectedIdentifier

/-- The slots of a keyword. The body of a repeat is not one of them. -/
def ofKeyword : Keyword → List Slot
  | .pen | .paper | .color | .repeat => [number]
  | .line | .rect => [number, number, number, number]
  | .circle => [number, number, number]
  | .set => [name, number]

/-- The tokens from index `n` on fill the slots. -/
def Filled (slots : List Slot) (tokens : List Token) (n : Nat) : Prop :=
  ∀ (j : Nat) (slot : Slot), slots[j]? = some slot → slot.FitsAt tokens (n + j)

/-- The tokens from index `n` on fill the slots before number `j`, which is `slot`, but not that one. -/
structure FirstUnfilled (slots : List Slot) (tokens : List Token) (n j : Nat) (slot : Slot) : Prop where
  getElem_eq : slots[j]? = some slot
  not_fitsAt : ¬ slot.FitsAt tokens (n + j)
  filled_take : Filled (slots.take j) tokens n

theorem fits_number_iff {t : Token} : number.Fits t ↔ ∃ v, t.number? = some v := by
  simp only [Fits, number?_eq_some_iff, IsNumber, ← Number.read?_isSome_iff, Option.isSome_iff_exists]
  exact ⟨fun ⟨hk, v, hv⟩ => ⟨v, hk, ⟨v, hv⟩, hv⟩, fun ⟨_, hk, hv, _⟩ => ⟨hk, hv⟩⟩

theorem fits_name_iff {t : Token} : name.Fits t ↔ ∃ n, t.name? = some n := by
  simp [name?_eq_some_iff, IsName, Fits]

theorem kind_ne_command_of_fits {slot : Slot} {t : Token} (h : slot.Fits t) : t.kind ≠ .command := by
  intro hk
  cases slot with
  | number => cases h.1.symm.trans hk
  | name => cases (show t.kind = .identifier from h).symm.trans hk

theorem length_ofKeyword (k : Keyword) : (ofKeyword k).length = Phrase.arity k := by
  cases k <;> rfl

theorem fitsAt_drop (slot : Slot) (tokens : List Token) (m n : Nat) :
    slot.FitsAt (tokens.drop m) n ↔ slot.FitsAt tokens (m + n) := by
  simp only [FitsAt, List.getElem?_drop]

theorem filled_drop (slots : List Slot) (tokens : List Token) (m n : Nat) :
    Filled slots (tokens.drop m) n ↔ Filled slots tokens (m + n) := by
  simp only [Filled, fitsAt_drop, Nat.add_assoc]

theorem firstUnfilled_drop (slots : List Slot) (tokens : List Token) (m n j : Nat) (slot : Slot) :
    FirstUnfilled slots (tokens.drop m) n j slot ↔ FirstUnfilled slots tokens (m + n) j slot := by
  constructor
  · rintro ⟨h, hunfit, hfilled⟩
    exact ⟨h, by rwa [fitsAt_drop, ← Nat.add_assoc] at hunfit, (filled_drop _ _ _ _).1 hfilled⟩
  · rintro ⟨h, hunfit, hfilled⟩
    exact ⟨h, by rwa [fitsAt_drop, ← Nat.add_assoc], (filled_drop _ _ _ _).2 hfilled⟩

/-! ## Slots as they are read -/

/-- Reads the slot, and forgets what stands in it. -/
def check (last : Position) (tokens : List Token) : Slot → Except SyntaxError Unit
  | number => (fun _ => ()) <$> Phrase.number last tokens
  | name => (fun _ => ()) <$> Phrase.name last tokens

/-- Reads slots from left to right, and forgets what stands in them. -/
def checkAll (last : Position) : List Token → List Slot → Except SyntaxError Unit
  | _, [] => pure ()
  | tokens, slot :: slots => do
    slot.check last tokens
    checkAll last (tokens.drop 1) slots

/-- A phrase is read as far as its slots are. -/
theorem map_read (last : Position) (tokens : List Token) (k : Keyword) :
    (fun _ => ()) <$> Phrase.read last tokens k = checkAll last tokens (ofKeyword k) := by
  cases k <;> simp [Phrase.read, checkAll, ofKeyword, check, Phrase.point]

variable {slot : Slot} {tokens : List Token} {n : Nat}

theorem check_of_fitsAt (h : slot.FitsAt tokens n) (last : Position) : slot.check last (tokens.drop n) = .ok () := by
  obtain ⟨t, ht, hfits⟩ := h
  cases slot with
  | number =>
    obtain ⟨v, hv⟩ := fits_number_iff.1 hfits
    rw [check, Phrase.number, List.head?_drop, ht, Option.bind_some, hv]
    rfl
  | name =>
    obtain ⟨v, hv⟩ := fits_name_iff.1 hfits
    rw [check, Phrase.name, List.head?_drop, ht, Option.bind_some, hv]
    rfl

theorem check_of_not_fitsAt (h : ¬ slot.FitsAt tokens n) (last : Position) :
    slot.check last (tokens.drop n) = .error (Phrase.unexpected slot.cause last (tokens.drop n)) := by
  cases slot with
  | number =>
    rw [check, Phrase.number, List.head?_drop]
    cases hbind : tokens[n]?.bind Token.number? with
    | none => rfl
    | some v =>
      obtain ⟨t, ht, hv⟩ := Option.bind_eq_some_iff.1 hbind
      exact absurd ⟨t, ht, fits_number_iff.2 ⟨v, hv⟩⟩ h
  | name =>
    rw [check, Phrase.name, List.head?_drop]
    cases hbind : tokens[n]?.bind Token.name? with
    | none => rfl
    | some v =>
      obtain ⟨t, ht, hv⟩ := Option.bind_eq_some_iff.1 hbind
      exact absurd ⟨t, ht, fits_name_iff.2 ⟨v, hv⟩⟩ h

/-- Slots are read up to the first one that is not filled. -/
theorem checkAll_cases (last : Position) (tokens : List Token) (n : Nat) (slots : List Slot) :
    Filled slots tokens n ∧ checkAll last (tokens.drop n) slots = .ok () ∨
    ∃ j slot, FirstUnfilled slots tokens n j slot ∧
      checkAll last (tokens.drop n) slots = .error (Phrase.unexpected slot.cause last (tokens.drop (n + j))) := by
  induction slots generalizing n with
  | nil => exact .inl ⟨nofun, rfl⟩
  | cons slot slots ih =>
    rw [checkAll, List.drop_drop]
    -- Slots behind the first one are counted from it, and so are the tokens for them.
    by_cases hfit : slot.FitsAt tokens n
    · have hcons {slots : List Slot} (h : Filled slots tokens (n + 1)) : Filled (slot :: slots) tokens n := by
        rintro (_ | j) s hs
        · cases hs
          exact hfit
        · rw [Nat.add_comm j, ← Nat.add_assoc]
          exact h j s hs
      rw [check_of_fitsAt hfit]
      rcases ih (n + 1) with ⟨hall, hok⟩ | ⟨j, s, ⟨hs, hunfit, hbefore⟩, herror⟩
      · exact .inl ⟨hcons hall, hok⟩
      · refine .inr ⟨j + 1, s, ⟨hs, ?_, hcons hbefore⟩, ?_⟩
        · rwa [Nat.add_comm j, ← Nat.add_assoc]
        · rw [Nat.add_comm j, ← Nat.add_assoc]
          exact herror
    · rw [check_of_not_fitsAt hfit]
      exact .inr ⟨0, slot, ⟨rfl, hfit, nofun⟩, rfl⟩

theorem read_cases (last : Position) (tokens : List Token) (k : Keyword) :
    (∃ phrase, Filled (ofKeyword k) tokens 0 ∧ Phrase.read last tokens k = .ok phrase) ∨
    ∃ j slot, FirstUnfilled (ofKeyword k) tokens 0 j slot ∧
      Phrase.read last tokens k = .error (Phrase.unexpected slot.cause last (tokens.drop j)) := by
  have hcases := checkAll_cases last tokens 0 (ofKeyword k)
  rw [List.drop_zero, ← map_read] at hcases
  cases hread : Phrase.read last tokens k with
  | ok phrase =>
    rw [hread] at hcases
    rcases hcases with ⟨hfilled, -⟩ | ⟨_, _, -, herror⟩
    · exact .inl ⟨phrase, hfilled, rfl⟩
    · cases herror
  | error e =>
    rw [hread] at hcases
    rcases hcases with ⟨-, hok⟩ | ⟨j, slot, hunfilled, herror⟩
    · cases hok
    · rw [Nat.zero_add] at herror
      cases herror
      exact .inr ⟨j, slot, hunfilled, rfl⟩

end Slot

/-! ## Bad commands -/

/-- The token at index `k` is a command that is no reserved word, or whose slots are not filled. -/
def IsBad (tokens : List Token) (k : Nat) : Prop :=
  ∃ t, tokens[k]? = some t ∧ t.kind = .command ∧
    ((∀ w, ¬ IsKeyword t w) ∨ ∃ w, IsKeyword t w ∧ ¬ Slot.Filled (Slot.ofKeyword w) tokens (k + 1))

/-- The error that a slot is not filled at index `n`. Behind the end of the tokens the last one is to blame. -/
def Slot.error (slot : Slot) (tokens : List Token) (n : Nat) : SyntaxError :=
  match tokens[n]? with
  | some t => ⟨slot.cause (.token t.text), t.position⟩
  | none => ⟨slot.cause .endOfInput, Program.lastPosition tokens⟩

/-- The error to report for the command at index `k`. -/
inductive Reports (tokens : List Token) (k : Nat) : SyntaxError → Prop
  | unknown {t} : tokens[k]? = some t → t.kind = .command → (∀ w, ¬ IsKeyword t w) →
      Reports tokens k ⟨.unknownCommand t.text, t.position⟩
  | unfilled {t w j slot} : tokens[k]? = some t → IsKeyword t w →
      Slot.FirstUnfilled (Slot.ofKeyword w) tokens (k + 1) j slot → Reports tokens k (slot.error tokens (k + 1 + j))

variable {tokens : List Token} {k : Nat} {e : SyntaxError}

theorem Slot.cause_error_ne (slot : Slot) (n : Nat) : (slot.error tokens n).cause ≠ .unterminatedBlock := by
  unfold Slot.error
  cases slot <;> split <;> nofun

theorem cause_ne_of_reports (h : Reports tokens k e) : e.cause ≠ .unterminatedBlock := by
  cases h with
  | unknown _ _ _ => nofun
  | unfilled _ _ _ => exact Slot.cause_error_ne _ _

theorem isBad_of_reports (h : Reports tokens k e) : IsBad tokens k := by
  cases h with
  | unknown ht hk hw => exact ⟨_, ht, hk, .inl hw⟩
  | unfilled ht hw hslot =>
    refine ⟨_, ht, hw.1, .inr ⟨_, hw, ?_⟩⟩
    intro hfilled
    exact hslot.not_fitsAt (hfilled _ _ hslot.getElem_eq)

theorem Slot.firstUnfilled_unique {slots : List Slot} {n j j' : Nat} {slot slot' : Slot}
    (h : FirstUnfilled slots tokens n j slot) (h' : FirstUnfilled slots tokens n j' slot') : j = j' ∧ slot = slot' := by
  have hle {j j' : Nat} {slot slot' : Slot} (h : FirstUnfilled slots tokens n j slot)
      (h' : FirstUnfilled slots tokens n j' slot') : j' ≤ j := by
    refine Nat.le_of_not_lt fun hlt => h.not_fitsAt (h'.filled_take j slot ?_)
    rw [List.getElem?_take_of_lt hlt]
    exact h.getElem_eq
  obtain rfl := Nat.le_antisymm (hle h' h) (hle h h')
  exact ⟨rfl, Option.some.inj (h.getElem_eq.symm.trans h'.getElem_eq)⟩

theorem Grammar.isKeyword_unique {t : Token} {w w' : Keyword} (h : IsKeyword t w) (h' : IsKeyword t w') : w = w' :=
  Option.some.inj ((ofWord?_of_isKeyword h).symm.trans (ofWord?_of_isKeyword h'))

theorem reports_unique {e' : SyntaxError} (h : Reports tokens k e) (h' : Reports tokens k e') : e = e' := by
  cases h with
  | unknown ht _ hw =>
    cases h' with
    | unknown ht' _ _ =>
      cases ht.symm.trans ht'
      rfl
    | unfilled ht' hw' _ =>
      cases ht.symm.trans ht'
      exact absurd hw' (hw _)
  | unfilled ht hw hslot =>
    cases h' with
    | unknown ht' _ hw' =>
      cases ht.symm.trans ht'
      exact absurd hw (hw' _)
    | unfilled ht' hw' hslot' =>
      cases ht.symm.trans ht'
      cases isKeyword_unique hw hw'
      obtain ⟨rfl, rfl⟩ := Slot.firstUnfilled_unique hslot hslot'
      rfl

/-! ## What stands behind some tokens -/

theorem lastPosition_drop {m : Nat} (h : m < tokens.length) :
    Program.lastPosition (tokens.drop m) = Program.lastPosition tokens := by
  rw [Program.lastPosition, List.getLast?_drop, if_neg (Nat.not_le_of_lt h), Program.lastPosition]

theorem isBad_drop (m : Nat) : IsBad (tokens.drop m) k ↔ IsBad tokens (m + k) := by
  simp only [IsBad, List.getElem?_drop, Slot.filled_drop, Nat.add_assoc]

theorem Slot.error_drop (slot : Slot) {m : Nat} (h : m < tokens.length) (n : Nat) :
    slot.error (tokens.drop m) n = slot.error tokens (m + n) := by
  rw [Slot.error, Slot.error, List.getElem?_drop, lastPosition_drop h]

theorem reports_of_drop {m : Nat} (h : Reports (tokens.drop m) k e) : Reports tokens (m + k) e := by
  cases h with
  | unknown ht hk hw =>
    rw [List.getElem?_drop] at ht
    exact .unknown ht hk hw
  | unfilled ht hw hslot =>
    rw [List.getElem?_drop] at ht
    have hlt : m < tokens.length := by
      have := (List.getElem?_eq_some_iff.1 ht).1
      omega
    rw [Slot.firstUnfilled_drop, ← Nat.add_assoc] at hslot
    rw [Slot.error_drop _ hlt, ← Nat.add_assoc, ← Nat.add_assoc]
    exact .unfilled ht hw hslot

/-- The result is the error of the first bad command, or it is no error and no command is bad. -/
def ReportsFirst {α : Type} (tokens : List Token) (result : Except SyntaxError α) : Prop :=
  (∃ k e, Reports tokens k e ∧ (∀ i < k, ¬ IsBad tokens i) ∧ result = .error e) ∨
  (∀ k, ¬ IsBad tokens k) ∧ ∃ a, result = .ok a

theorem reportsFirst_of_drop {α : Type} {result : Except SyntaxError α} {m : Nat}
    (hbefore : ∀ i < m, ¬ IsBad tokens i) (h : ReportsFirst (tokens.drop m) result) : ReportsFirst tokens result := by
  have hbehind {i : Nat} (hi : m ≤ i) (h : ¬ IsBad (tokens.drop m) (i - m)) : ¬ IsBad tokens i := by
    rwa [isBad_drop, Nat.add_sub_cancel' hi] at h
  rcases h with ⟨k, e, hreports, hfirst, herror⟩ | ⟨hnone, hok⟩
  · refine .inl ⟨m + k, e, reports_of_drop hreports, ?_, herror⟩
    intro i hi
    rcases Nat.lt_or_ge i m with hlt | hge
    · exact hbefore i hlt
    · exact hbehind hge (hfirst _ (by omega))
  · refine .inr ⟨?_, hok⟩
    intro i
    rcases Nat.lt_or_ge i m with hlt | hge
    · exact hbefore i hlt
    · exact hbehind hge (hnone _)

theorem first_unique {k' : Nat} (hbad : IsBad tokens k) (hfirst : ∀ i < k, ¬ IsBad tokens i)
    (hbad' : IsBad tokens k') (hfirst' : ∀ i < k', ¬ IsBad tokens i) : k = k' := by
  rcases Nat.lt_trichotomy k k' with h | h | h
  · exact absurd hbad (hfirst' k h)
  · exact h
  · exact absurd hbad' (hfirst k' h)

theorem reports_of_reportsFirst {α : Type} (h : ReportsFirst tokens (.error e : Except SyntaxError α)) :
    ∃ k, Reports tokens k e ∧ ∀ i < k, ¬ IsBad tokens i := by
  rcases h with ⟨k, e', hreports, hfirst, herror⟩ | ⟨-, _, hok⟩
  · cases herror
    exact ⟨k, hreports, hfirst⟩
  · cases hok

theorem eq_error_of_reportsFirst {α : Type} {result : Except SyntaxError α} (h : ReportsFirst tokens result)
    (hreports : Reports tokens k e) (hfirst : ∀ i < k, ¬ IsBad tokens i) : result = .error e := by
  have hbad := isBad_of_reports hreports
  rcases h with ⟨k', e', hreports', hfirst', herror⟩ | ⟨hnone, -⟩
  · obtain rfl := first_unique hbad hfirst (isBad_of_reports hreports') hfirst'
    rw [herror, reports_unique hreports hreports']
  · exact absurd hbad (hnone k)

/-! ## What the parser reports -/

theorem unexpected_drop_eq_error (slot : Slot) (tokens : List Token) (n : Nat) :
    Phrase.unexpected slot.cause (Program.lastPosition tokens) (tokens.drop n) = slot.error tokens n := by
  rw [Slot.error, ← List.head?_drop]
  cases tokens.drop n <;> rfl

theorem not_isBad_of_kind_ne {t : Token} (ht : tokens[k]? = some t) (hk : t.kind ≠ .command) : ¬ IsBad tokens k := by
  rintro ⟨t', ht', hk', -⟩
  cases ht.symm.trans ht'
  exact hk hk'

theorem not_isBad_of_filled {t : Token} {w : Keyword} (ht : tokens[k]? = some t) (hw : IsKeyword t w)
    (hfilled : Slot.Filled (Slot.ofKeyword w) tokens (k + 1)) : ¬ IsBad tokens k := by
  rintro ⟨t', ht', -, hbad⟩
  cases ht.symm.trans ht'
  rcases hbad with hnone | ⟨w', hw', hnot⟩
  · exact hnone w hw
  · cases isKeyword_unique hw hw'
    exact hnot hfilled

/-- The tokens that fill slots are no commands, bad or not. -/
theorem not_isBad_of_filled_before {slots : List Slot} {n i : Nat} (h : Slot.Filled slots tokens n)
    (hge : n ≤ i) (hlt : i < n + slots.length) : ¬ IsBad tokens i := by
  have hslot : slots[i - n]? = some (slots[i - n]) := List.getElem?_eq_getElem (by omega)
  obtain ⟨t, ht, hfits⟩ := h (i - n) _ hslot
  rw [Nat.add_sub_cancel' hge] at ht
  exact not_isBad_of_kind_ne ht (Slot.kind_ne_command_of_fits hfits)

theorem Draft.extend_reportsFirst (last : Position) (d : Draft) (tokens : List Token)
    (hlast : tokens ≠ [] → Program.lastPosition tokens = last) : ReportsFirst tokens (extend last d tokens) := by
  have hrest {t : Token} {rest : List Token} (h : t :: rest ≠ [] → Program.lastPosition (t :: rest) = last) (m : Nat)
      (hne : rest.drop m ≠ []) : Program.lastPosition (rest.drop m) = last := by
    have hlt : m + 1 < (t :: rest).length := by
      have := List.length_pos_iff.2 hne
      rw [List.length_drop] at this
      rw [List.length_cons]
      omega
    rw [← h nofun, ← lastPosition_drop hlt, List.drop_succ_cons]
  fun_induction extend last d tokens with
  | case1 d => exact .inr ⟨fun k ⟨t, ht, _⟩ => (nomatch ht), d, rfl⟩
  | case2 d t rest hk hw =>
    refine .inl ⟨0, _, .unknown rfl hk ?_, nofun, rfl⟩
    intro w hkey
    cases hw.symm.trans (ofWord?_of_isKeyword hkey)
  | case3 d t rest hk w hw e hread =>
    have hkey : IsKeyword t w := ⟨hk, (Keyword.ofWord?_eq_some_iff _ w).1 hw⟩
    rcases Slot.read_cases last rest w with ⟨_, -, hok⟩ | ⟨j, slot, hslot, herror⟩
    · cases hread.symm.trans hok
    · cases hread.symm.trans herror
      -- The slots were found in the tokens behind the keyword, at index 1.
      have hreports : Reports (t :: rest) 0 (slot.error (t :: rest) (0 + 1 + j)) :=
        .unfilled rfl hkey ((Slot.firstUnfilled_drop _ (t :: rest) 1 0 _ _).1 hslot)
      rw [← unexpected_drop_eq_error, hlast nofun, Nat.zero_add, Nat.add_comm 1 j, List.drop_succ_cons] at hreports
      exact .inl ⟨0, _, hreports, nofun, rfl⟩
  | case4 d t rest hk w hw phrase hread ih =>
    have hkey : IsKeyword t w := ⟨hk, (Keyword.ofWord?_eq_some_iff _ w).1 hw⟩
    have hfilled : Slot.Filled (Slot.ofKeyword w) (t :: rest) 1 := by
      rcases Slot.read_cases last rest w with ⟨_, hfilled, -⟩ | ⟨_, _, -, herror⟩
      · exact (Slot.filled_drop _ (t :: rest) 1 0).1 hfilled
      · cases hread.symm.trans herror
    refine reportsFirst_of_drop (m := Phrase.arity w + 1) ?_ (ih (hrest hlast _))
    -- The parser goes on behind the arguments, so none of them may be a bad command.
    intro i hi
    cases i with
    | zero => exact not_isBad_of_filled rfl hkey hfilled
    | succ i =>
      rw [← Slot.length_ofKeyword] at hi
      exact not_isBad_of_filled_before hfilled (by omega) (by omega)
  | case5 d t rest hk ih =>
    refine reportsFirst_of_drop (m := 1) ?_ (ih (hrest hlast 0))
    intro i hi
    cases Nat.lt_one_iff.1 hi
    exact not_isBad_of_kind_ne rfl hk

theorem Draft.finish_cases (d : Draft) :
    (∃ p, d.finish = .ok p) ∨ ∃ brace, d.finish = .error ⟨.unterminatedBlock, brace⟩ := by
  unfold finish
  dsimp only
  split
  · exact .inr ⟨_, rfl⟩
  · exact .inl ⟨_, rfl⟩

theorem Draft.parse_eq_error_iff (d : Draft) (tokens : List Token) (e : SyntaxError) :
    parse (Program.lastPosition tokens) d tokens = .error e ∧ e.cause ≠ .unterminatedBlock ↔
      ∃ k, Reports tokens k e ∧ ∀ i < k, ¬ IsBad tokens i := by
  have hscan := extend_reportsFirst (Program.lastPosition tokens) d tokens fun _ => rfl
  constructor
  · rintro ⟨h, hcause⟩
    rw [parse] at h
    cases hextend : extend (Program.lastPosition tokens) d tokens with
    | error e' =>
      rw [hextend] at h hscan
      cases h
      exact reports_of_reportsFirst hscan
    | ok d' =>
      rw [hextend] at h
      rcases d'.finish_cases with ⟨p, hp⟩ | ⟨brace, hbrace⟩
      · cases h.symm.trans hp
      · cases h.symm.trans hbrace
        exact absurd rfl hcause
  · rintro ⟨k, hreports, hfirst⟩
    refine ⟨?_, cause_ne_of_reports hreports⟩
    rw [parse, eq_error_of_reportsFirst hscan hreports hfirst]
    rfl

theorem Draft.exists_parse_eq_error_iff (d : Draft) (tokens : List Token) :
    (∃ e, parse (Program.lastPosition tokens) d tokens = .error e ∧ e.cause ≠ .unterminatedBlock) ↔
      ∃ k, IsBad tokens k := by
  constructor
  · rintro ⟨e, he⟩
    obtain ⟨k, hreports, -⟩ := (parse_eq_error_iff d tokens e).1 he
    exact ⟨k, isBad_of_reports hreports⟩
  · rintro ⟨k, hk⟩
    rcases extend_reportsFirst (Program.lastPosition tokens) d tokens fun _ => rfl with
      ⟨k', e, hreports, hfirst, -⟩ | ⟨hnone, -⟩
    · exact ⟨e, (parse_eq_error_iff d tokens e).2 ⟨k', hreports, hfirst⟩⟩
    · exact absurd hk (hnone k)

/-- Without a bad command there is nothing to report but a block without end. -/
theorem Draft.parse_of_not_isBad {tokens : List Token} (d : Draft) (h : ∀ k, ¬ IsBad tokens k) :
    (∃ p, parse (Program.lastPosition tokens) d tokens = .ok p) ∨
      ∃ brace, parse (Program.lastPosition tokens) d tokens = .error ⟨.unterminatedBlock, brace⟩ := by
  rcases extend_reportsFirst (Program.lastPosition tokens) d tokens fun _ => rfl with
    ⟨k, e, hreports, -, -⟩ | ⟨-, d', hextend⟩
  · exact absurd (isBad_of_reports hreports) (h k)
  · rw [parse, hextend]
    exact d'.finish_cases

/-- Comments and blanks left out, the parser ends in an error other than for a block without end exactly if some
command is bad, and then the error is the one to report for the first bad command. If no command is bad,
the tokens are a program or have a block without end. -/
theorem parse_reports_first_bad (tokens : List Token) :
    let ts := tokens.filter Token.isGrammatical
    ((∃ e, Program.parse tokens = .error e ∧ e.cause ≠ .unterminatedBlock) ↔ ∃ k, IsBad ts k) ∧
    (∀ e, Program.parse tokens = .error e ∧ e.cause ≠ .unterminatedBlock ↔
      ∃ k, Reports ts k e ∧ ∀ i < k, ¬ IsBad ts i) ∧
    ((∃ k, IsBad ts k) ∨ (∃ p, Program.parse tokens = .ok p) ∨
      ∃ brace, Program.parse tokens = .error ⟨.unterminatedBlock, brace⟩) := by
  intro ts
  refine ⟨Draft.exists_parse_eq_error_iff ⟨[], []⟩ ts, Draft.parse_eq_error_iff ⟨[], []⟩ ts, ?_⟩
  by_cases hbad : ∃ k, IsBad ts k
  · exact .inl hbad
  · exact .inr (Draft.parse_of_not_isBad ⟨[], []⟩ (not_exists.1 hbad))

end Easel
