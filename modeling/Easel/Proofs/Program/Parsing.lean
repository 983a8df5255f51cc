import Easel.Proofs.Program.Grammar

/-!
# What the parser accepts

The parser keeps unfinished repeats on a stack of frames, and the grammar knows no stack. The two meet in
`Draft.parse`, which reads tokens into a draft to the end of the input. An item, a body or a block of
the grammar takes the draft to the one with that item, body or block added, and leaves the rest to be
read (`parse_item`, `parse_body`, `parse_block`). Where tokens start with none of these, every draft
that meets them there ends in an error (`item_or_stuck`, `body_or_stuck`, `block_or_stuck`).

`parse_eq_ok_iff`: the parser gives the program that the grammar derives, if there is one, and there is
never more than one.
-/

namespace Easel

open Grammar

/-! ## Phrases -/

theorem bind_eq_ok_iff {ε α β : Type} {x : Except ε α} {f : α → Except ε β} {b : β} :
    (x >>= f) = .ok b ↔ ∃ a, x = .ok a ∧ f a = .ok b := by
  cases x <;> simp [bind, Except.bind]

namespace Phrase

variable {last : Position} {tokens : List Token}

theorem number_eq_ok_iff {v : Float} :
    number last tokens = .ok v ↔ ∃ t rest, tokens = t :: rest ∧ IsNumber t v := by
  unfold number
  cases tokens with
  | nil => simp
  | cons t rest =>
    simp only [List.head?_cons, Option.bind_some, List.cons.injEq, ← number?_eq_some_iff]
    cases h : t.number? <;> simp [h]

theorem name_eq_ok_iff {n : String} :
    name last tokens = .ok n ↔ ∃ t rest, tokens = t :: rest ∧ IsName t n := by
  unfold name
  cases tokens with
  | nil => simp
  | cons t rest =>
    simp only [List.head?_cons, Option.bind_some, List.cons.injEq, ← name?_eq_some_iff]
    cases h : t.name? <;> simp [h]

theorem point_eq_ok_iff {p : Point} :
    point last tokens = .ok p ↔ ∃ t u rest, tokens = t :: u :: rest ∧ IsNumber t p.x ∧ IsNumber u p.y := by
  simp only [point, bind_eq_ok_iff, number_eq_ok_iff]
  constructor
  · rintro ⟨x, ⟨t, rest, rfl, hx⟩, y, ⟨u, rest', hrest, hy⟩, h⟩
    cases h
    exact ⟨t, u, rest', by rw [← hrest]; rfl, hx, hy⟩
  · rintro ⟨t, u, rest, rfl, hx, hy⟩
    exact ⟨p.x, ⟨t, _, rfl, hx⟩, p.y, ⟨u, rest, rfl, hy⟩, rfl⟩

/-- A keyword reads as the command of its arguments where these come first. -/
theorem read_eq_command_iff {k : Keyword} {c : Command} :
    read last tokens k = .ok (.command c) ↔ ∃ arguments rest, tokens = arguments ++ rest ∧ Arguments k arguments c := by
  constructor
  · intro h
    cases k with
    | pen | paper | color =>
      obtain ⟨v, hv, hc⟩ := bind_eq_ok_iff.1 h
      obtain ⟨t, rest, rfl, ht⟩ := number_eq_ok_iff.1 hv
      cases hc
      exact ⟨[t], rest, rfl, by constructor; exact ht⟩
    | line | rect =>
      obtain ⟨a, ha, hbc⟩ := bind_eq_ok_iff.1 h
      obtain ⟨b, hb, hc⟩ := bind_eq_ok_iff.1 hbc
      obtain ⟨t₁, t₂, _, rfl, h₁, h₂⟩ := point_eq_ok_iff.1 ha
      obtain ⟨t₃, t₄, rest, hrest, h₃, h₄⟩ := point_eq_ok_iff.1 hb
      cases hc
      cases hrest
      exact ⟨[t₁, t₂, t₃, t₄], rest, rfl, by constructor <;> assumption⟩
    | circle =>
      obtain ⟨a, ha, hbc⟩ := bind_eq_ok_iff.1 h
      obtain ⟨r, hr, hc⟩ := bind_eq_ok_iff.1 hbc
      obtain ⟨t₁, t₂, _, rfl, h₁, h₂⟩ := point_eq_ok_iff.1 ha
      obtain ⟨t₃, rest, hrest, h₃⟩ := number_eq_ok_iff.1 hr
      cases hc
      cases hrest
      exact ⟨[t₁, t₂, t₃], rest, rfl, .circle h₁ h₂ h₃⟩
    | set =>
      obtain ⟨n, hn, hbc⟩ := bind_eq_ok_iff.1 h
      obtain ⟨v, hv, hc⟩ := bind_eq_ok_iff.1 hbc
      obtain ⟨t₁, _, rfl, h₁⟩ := name_eq_ok_iff.1 hn
      obtain ⟨t₂, rest, hrest, h₂⟩ := number_eq_ok_iff.1 hv
      cases hc
      cases hrest
      exact ⟨[t₁, t₂], rest, rfl, .set h₁ h₂⟩
    | «repeat» =>
      obtain ⟨v, -, hc⟩ := bind_eq_ok_iff.1 h
      cases hc
  · rintro ⟨arguments, rest, rfl, h⟩
    cases h with
    | pen h | paper h | color h =>
      exact bind_eq_ok_iff.2 ⟨_, number_eq_ok_iff.2 ⟨_, _, rfl, h⟩, rfl⟩
    | line h₁ h₂ h₃ h₄ | rect h₁ h₂ h₃ h₄ =>
      refine bind_eq_ok_iff.2 ⟨⟨_, _⟩, point_eq_ok_iff.2 ⟨_, _, _, rfl, h₁, h₂⟩, ?_⟩
      exact bind_eq_ok_iff.2 ⟨⟨_, _⟩, point_eq_ok_iff.2 ⟨_, _, _, rfl, h₃, h₄⟩, rfl⟩
    | circle h₁ h₂ h₃ =>
      refine bind_eq_ok_iff.2 ⟨⟨_, _⟩, point_eq_ok_iff.2 ⟨_, _, _, rfl, h₁, h₂⟩, ?_⟩
      exact bind_eq_ok_iff.2 ⟨_, number_eq_ok_iff.2 ⟨_, _, rfl, h₃⟩, rfl⟩
    | set h₁ h₂ =>
      refine bind_eq_ok_iff.2 ⟨_, name_eq_ok_iff.2 ⟨_, _, rfl, h₁⟩, ?_⟩
      exact bind_eq_ok_iff.2 ⟨_, number_eq_ok_iff.2 ⟨_, _, rfl, h₂⟩, rfl⟩

/-- Only `repeat` opens a repeat, and its count comes first. -/
theorem read_eq_repeatHead_iff {k : Keyword} {count : Float} :
    read last tokens k = .ok (.repeatHead count) ↔
      k = .repeat ∧ ∃ t rest, tokens = t :: rest ∧ IsNumber t count := by
  constructor
  · intro h
    cases k with
    | «repeat» =>
      obtain ⟨v, hv, h⟩ := bind_eq_ok_iff.1 h
      cases h
      exact ⟨rfl, number_eq_ok_iff.1 hv⟩
    | pen | paper | color =>
      obtain ⟨_, -, h⟩ := bind_eq_ok_iff.1 h
      cases h
    | line | rect | circle | set =>
      obtain ⟨_, -, h⟩ := bind_eq_ok_iff.1 h
      obtain ⟨_, -, h⟩ := bind_eq_ok_iff.1 h
      cases h
  · rintro ⟨rfl, h⟩
    exact bind_eq_ok_iff.2 ⟨count, number_eq_ok_iff.2 h, rfl⟩

theorem arity_eq_length {k : Keyword} {arguments : List Token} {c : Command} (h : Arguments k arguments c) :
    arity k = arguments.length := by
  cases h <;> rfl

end Phrase

/-! ## Drafts -/

namespace Draft

/-- Reads grammatical tokens into a draft up to the end of the input, and finishes it. -/
def parse (last : Position) (d : Draft) (tokens : List Token) : Except SyntaxError Program :=
  extend last d tokens >>= finish

/-- The next token starts an item: it is no brace that opens the body that the draft waits for, or closes
the block that it is in. -/
def Ready (d : Draft) (tokens : List Token) : Prop :=
  match d.frames with
  | [] => True
  | .awaiting _ :: _ => NotNext '\x7b' tokens
  | .block _ _ _ :: _ => NotNext '\x7d' tokens

variable {last : Position} {d : Draft} {t : Token} {tokens : List Token}

theorem parse_nil : parse last d [] = d.finish := by
  rw [parse, extend]
  rfl

theorem parse_other (h : t.kind ≠ .command) :
    parse last d (t :: tokens) = parse last (d.addOther t) tokens := by
  rw [parse, extend, if_neg h]
  rfl

theorem parse_unknown (h : t.kind = .command) (hk : Keyword.ofWord? t.text = none) :
    parse last d (t :: tokens) = .error ⟨.unknownCommand t.text, t.position⟩ := by
  rw [parse, extend, if_pos h, hk]
  rfl

theorem parse_refused {k : Keyword} {e : SyntaxError} (h : IsKeyword t k)
    (hp : Phrase.read last tokens k = .error e) : parse last d (t :: tokens) = .error e := by
  rw [parse, extend, if_pos h.1, ofWord?_of_isKeyword h]
  simp only [hp]
  rfl

theorem parse_phrase {k : Keyword} {phrase : Phrase} (h : IsKeyword t k)
    (hp : Phrase.read last tokens k = .ok phrase) :
    parse last d (t :: tokens) = parse last (d.addPhrase phrase) (tokens.drop (Phrase.arity k)) := by
  rw [parse, extend, if_pos h.1, ofWord?_of_isKeyword h]
  simp only [hp]
  rfl

theorem parse_command {k : Keyword} {arguments rest : List Token} {c : Command} (h : IsKeyword t k)
    (ha : Arguments k arguments c) :
    parse last d (t :: (arguments ++ rest)) = parse last (d.addItem (some c)) rest := by
  rw [parse_phrase h (Phrase.read_eq_command_iff.2 ⟨_, _, rfl, ha⟩), Phrase.arity_eq_length ha,
    List.drop_left]
  rfl

theorem parse_repeat {u : Token} {count : Float} (h : IsKeyword t .repeat) (hu : IsNumber u count) :
    parse last d (t :: u :: tokens) = parse last ⟨.awaiting count :: d.frames, d.done⟩ tokens :=
  parse_phrase h (Phrase.read_eq_repeatHead_iff.2 ⟨rfl, u, tokens, rfl, hu⟩)

theorem addOther_of_ready (h : d.Ready (t :: tokens)) : d.addOther t = d.addItem none := by
  obtain ⟨frames, done⟩ := d
  cases frames with
  | nil => rfl
  | cons f frames =>
    cases f with
    | awaiting count => exact if_neg (h t rfl)
    | block count brace body => exact if_neg (h t rfl)

theorem parse_open (h : t.isOperator '\x7b') (count : Float) (frames : List Frame) (done : List Command) :
    parse last ⟨.awaiting count :: frames, done⟩ (t :: tokens) =
      parse last ⟨.block count t.position [] :: frames, done⟩ tokens := by
  have hk : t.kind ≠ .command := by rw [kind_of_isOperator h]; decide
  rw [parse_other hk]
  simp only [addOther, if_pos h]

theorem parse_close (h : t.isOperator '\x7d') (count : Float) (brace : Position) (body : List Command)
    (frames : List Frame) (done : List Command) :
    parse last ⟨.block count brace body :: frames, done⟩ (t :: tokens) =
      parse last (complete done frames (some (.repeat count body.reverse))) tokens := by
  have hk : t.kind ≠ .command := by rw [kind_of_isOperator h]; decide
  rw [parse_other hk]
  simp only [addOther, if_pos h]

/-- Nobody awaits a body once an item is complete. -/
theorem frames_complete_ne_awaiting (done : List Command) (frames : List Frame) (item : Option Command)
    (count : Float) (outer : List Frame) : (complete done frames item).frames ≠ .awaiting count :: outer := by
  induction frames generalizing item with
  | nil => simp [complete]
  | cons f frames ih =>
    cases f with
    | awaiting n => exact ih _
    | block n brace body => simp [complete]

/-- At the end of the input a repeat that awaits its body has the empty one. -/
theorem finish_awaiting (count : Float) (frames : List Frame) (done : List Command) :
    finish ⟨.awaiting count :: frames, done⟩ = finish (complete done frames (some (.repeat count []))) := by
  have h := frames_complete_ne_awaiting done frames (some (.repeat count []))
  unfold finish addItem
  -- By `h` the completed draft is in no case of `finish` that completes it once more.
  simp only [complete, Option.toList_none]

/-! ## What the grammar derives is read -/

mutual

/-- Reading an item adds it to the draft. -/
theorem parse_item {tokens rest : List Token} {item : Option Command} (h : Item tokens item rest) :
    ∀ d : Draft, d.Ready tokens → parse last d tokens = parse last (d.addItem item) rest :=
  match h with
  | .stray hk => fun d hd => by rw [parse_other hk, addOther_of_ready hd]
  | .command hk ha => fun d _ => parse_command hk ha
  | .repeat hk hu hb => fun d _ => by
    rw [parse_repeat hk hu]
    exact parse_body hb _ d.frames d.done

/-- Reading a body completes the repeat that awaits it. -/
theorem parse_body {tokens rest : List Token} {body : List Command} (h : Body tokens body rest)
    (count : Float) (frames : List Frame) (done : List Command) :
    parse last ⟨.awaiting count :: frames, done⟩ tokens =
      parse last (complete done frames (some (.repeat count body))) rest :=
  match h with
  | .block hbrace hb => by
    rw [parse_open hbrace]
    exact parse_block hb count _ [] frames done
  -- The item completes the repeat, and that completes whatever repeats await it in their turn.
  | .single hnext hitem => parse_item hitem ⟨.awaiting count :: frames, done⟩ hnext
  | .missing => by rw [parse_nil, parse_nil, finish_awaiting]

/-- Reading a block to its closing brace completes the repeat that it is the body of. -/
theorem parse_block {tokens rest : List Token} {body : List Command} (h : Block tokens body rest)
    (count : Float) (brace : Position) (before : List Command) (frames : List Frame) (done : List Command) :
    parse last ⟨.block count brace before :: frames, done⟩ tokens =
      parse last (complete done frames (some (.repeat count (before.reverse ++ body)))) rest :=
  match h with
  | .close hbrace => by rw [parse_close hbrace, List.append_nil]
  | @Block.item _ item middle body _ hnext hitem hb => by
    have hbefore : before.reverse ++ (item.toList ++ body) = (item.toList ++ before).reverse ++ body := by
      cases item <;> simp
    rw [parse_item hitem ⟨.block count brace before :: frames, done⟩ hnext, hbefore]
    exact parse_block hb count brace (item.toList ++ before) frames done

end

theorem parse_items {tokens : List Token} {p : Program} (h : Items tokens p) (done : List Command) :
    parse last ⟨[], done⟩ tokens = .ok (done.reverse ++ p) := by
  induction h generalizing done with
  | nil =>
    rw [parse_nil, List.append_nil]
    rfl
  | @cons _ item _ p hitem _ ih =>
    rw [parse_item hitem ⟨[], done⟩ trivial, addItem, complete, ih]
    cases item <;> simp

/-! ## What the parser reads is derived -/

/-- The tokens start with an item, or every draft that meets an item there ends in an error. -/
def ItemOrStuck (last : Position) (tokens : List Token) : Prop :=
  (∃ item rest, Item tokens item rest) ∨ ∀ d : Draft, d.Ready tokens → ∃ e, parse last d tokens = .error e

/-- The tokens start with a body, or every draft that awaits one there ends in an error. -/
def BodyOrStuck (last : Position) (tokens : List Token) : Prop :=
  (∃ body rest, Body tokens body rest) ∨
    ∀ count frames done, ∃ e, parse last ⟨.awaiting count :: frames, done⟩ tokens = .error e

/-- The tokens start with a block, or every draft that is in one there ends in an error. -/
def BlockOrStuck (last : Position) (tokens : List Token) : Prop :=
  (∃ body rest, Block tokens body rest) ∨
    ∀ count brace before frames done, ∃ e, parse last ⟨.block count brace before :: frames, done⟩ tokens = .error e

theorem item_or_stuck (hbody : BodyOrStuck last tokens.tail) : ItemOrStuck last (t :: tokens) := by
  by_cases hk : t.kind = .command
  · cases hw : Keyword.ofWord? t.text with
    | none => exact .inr fun d _ => ⟨_, parse_unknown hk hw⟩
    | some k =>
      have hkey : IsKeyword t k := ⟨hk, (Keyword.ofWord?_eq_some_iff _ k).1 hw⟩
      rcases hp : Phrase.read last tokens k with e | (c | count)
      · exact .inr fun d _ => ⟨e, parse_refused hkey hp⟩
      · obtain ⟨arguments, rest, rfl, ha⟩ := Phrase.read_eq_command_iff.1 hp
        exact .inl ⟨some c, rest, .command hkey ha⟩
      · obtain ⟨rfl, u, rest, rfl, hu⟩ := Phrase.read_eq_repeatHead_iff.1 hp
        rcases hbody with ⟨body, rest', hb⟩ | hstuck
        · exact .inl ⟨_, rest', .repeat hkey hu hb⟩
        · refine .inr fun d _ => ?_
          rw [parse_repeat hkey hu]
          exact hstuck count d.frames d.done
  · exact .inl ⟨none, tokens, .stray hk⟩

theorem body_or_stuck (hitem : ItemOrStuck last (t :: tokens)) (hblock : BlockOrStuck last tokens) :
    BodyOrStuck last (t :: tokens) := by
  by_cases hbrace : t.isOperator '\x7b'
  · rcases hblock with ⟨body, rest, hb⟩ | hstuck
    · exact .inl ⟨body, rest, .block hbrace hb⟩
    · refine .inr fun count frames done => ?_
      rw [parse_open hbrace]
      exact hstuck count _ [] frames done
  · have hnext : NotNext '\x7b' (t :: tokens) := by simpa [NotNext] using hbrace
    rcases hitem with ⟨item, rest, hitem⟩ | hstuck
    · exact .inl ⟨_, rest, .single hnext hitem⟩
    · exact .inr fun count frames done => hstuck ⟨.awaiting count :: frames, done⟩ hnext

theorem block_or_stuck (hitem : ItemOrStuck last (t :: tokens))
    (hrest : ∀ rest : List Token, rest.length ≤ tokens.length → BlockOrStuck last rest) :
    BlockOrStuck last (t :: tokens) := by
  by_cases hbrace : t.isOperator '\x7d'
  · exact .inl ⟨[], tokens, .close hbrace⟩
  · have hnext : NotNext '\x7d' (t :: tokens) := by simpa [NotNext] using hbrace
    rcases hitem with ⟨item, rest, hitem⟩ | hstuck
    · rcases hrest rest (Nat.le_of_lt_succ (length_lt_of_item hitem)) with ⟨body, rest', hb⟩ | hstuck
      · exact .inl ⟨_, rest', .item hnext hitem hb⟩
      · refine .inr fun count brace before frames done => ?_
        rw [parse_item hitem ⟨.block count brace before :: frames, done⟩ hnext]
        exact hstuck count brace (item.toList ++ before) frames done
    · exact .inr fun count brace before frames done => hstuck ⟨.block count brace before :: frames, done⟩ hnext

/-- Of items, bodies and blocks, the later ones look at the same tokens as the earlier ones or at fewer,
and an item at fewer only. -/
theorem body_and_block_or_stuck (tokens : List Token) : BodyOrStuck last tokens ∧ BlockOrStuck last tokens := by
  -- A body may be a block of fewer tokens and a block goes on behind an item, so neither goes without the other.
  induction hn : tokens.length using Nat.strongRecOn generalizing tokens with
  | _ n ih =>
    subst hn
    cases tokens with
    | nil => exact ⟨.inl ⟨[], [], .missing⟩, .inr fun count brace before frames done => ⟨_, parse_nil⟩⟩
    | cons t tokens =>
      have hshort (rest : List Token) (h : rest.length ≤ tokens.length) :
          BodyOrStuck last rest ∧ BlockOrStuck last rest := ih _ (Nat.lt_succ_of_le h) rest rfl
      have hitem := item_or_stuck (t := t) (hshort tokens.tail (by simp)).1
      exact ⟨body_or_stuck hitem (hshort tokens (Nat.le_refl _)).2, block_or_stuck hitem fun rest h => (hshort rest h).2⟩

theorem items_or_stuck (tokens : List Token) :
    (∃ p, Items tokens p) ∨ ∀ done, ∃ e, parse last ⟨[], done⟩ tokens = .error e := by
  induction hn : tokens.length using Nat.strongRecOn generalizing tokens with
  | _ n ih =>
    subst hn
    cases tokens with
    | nil => exact .inl ⟨[], .nil⟩
    | cons t tokens =>
      have hbody : BodyOrStuck last tokens.tail := (body_and_block_or_stuck tokens.tail).1
      rcases item_or_stuck (t := t) hbody with ⟨item, rest, hitem⟩ | hstuck
      · rcases ih _ (length_lt_of_item hitem) rest rfl with ⟨p, hp⟩ | hstuck
        · exact .inl ⟨_, .cons hitem hp⟩
        · refine .inr fun done => ?_
          rw [parse_item hitem ⟨[], done⟩ trivial]
          exact hstuck (item.toList ++ done)
      · exact .inr fun done => hstuck ⟨[], done⟩ trivial

end Draft

/-! ## The parser and the grammar -/

/-- Tokens parse as a program exactly if the grammar derives it from those of them that are grammatical. It
derives no second program from any tokens. -/
theorem parse_eq_ok_iff (tokens : List Token) (p : Program) :
    (Program.parse tokens = .ok p ↔ Items (tokens.filter Token.isGrammatical) p) ∧
    (Items tokens p → ∀ q, Items tokens q → q = p) := by
  refine ⟨⟨fun h => ?_, fun h => Draft.parse_items h []⟩, fun hp q hq => ?_⟩
  · rcases Draft.items_or_stuck (tokens.filter Token.isGrammatical) with ⟨q, hq⟩ | hstuck
    · have hparse : Program.parse tokens = .ok q := Draft.parse_items hq []
      rw [h] at hparse
      exact Except.ok.inj hparse ▸ hq
    · obtain ⟨e, he⟩ := hstuck []
      cases h.symm.trans he
  · have hparse : Draft.parse .start ⟨[], []⟩ tokens = .ok q := Draft.parse_items hq []
    rw [Draft.parse_items hp []] at hparse
    exact (Except.ok.inj hparse).symm

end Easel
