import Easel.Program.Parser

/-!
# The grammar of programs

Which programs a list of grammatical tokens is. A program is a row of items. An item is a stray token,
which means nothing, or a command: a keyword with its arguments and, after a `repeat`, a body. A body
is items in braces, or one item, or nothing where the tokens end.

The relations say what a list of tokens starts with and what follows. Nothing here is computed:
`Program.parse` is compared with `Items` in `Easel.Proofs.Program.Parsing`.
-/

namespace Easel.Grammar

/-! ## Words -/

/-- The token is the keyword `k`, in upper or lower case or a mix of the two. -/
def IsKeyword (t : Token) (k : Keyword) : Prop :=
  t.kind = .command ∧ t.text.map Char.toLower = k.spelling

/-- The token is a number token that starts with a digit, and its longest literal has the value `v`. -/
def IsNumber (t : Token) (v : Float) : Prop :=
  t.kind = .number ∧ (∃ c ∈ t.text.toList.head?, c.isDigit) ∧ Number.read? t.text = some v

/-- The token is the identifier `name`. -/
def IsName (t : Token) (name : String) : Prop :=
  t.kind = .identifier ∧ t.text = name

/-- The next token, if there is one, is not the operator `op`. -/
def NotNext (op : Char) (tokens : List Token) : Prop :=
  ∀ t ∈ tokens.head?, ¬ t.isOperator op

/-! ## Commands -/

/-- The arguments of a keyword other than `repeat`, and the command that they make. -/
inductive Arguments : Keyword → List Token → Command → Prop
  | pen {t size} : IsNumber t size → Arguments .pen [t] (.draw (.pen size))
  | paper {t level} : IsNumber t level → Arguments .paper [t] (.draw (.paper level))
  | color {t level} : IsNumber t level → Arguments .color [t] (.draw (.color level))
  | line {t₁ t₂ t₃ t₄ x₁ y₁ x₂ y₂} : IsNumber t₁ x₁ → IsNumber t₂ y₁ → IsNumber t₃ x₂ → IsNumber t₄ y₂ →
      Arguments .line [t₁, t₂, t₃, t₄] (.draw (.shape (.line ⟨x₁, y₁⟩ ⟨x₂, y₂⟩)))
  | rect {t₁ t₂ t₃ t₄ x₁ y₁ x₂ y₂} : IsNumber t₁ x₁ → IsNumber t₂ y₁ → IsNumber t₃ x₂ → IsNumber t₄ y₂ →
      Arguments .rect [t₁, t₂, t₃, t₄] (.draw (.shape (.rect ⟨x₁, y₁⟩ ⟨x₂, y₂⟩)))
  | circle {t₁ t₂ t₃ x y radius} : IsNumber t₁ x → IsNumber t₂ y → IsNumber t₃ radius →
      Arguments .circle [t₁, t₂, t₃] (.draw (.shape (.circle ⟨x, y⟩ radius)))
  | set {t₁ t₂ name value} : IsName t₁ name → IsNumber t₂ value → Arguments .set [t₁, t₂] (.set name value)

mutual

/-- `tokens` start with an item, which is a command or means nothing, and `rest` follows it. -/
inductive Item : List Token → Option Command → List Token → Prop
  | stray {t rest} : t.kind ≠ .command → Item (t :: rest) none rest
  | command {t k arguments c rest} : IsKeyword t k → Arguments k arguments c →
      Item (t :: (arguments ++ rest)) (some c) rest
  | repeat {t u count tokens body rest} : IsKeyword t .repeat → IsNumber u count → Body tokens body rest →
      Item (t :: u :: tokens) (some (.repeat count body)) rest

/-- `tokens` start with the body of a repeat, and `rest` follows it. Only at the end of the input there
may be no body at all. -/
inductive Body : List Token → List Command → List Token → Prop
  | block {brace tokens body rest} : brace.isOperator '\x7b' → Block tokens body rest →
      Body (brace :: tokens) body rest
  | single {tokens item rest} : NotNext '\x7b' tokens → Item tokens item rest → Body tokens item.toList rest
  | missing : Body [] [] []

/-- `tokens` start with items and the brace that closes them, and `rest` follows it. No item starts at a
closing brace. -/
inductive Block : List Token → List Command → List Token → Prop
  | close {brace rest} : brace.isOperator '\x7d' → Block (brace :: rest) [] rest
  | item {tokens item rest body rest'} : NotNext '\x7d' tokens → Item tokens item rest → Block rest body rest' →
      Block tokens (item.toList ++ body) rest'

end

/-- `tokens` are items, and `p` are their commands. -/
inductive Items : List Token → Program → Prop
  | nil : Items [] []
  | cons {tokens item rest p} : Item tokens item rest → Items rest p → Items tokens (item.toList ++ p)

/-! ## What is left -/

mutual

theorem length_lt_of_item {tokens rest : List Token} {item : Option Command} (h : Item tokens item rest) :
    rest.length < tokens.length :=
  match h with
  | .stray _ => Nat.lt_succ_self _
  | .command _ _ => by
    simp only [List.length_cons, List.length_append]
    omega
  | .repeat _ _ hb => by
    have := length_le_of_body hb
    simp only [List.length_cons]
    omega

theorem length_le_of_body {tokens rest : List Token} {body : List Command} (h : Body tokens body rest) :
    rest.length ≤ tokens.length :=
  match h with
  | .block _ hb => Nat.le_succ_of_le (length_le_of_block hb)
  | .single _ hitem => Nat.le_of_lt (length_lt_of_item hitem)
  | .missing => Nat.le_refl _

theorem length_le_of_block {tokens rest : List Token} {body : List Command} (h : Block tokens body rest) :
    rest.length ≤ tokens.length :=
  match h with
  | .close _ => Nat.le_succ _
  | .item _ hitem hb => Nat.le_trans (length_le_of_block hb) (Nat.le_of_lt (length_lt_of_item hitem))

end

mutual

theorem suffix_of_item {tokens rest : List Token} {item : Option Command} (h : Item tokens item rest) :
    rest <:+ tokens :=
  match h with
  | .stray _ => List.suffix_cons _ _
  | .command _ _ => (List.suffix_append _ _).trans (List.suffix_cons _ _)
  | .repeat _ _ hb => (suffix_of_body hb).trans ((List.suffix_cons _ _).trans (List.suffix_cons _ _))

theorem suffix_of_body {tokens rest : List Token} {body : List Command} (h : Body tokens body rest) :
    rest <:+ tokens :=
  match h with
  | .block _ hb => (suffix_of_block hb).trans (List.suffix_cons _ _)
  | .single _ hitem => suffix_of_item hitem
  | .missing => List.suffix_rfl

theorem suffix_of_block {tokens rest : List Token} {body : List Command} (h : Block tokens body rest) :
    rest <:+ tokens :=
  match h with
  | .close _ => List.suffix_cons _ _
  | .item _ hitem hb => (suffix_of_block hb).trans (suffix_of_item hitem)

end

/-! ## Words as they are read -/

theorem ofWord?_of_isKeyword {t : Token} {k : Keyword} (h : IsKeyword t k) :
    Keyword.ofWord? t.text = some k :=
  (Keyword.ofWord?_eq_some_iff t.text k).2 h.2

theorem number?_eq_some_iff (t : Token) (v : Float) : t.number? = some v ↔ IsNumber t v := by
  unfold Token.number? IsNumber
  rw [← Number.read?_isSome_iff, Option.ite_none_right_eq_some]
  constructor
  · rintro ⟨hk, hv⟩
    exact ⟨hk, by simp [hv], hv⟩
  · rintro ⟨hk, -, hv⟩
    exact ⟨hk, hv⟩

theorem name?_eq_some_iff (t : Token) (name : String) : t.name? = some name ↔ IsName t name := by
  simp [Token.name?, IsName]

theorem kind_of_isOperator {t : Token} {op : Char} (h : t.isOperator op) : t.kind = .operator := by
  simp only [Token.isOperator, Bool.and_eq_true, decide_eq_true_eq] at h
  exact h.1

/-- Arguments are numbers and names, and never commands or operators. -/
theorem kind_of_arguments {k : Keyword} {arguments : List Token} {c : Command} (h : Arguments k arguments c) :
    ∀ t ∈ arguments, t.kind = .number ∨ t.kind = .identifier := by
  cases h with
  | pen h | paper h | color h => simp [h.1]
  | line h₁ h₂ h₃ h₄ | rect h₁ h₂ h₃ h₄ => simp [h₁.1, h₂.1, h₃.1, h₄.1]
  | circle h₁ h₂ h₃ => simp [h₁.1, h₂.1, h₃.1]
  | set h₁ h₂ => simp [h₁.1, h₂.1]

end Easel.Grammar
