import Easel.Proofs.Program.Assigning
import Easel.Proofs.Program.Literals

/-!
# Turns of a written repeat

A literal is read as the double nearest to its decimal value (`Source.Literal.hasValue`), or as infinity if there is
none (`Source.Literal.value?_eq_none`). A repeat that is written with it has as many turns as the whole part of that
double says (`Source.Literal.turns`), and none if the literal is too great for a double.

`Source.turns_le_of_decimal_le`: a greater literal has no fewer turns, unless it is that great.
`Source.not_turns_mono`: and then it may have fewer.
-/

namespace Easel

namespace Source

open Number

namespace Literal

theorem hasValue (l : Literal) (h : (l.decimal : ℝ) < overflow) : HasValue l.value (nearest l.decimal) := by
  rw [decimal_eq] at h ⊢
  rw [value_eq]
  exact hasValue_ofScientific h

theorem value?_eq_none (l : Literal) (h : overflow ≤ (l.decimal : ℝ)) : value? l.value = none := by
  rw [decimal_eq] at h
  rw [value_eq, ofScientific_eq_infinity h]
  exact value?_infinity

/-- How often a repeat with this count runs: as often as the whole part of the nearest double says, at most
`2^64 - 1` times, and not at all if there is no double. -/
noncomputable def turns (l : Literal) : ℕ :=
  if (l.decimal : ℝ) < overflow then min ⌊nearest l.decimal⌋.toNat (2 ^ 64 - 1) else 0

theorem iterations_value (l : Literal) : iterations l.value = l.turns := by
  rw [iterations, wholePart_eq_floor, turns]
  split
  · next h =>
    obtain ⟨q, hq, hvalue⟩ := l.hasValue h
    rw [hq, ← hvalue, Rat.floor_cast]
    rfl
  · next h =>
    rw [l.value?_eq_none (not_lt.1 h)]
    rfl

theorem turns_mono {a b : Literal} (hle : a.decimal ≤ b.decimal) (hb : (b.decimal : ℝ) < overflow) :
    a.turns ≤ b.turns := by
  have hle' : (a.decimal : ℝ) ≤ b.decimal := by exact_mod_cast hle
  rw [turns, turns, if_pos hb, if_pos (hle'.trans_lt hb)]
  have hfloor := Int.toNat_le_toNat (Int.floor_mono (nearest_mono hle'))
  omega

end Literal

/-! ## A repeat as text -/

theorem isDigit_of_mem_nil : ∀ c ∈ ([] : List Char), c.isDigit := List.forall_mem_nil _

/-- A one with zeros behind it. -/
def powerOfTen (zeros : ℕ) : Literal :=
  ⟨'1' :: List.replicate zeros '0', [], nofun, by simp [List.mem_replicate], isDigit_of_mem_nil⟩

/-- `repeat`, the literal, and a block that assigns to a variable. -/
def loop (l : Literal) : String :=
  String.ofList (['r', 'e', 'p', 'e', 'a', 't', ' '] ++
    (l.chars ++ [' ', '\x7b', 's', 'e', 't', ' ', 'x', ' ', '1', '\x7d']))

/-- The block of `loop`. -/
def loopBody : List Tree :=
  [.leaf (.set ⟨'x', [], by decide, by simp, by intro k; cases k <;> decide⟩ (powerOfTen 0))]

theorem renders_loop (l : Literal) : Renders [.repeat l loopBody] (loop l) := by
  have hblank : Gap [' '] := .blank rfl .nil
  have hclosing : ∀ l ∈ some closing, IsBrace l := fun l h => .inr (Option.some.inj h).symm
  have hrepeat : IsKeywordLexeme ⟨some .command, ['r', 'e', 'p', 'e', 'a', 't']⟩ .repeat := ⟨rfl, by decide⟩
  have hset : IsKeywordLexeme ⟨some .command, ['s', 'e', 't']⟩ .set := ⟨rfl, by decide⟩
  refine ⟨_, [], _, .cons (.braces hrepeat (.cons (.leaf hset) .nil)) .nil, .nil,
    .cons hblank nofun <| .cons hblank nofun <| .cons .nil (fun _ => .inl (.inl rfl)) <|
    .cons hblank nofun <| .cons hblank nofun <| .cons .nil (fun _ => .inr hclosing) <|
    .cons .nil (fun _ => .inl (.inr rfl)) .nil, ?_⟩
  rw [loop, String.toList_ofList]
  simp [Literal.lexeme, opening, closing, Name.lexeme, Name.chars, Literal.chars, powerOfTen]

/-! ## Runs -/

theorem execute_repeat {σ : Type} [Surface σ] (m : Machine σ) (l : Literal) (body : List Tree) :
    m.execute (commands [.repeat l body]) = Nat.repeat (runAll · (commands body)) l.turns (.fresh m.surface) := by
  rw [← l.iterations_value]
  rfl

theorem read_repeat {l : Literal} {body : List Tree} {s : String} (h : Renders [.repeat l body] s) :
    Program.read s = .ok (commands [.repeat l body]) := by
  obtain ⟨ls, gap, chars, hspelled, hgap, hchars, htext⟩ := h
  exact read_of_laidOut hspelled hgap hchars htext

/-- Two texts of a repeat with the same body, one with a literal of a lesser or equal decimal value than the other.
Both are programs, and each runs the body as often as the double nearest to its literal says. The greater literal
has no fewer turns as long as there is a double for it; without one it has none. -/
theorem turns_le_of_decimal_le {a b : Literal} {body : List Tree} {s t : String} (hs : Renders [.repeat a body] s)
    (ht : Renders [.repeat b body] t) (hle : a.decimal ≤ b.decimal) :
    ∃ p q, Program.read s = .ok p ∧ Program.read t = .ok q ∧
      (∀ {σ : Type} [Surface σ] (m : Machine σ),
        m.execute p = Nat.repeat (runAll · (commands body)) a.turns (.fresh m.surface) ∧
          m.execute q = Nat.repeat (runAll · (commands body)) b.turns (.fresh m.surface)) ∧
      ((b.decimal : ℝ) < overflow → a.turns ≤ b.turns) ∧ (overflow ≤ (b.decimal : ℝ) → b.turns = 0) := by
  refine ⟨_, _, read_repeat hs, read_repeat ht, fun m => ⟨execute_repeat m a body, execute_repeat m b body⟩,
    Literal.turns_mono hle, fun hoverflow => ?_⟩
  rw [Literal.turns, if_neg (not_lt.2 hoverflow)]

/-- The texts with `2.5` and with `10`. -/
theorem turns_le_of_decimal_le_fraction :
    let a : Literal := ⟨['2'], ['5'], nofun, by simp, by simp⟩
    let b : Literal := powerOfTen 1
    Renders [.repeat a loopBody] (loop a) ∧ Renders [.repeat b loopBody] (loop b) ∧ a.decimal ≤ b.decimal ∧
      (b.decimal : ℝ) < overflow ∧ a.turns ≤ b.turns := by
  intro a b
  have hle : a.decimal ≤ b.decimal := by decide +kernel
  have hb : b.decimal = 10 := by decide +kernel
  have hlt : (b.decimal : ℝ) < overflow := by
    rw [hb, Rat.cast_ofNat]
    calc
      (10 : ℝ) < 2 ^ 4 := by norm_num
      _ ≤ 2 ^ 1023 := pow_le_pow_right₀ one_le_two (by norm_num)
      _ ≤ overflow := overflow_bounds.1
  obtain ⟨_, _, -, -, -, hturns, -⟩ := turns_le_of_decimal_le (renders_loop a) (renders_loop b) hle
  exact ⟨renders_loop a, renders_loop b, hle, hlt, hturns hlt⟩

theorem turns_one : (powerOfTen 0).turns = 1 := by
  rw [← Literal.iterations_value]
  decide +kernel

theorem overflow_le_decimal : overflow ≤ ((powerOfTen 309).decimal : ℝ) := by
  have hdecimal : (powerOfTen 309).decimal = (10 ^ 309 : ℕ) := by decide +kernel
  have hle : (2 ^ 54 - 1) * 2 ^ 970 ≤ 10 ^ 309 := by decide +kernel
  rw [hdecimal, Rat.cast_natCast, overflow]
  exact (Nat.cast_le (α := ℝ)).2 hle

theorem turns_huge : (powerOfTen 309).turns = 0 := if_neg (not_lt.2 overflow_le_decimal)

/-- A literal of 310 digits is too great for a double, so that there are no turns where `1` has one. -/
theorem not_turns_mono :
    ¬ ∀ (a b : Literal) (body : List Tree) (s t : String) (p q : Program), a.decimal ≤ b.decimal →
      Renders [.repeat a body] s → Renders [.repeat b body] t → Program.read s = .ok p → Program.read t = .ok q →
      ∃ k n, k ≤ n ∧ ∀ m : Machine Recording,
        m.execute p = Nat.repeat (runAll · (commands body)) k (.fresh m.surface) ∧
          m.execute q = Nat.repeat (runAll · (commands body)) n (.fresh m.surface) := by
  intro hmono
  have hle : (powerOfTen 0).decimal ≤ (powerOfTen 309).decimal := by decide +kernel
  obtain ⟨k, n, hkn, hruns⟩ := hmono (powerOfTen 0) (powerOfTen 309) loopBody (loop (powerOfTen 0))
    (loop (powerOfTen 309)) _ _ hle (renders_loop _) (renders_loop _) (read_repeat (renders_loop _))
    (read_repeat (renders_loop _))
  obtain ⟨hone, hnone⟩ := hruns (.fresh (.blank 0 0))
  rw [execute_repeat, turns_one] at hone
  rw [execute_repeat, turns_huge] at hnone
  -- One turn sets the variable and none does not, so there is a turn, and then there are turns for the other one.
  cases n with
  | zero =>
    cases Nat.le_zero.1 hkn
    exact absurd (congrArg (·.vars.entries.length) hone) (by decide +kernel)
  | succ n =>
    have hbody (m : Machine Recording) := vars_runAll_eq m (commands loopBody)
    have hset := congrArg Machine.vars hnone
    rw [vars_repeat_eq _ _ hbody, vars_repeat_eq _ _ hbody, if_neg (Nat.succ_ne_zero n), if_pos rfl] at hset
    exact absurd (congrArg (·.entries.length) hset) (by decide +kernel)

end Source

end Easel
