import Mathlib.Algebra.Order.Ring.Int

/-!
# Words

A word is a signed integer of 64 bits. `word?` passes words on and refuses other integers, so a calculation that
passes every result through it overflows nowhere if it is not refused.
-/

namespace Easel.Number

/-- The integer has 64 bits, one of them for the sign. -/
def IsWord (n : ℤ) : Prop := -2 ^ 63 ≤ n ∧ n < 2 ^ 63

instance : DecidablePred IsWord := fun _ => inferInstanceAs (Decidable (_ ∧ _))

/-- The integer, refused if it is not a word. -/
def word? (n : ℤ) : Option ℤ := if IsWord n then some n else none

/-- A calculation goes on with a number of 62 bits. -/
theorem word?_bind {α : Type} {n : ℤ} (h : -2 ^ 62 ≤ n ∧ n ≤ 2 ^ 62) (f : ℤ → Option α) : (word? n >>= f) = f n := by
  have hword : word? n = some n := if_pos (by unfold IsWord; omega)
  rw [hword]
  rfl

end Easel.Number
