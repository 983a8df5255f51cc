import Easel.Number.Whole
import Mathlib.Data.Rat.Floor

/-!
# The value of a double

A finite double is a rational number, `value?`. The whole part that is computed from a significand
and an exponent is the floor of that number.

`wholePart_eq_floor`: the whole part of a double is the floor of its value, where that is positive.
-/

namespace Easel.Number

open Float.Model.UnpackedFloat

/-- The number that a double is; none for infinities and NaN. -/
def value? (x : Float) : Option ℚ :=
  match x.toModel.unpack with
  | .finite s m e _ => some (s.apply m * 2 ^ e)
  | .zero _ => some 0
  | _ => none

theorem floor_scaled (m : ℕ) (e : ℤ) : ⌊(m : ℚ) * 2 ^ e⌋ = floorScaled m e := by
  cases e with
  | ofNat k =>
    have h : (m : ℚ) * 2 ^ (k : ℤ) = (m <<< k : ℕ) := by
      rw [Nat.shiftLeft_eq, zpow_natCast]
      push_cast
      rfl
    exact (congrArg Int.floor h).trans (Int.floor_natCast _)
  | negSucc k =>
    have h : (m : ℚ) * 2 ^ Int.negSucc k = (m : ℚ) / (2 ^ (k + 1) : ℕ) := by
      rw [zpow_negSucc, div_eq_mul_inv]
      push_cast
      rfl
    rw [h, Rat.floor_natCast_div_natCast]
    simp only [floorScaled, Nat.shiftRight_eq_div_pow]
    push_cast
    rfl

/-- A number with a minus sign has no positive floor. -/
theorem floor_neg_scaled_nonpos (m : ℕ) (e : ℤ) : ⌊((Sign.negative.apply m : ℤ) : ℚ) * 2 ^ e⌋ ≤ 0 := by
  have hle : ((Sign.negative.apply m : ℤ) : ℚ) * 2 ^ e ≤ 0 := by
    refine mul_nonpos_of_nonpos_of_nonneg ?_ (zpow_nonneg zero_le_two e)
    simp [Sign.apply]
  simpa using Int.floor_mono hle

theorem wholePart_eq_floor (x : Float) : wholePart x = (value? x).elim 0 fun q => ⌊q⌋.toNat := by
  unfold wholePart value?
  cases x.toModel.unpack with
  | infinity s => rfl
  | notANumber => rfl
  | zero s => rfl
  | finite s m e pos =>
    cases s with
    | positive =>
      have h := floor_scaled m e
      simp only [Option.elim_some, Sign.apply, Int.cast_natCast]
      rw [h, Int.toNat_natCast]
    | negative =>
      have h := floor_neg_scaled_nonpos m e
      simp only [Option.elim_some]
      omega

end Easel.Number
