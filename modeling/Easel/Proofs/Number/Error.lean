import Easel.Proofs.Number.Integral

/-!
# Rounding errors

Within `2^k` rounding to a double moves a number by `2^(k - 54)` at most (`abs_nearest_sub_le_of_abs_le`).

A whole number stays one when it is rounded (`exists_nearest_eq_intCast`), and is on the same side of every
number of 53 bits (`le_nearest_intCast_iff`, `nearest_intCast_le_iff`). So doubles of any size compare with small ones
as the whole numbers do that they are made from (`hasValue_ofInt_nearest`).
-/

namespace Easel.Number

open Float.Model Float.Model.UnpackedFloat

/-! ## Bounds -/

theorem abs_nearest_sub_le_of_abs_le {x : ℝ} {k : ℤ} (hk : -1021 ≤ k) (hx : |x| ≤ 2 ^ k) :
    |nearest x - x| ≤ 2 ^ (k - 54) := by
  -- The nearest multiple of `2^(k - 53)` is a double, and no further away than half of that.
  have hpos : (0 : ℝ) < 2 ^ (k - 53) := by positivity
  have hscale : (2 : ℝ) ^ k = 2 ^ 53 * 2 ^ (k - 53) := by
    rw [← zpow_natCast, ← zpow_add₀ two_ne_zero]
    congr 1
    push_cast
    ring
  have hbinary : IsBinary (roundEven (x / 2 ^ (k - 53)) * 2 ^ (k - 53)) := by
    refine ⟨_, _, ?_, by omega, rfl⟩
    have hquotient : |x / 2 ^ (k - 53)| ≤ 2 ^ 53 := by
      rw [abs_div, abs_of_pos hpos, div_le_iff₀ hpos, ← hscale]
      exact hx
    rw [abs_le] at hquotient ⊢
    exact ⟨le_roundEven (by push_cast; linarith), roundEven_le (by push_cast; linarith)⟩
  have hhalf : |(roundEven (x / 2 ^ (k - 53)) : ℝ) - x / 2 ^ (k - 53)| ≤ 1 / 2 := by
    refine (abs_roundEven_sub_le _ (round (x / 2 ^ (k - 53)))).trans ?_
    rw [abs_sub_comm]
    exact abs_sub_round _
  calc
    |nearest x - x| ≤ |roundEven (x / 2 ^ (k - 53)) * 2 ^ (k - 53) - x| := abs_nearest_sub_le x hbinary
    _ = |(roundEven (x / 2 ^ (k - 53)) : ℝ) - x / 2 ^ (k - 53)| * 2 ^ (k - 53) := by
      rw [← abs_of_pos hpos, ← abs_mul, abs_of_pos hpos, sub_mul, div_mul_cancel₀ _ hpos.ne']
    _ ≤ 1 / 2 * 2 ^ (k - 53) := mul_le_mul_of_nonneg_right hhalf hpos.le
    _ = 2 ^ (k - 54) := by
      rw [show k - 53 = k - 54 + 1 by ring, zpow_add₀ two_ne_zero]
      ring

/-! ## Whole numbers of any size -/

theorem exists_nearest_eq_intCast (n : ℤ) : ∃ m : ℤ, nearest n = m := by
  rcases le_or_gt |n| (2 ^ 53) with h | h
  · exact ⟨n, nearest_intCast h⟩
  · -- The last bit is no less than one.
    have hlog : (53 : ℤ) ≤ Int.log 2 |(n : ℝ)| := by
      have hpos : (0 : ℝ) < |(n : ℝ)| := by
        rw [← Int.cast_abs]
        exact_mod_cast (by positivity : (0 : ℤ) < 2 ^ 53).trans h
      refine (Int.zpow_le_iff_le_log one_lt_two hpos).1 ?_
      rw [← Int.cast_abs]
      exact_mod_cast h.le
    obtain ⟨k, hk⟩ := Int.eq_ofNat_of_zero_le (show 0 ≤ lastExponent n by rw [lastExponent]; omega)
    refine ⟨roundEven (n / 2 ^ lastExponent n) * 2 ^ k, ?_⟩
    rw [nearest, hk, Int.cast_mul, Int.cast_pow, Int.cast_ofNat]
    norm_cast

theorem le_nearest_intCast_iff {k n : ℤ} (hk : |k| < 2 ^ 53) : (k : ℝ) ≤ nearest n ↔ k ≤ n := by
  rw [abs_lt] at hk
  constructor
  · intro h
    by_contra hlt
    have hle : nearest n ≤ ((k - 1 : ℤ) : ℝ) :=
      nearest_le (isBinary_intCast (by rw [abs_le]; omega)) (by exact_mod_cast (by omega : n ≤ k - 1))
    have := h.trans hle
    exact absurd (Int.cast_le.1 this) (by omega)
  · intro h
    exact le_nearest (isBinary_intCast (by rw [abs_le]; omega)) (by exact_mod_cast h)

theorem nearest_intCast_le_iff {k n : ℤ} (hk : |k| < 2 ^ 53) : nearest n ≤ (k : ℝ) ↔ n ≤ k := by
  have h := le_nearest_intCast_iff (k := -k) (n := -n) (by rwa [abs_neg])
  rwa [Int.cast_neg, Int.cast_neg, nearest_neg, neg_le_neg_iff, neg_le_neg_iff] at h

/-- A natural number is scaled down from one with bits to spare, and so rounded once. -/
theorem isRounding_ofScientific_natural {n : ℕ} (hpos : 0 < n) :
    IsRounding (UnpackedFloat.ofScientific .binary64 n 0) n := by
  have hexact : (n : ℝ) / (2 : ℝ) ^ (-53 : ℤ) = (n <<< 53 : ℕ) := by
    rw [Nat.shiftLeft_eq, zpow_neg, div_inv_eq_mul]
    push_cast
    norm_cast
  have hbits : Format.binary64.mantissaBits = 53 := rfl
  unfold UnpackedFloat.ofScientific
  rw [dif_neg hpos.ne', if_neg (not_lt.2 (by positivity)), if_neg (not_lt.2 (neg_nonpos.2 (by positivity))),
    if_pos le_rfl]
  simp only [UnpackedFloat.mul, hbits, Int.toNat_zero, pow_zero, mul_one, add_zero]
  refine isRounding_roundWithAccuracy .positive (x := n) (by exact_mod_cast hpos) ?_ ?_
  · rw [Nat.cast_ofNat, hexact]
    exact approximates_exact _
  · have hlog : (0 : ℤ) ≤ Int.log 2 |(n : ℝ)| := by
      refine (Int.zpow_le_iff_le_log one_lt_two (by positivity)).1 ?_
      rw [zpow_zero, Nat.abs_cast]
      exact_mod_cast hpos
    rw [lastExponent]
    omega

/-- Natural numbers of more than 53 bits become doubles by being rounded once. -/
theorem exists_isRounding_ofNat {n : ℕ} (hn : 2 ^ 53 ≤ n) : ∃ u, Float.ofNat n = .ofModel (.pack u) ∧ IsRounding u n := by
  refine ⟨UnpackedFloat.ofScientific .binary64 n 0, ?_, isRounding_ofScientific_natural (by omega)⟩
  show Float.ofScientific n false 0 = _
  rw [Float.ofScientific, dif_neg (by omega)]
  rfl

theorem hasValue_ofNat_nearest {n : ℕ} (hn : (n : ℝ) ≤ 2 ^ 1023) : HasValue (Float.ofNat n) (nearest n) := by
  rcases Nat.lt_or_ge n (2 ^ 53) with hlt | hge
  · rw [nearest_of_isBinary (isBinary_natCast hlt)]
    exact hasValue_ofNat hlt
  · obtain ⟨u, hu, hrounding⟩ := exists_isRounding_ofNat hge
    rw [hu]
    refine hrounding.hasValue ?_
    rwa [Nat.abs_cast]

theorem hasValue_ofInt_nearest {n : ℤ} (hn : |(n : ℝ)| ≤ 2 ^ 1023) : HasValue (Float.ofInt n) (nearest n) := by
  cases n with
  | ofNat n =>
    rw [Int.ofNat_eq_natCast, Int.cast_natCast, Nat.abs_cast] at hn
    exact hasValue_ofNat_nearest hn
  | negSucc n =>
    rw [Int.cast_negSucc, abs_neg, Nat.abs_cast] at hn
    rw [Int.cast_negSucc, nearest_neg]
    exact (hasValue_ofNat_nearest hn).neg

end Easel.Number
