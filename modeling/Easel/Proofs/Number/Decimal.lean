import Easel.Proofs.Number.Error

/-!
# Decimal numbers

`Float.ofScientific m true e` is the double nearest to `m / 10^e` (`hasValue_ofScientific`), whichever way it is
calculated: by a quotient of doubles that are exact, by a quotient of whole numbers, or as zero where there is
nothing else left. From halfway between the greatest double and `2^1024` on there is no double any more
(`le_nearest_iff`), and the number becomes infinite (`ofScientific_eq_infinity`).
-/

namespace Easel.Number

open Float.Model Float.Model.UnpackedFloat

/-! ## Where doubles end -/

/-- Halfway between the greatest double, `(2^53 - 1) · 2^971`, and the next power of two. -/
def overflow : ℝ := ((2 ^ 54 - 1) * 2 ^ 970 : ℕ)

theorem overflow_eq : overflow = (2 ^ 54 - 1) * 2 ^ 970 := by
  have hfactor : ((2 ^ 54 - 1 : ℕ) : ℝ) = 2 ^ 54 - 1 := by norm_num
  rw [overflow, Nat.cast_mul, Nat.cast_pow, hfactor, Nat.cast_ofNat]

theorem overflow_bounds : (2 : ℝ) ^ 1023 ≤ overflow ∧ overflow < 2 ^ 1024 := by
  have hpos : (0 : ℝ) < 2 ^ 970 := by positivity
  have hlower : (2 : ℝ) ^ 1023 = 2 ^ 53 * 2 ^ 970 := by rw [← pow_add]
  have hupper : (2 : ℝ) ^ 1024 = 2 ^ 54 * 2 ^ 970 := by rw [← pow_add]
  rw [overflow_eq, hlower, hupper]
  exact ⟨mul_le_mul_of_nonneg_right (by norm_num) hpos.le, mul_lt_mul_of_pos_right (by norm_num) hpos⟩

theorem overflow_pos : 0 < overflow := lt_of_lt_of_le (by positivity) overflow_bounds.1

theorem lastExponent_overflow : lastExponent overflow = (971 : ℕ) := by
  have hlower : (2 : ℝ) ^ (1023 : ℤ) ≤ overflow := by exact_mod_cast overflow_bounds.1
  have hupper : overflow < (2 : ℝ) ^ (1024 : ℤ) := by exact_mod_cast overflow_bounds.2
  have hle := (Int.zpow_le_iff_le_log one_lt_two overflow_pos).1 hlower
  have hlt := (Int.lt_zpow_iff_log_lt one_lt_two overflow_pos).1 hupper
  rw [lastExponent, abs_of_pos overflow_pos]
  push_cast
  omega

/-- The tie goes to the even significand, which is that of the power of two. -/
theorem nearest_overflow : nearest overflow = 2 ^ 1024 := by
  have htie : overflow / 2 ^ ((971 : ℕ) : ℤ) = ((2 ^ 53 - 1 : ℤ) : ℝ) + 1 / 2 := by
    rw [overflow_eq, zpow_natCast, pow_succ (2 : ℝ) 970, div_eq_iff (by positivity)]
    generalize (2 : ℝ) ^ 970 = c
    push_cast
    ring
  have heven : (2 ^ 53 - 1 : ℤ) + (2 ^ 53 - 1 : ℤ) % 2 = 2 ^ 53 := by norm_num
  rw [nearest, lastExponent_overflow, htie, roundEven_add_half, heven, zpow_natCast, Int.cast_pow, Int.cast_ofNat,
    ← pow_add]

/-- The double below `2^1024`. -/
theorem isBinary_greatest : IsBinary ((2 ^ 54 - 2) * 2 ^ 970) := by
  refine ⟨2 ^ 53 - 1, (971 : ℕ), by norm_num, by norm_num, ?_⟩
  rw [zpow_natCast, pow_succ' (2 : ℝ) 970]
  generalize (2 : ℝ) ^ 970 = c
  push_cast
  ring

/-- Rounding reaches `2^1024` from `overflow` on. -/
theorem le_nearest_iff (x : ℝ) : 2 ^ 1024 ≤ nearest x ↔ overflow ≤ x := by
  constructor
  · intro h
    by_contra! hlt
    have hgreatest := isBinary_greatest
    have hpower : (2 : ℝ) ^ 1024 = 2 ^ 54 * 2 ^ 970 := by rw [← pow_add]
    have hpos : (0 : ℝ) < 2 ^ 970 := by positivity
    rw [hpower] at h
    rw [overflow_eq] at hlt
    generalize (2 : ℝ) ^ 970 = c at hgreatest h hlt hpos
    -- What is below the tie is nearer to the greatest double, or not even greater.
    have hbelow : (2 ^ 54 - 2) * c < 2 ^ 54 * c := mul_lt_mul_of_pos_right (by norm_num) hpos
    rcases le_or_gt x ((2 ^ 54 - 2) * c) with hle | hgt
    · exact absurd (h.trans (nearest_le hgreatest hle)) (not_le.2 hbelow)
    · have hnear := abs_nearest_sub_le x hgreatest
      have hbetween : 2 * x < (2 ^ 54 - 2) * c + 2 ^ 54 * c := by
        calc
          2 * x < 2 * ((2 ^ 54 - 1) * c) := mul_lt_mul_of_pos_left hlt two_pos
          _ = (2 ^ 54 - 2) * c + 2 ^ 54 * c := by ring
      generalize (2 ^ 54 - 2) * c = g at hgt hnear hbetween
      generalize 2 ^ 54 * c = top at h hbetween
      rw [abs_of_neg (sub_neg.2 hgt), abs_le] at hnear
      linarith [hnear.2]
  · intro h
    rw [← nearest_overflow]
    exact nearest_mono h

/-- A rounding has a double, as long as there is one. -/
theorem IsRounding.hasValue_of_lt {u : UnpackedFloat} {x : ℝ} (h : IsRounding u x) (hx : 0 ≤ x) (hlt : x < overflow) :
    HasValue (.ofModel (.pack u)) (nearest x) := by
  refine hasValue_pack h.isCanonical h.denotes ?_
  rw [abs_of_nonneg (le_nearest isBinary_zero hx), ← not_le, le_nearest_iff, not_le]
  exact hlt

/-- A rounding that there is no double for is packed as infinity. -/
theorem IsRounding.pack_eq {u : UnpackedFloat} {x : ℝ} (h : IsRounding u x) (hle : overflow ≤ x) :
    Float.Model.pack u = Float.Model.pack (.infinity .positive) := by
  have hnearest := (le_nearest_iff x).2 hle
  have hpos : 0 < nearest x := lt_of_lt_of_le (by positivity) hnearest
  obtain ⟨hu, hr⟩ := h
  cases u with
  | infinity | notANumber => exact hr.elim
  | zero s => exact absurd hr hpos.ne'
  | finite s m e hm =>
    have hvalue : nearest x = signed s (m * 2 ^ e) := hr
    have hscaled : (0 : ℝ) < m * 2 ^ e := by positivity
    cases s with
    | negative => exact absurd hvalue (hpos.trans' (neg_neg_of_pos hscaled)).ne'
    | positive =>
      have he : 972 ≤ e := by
        have hlt : (2 : ℝ) ^ (1024 : ℤ) < 2 ^ (53 + e) := by
          calc
            (2 : ℝ) ^ (1024 : ℤ) ≤ m * 2 ^ e := by
              rw [show (m : ℝ) * 2 ^ e = nearest x from hvalue.symm]
              exact_mod_cast hnearest
            _ < ((2 ^ 53 : ℕ) : ℝ) * 2 ^ e := mul_lt_mul_of_pos_right (by exact_mod_cast hu.1) (by positivity)
            _ = 2 ^ (53 + e) := by rw [zpow_add₀ two_ne_zero]; norm_num
        have := (zpow_lt_zpow_iff_right₀ one_lt_two).1 hlt
        omega
      have hbits : UnpackedFloat.pack .binary64 (.finite .positive m e hm) = packedInfinity .binary64 .positive := by
        have hbiased : (2 : ℕ) ^ 11 ≤ (e + Format.binary64.exponentBias +
            Format.binary64.mantissaBitsWithoutImplicit : ℤ).toNat + 1 := by
          simp only [Format.exponentBias]
          omega
        rw [UnpackedFloat.pack]
        exact if_pos hbiased
      simp only [Float.Model.pack, hbits]
      rfl

/-! ## Scientific notation -/

/-- Nothing but zero is near. -/
theorem nearest_eq_zero {x : ℝ} (hx : |x| < 2 ^ (-1075 : ℤ)) : nearest x = 0 := by
  have hround : roundEven (x / 2 ^ lastExponent x) = 0 := by
    refine roundEven_eq_of_abs_sub_lt ?_
    have hpos : (0 : ℝ) < 2 ^ lastExponent x := by positivity
    have hleast : (2 : ℝ) ^ (-1074 : ℤ) ≤ 2 ^ lastExponent x := zpow_le_zpow_right₀ one_le_two (le_max_right _ _)
    have hhalf : (2 : ℝ) ^ (-1075 : ℤ) = 1 / 2 * 2 ^ (-1074 : ℤ) := by
      rw [show (-1075 : ℤ) = -1 + -1074 by norm_num, zpow_add₀ two_ne_zero]
      norm_num
    rw [Int.cast_zero, sub_zero, abs_div, abs_of_pos hpos, div_lt_iff₀ hpos]
    linarith
  rw [nearest, hround, Int.cast_zero, zero_mul]

/-- A quotient by a much greater power of ten is as good as zero. -/
theorem div_pow_lt {m e : ℕ} (h : 2048 + m.log2 < e) : (m : ℝ) / 10 ^ e < 2 ^ (-1075 : ℤ) := by
  have hlt : (m : ℝ) < 2 ^ (m.log2 + 1) := by exact_mod_cast Nat.lt_log2_self
  have hpow : (2 : ℝ) ^ e ≤ 10 ^ e := pow_le_pow_left₀ zero_le_two (by norm_num) e
  rw [div_lt_iff₀ (by positivity)]
  calc
    (m : ℝ) < 2 ^ (m.log2 + 1) := hlt
    _ ≤ 2 ^ (-1075 : ℤ) * 2 ^ e := by
      rw [← zpow_natCast, ← zpow_natCast, ← zpow_add₀ two_ne_zero]
      exact zpow_le_zpow_right₀ one_le_two (by push_cast; omega)
    _ ≤ 2 ^ (-1075 : ℤ) * 10 ^ e := mul_le_mul_of_nonneg_left hpow (by positivity)

theorem isRounding_ofScientific (m e : ℕ) :
    IsRounding (UnpackedFloat.ofScientific .binary64 m (-e)) (m / 10 ^ e) := by
  rcases Nat.eq_zero_or_pos m with rfl | hm
  · have hzero : UnpackedFloat.ofScientific .binary64 0 (-e) = .zero .positive := by
      rw [UnpackedFloat.ofScientific, dif_pos rfl]
    rw [hzero, Nat.cast_zero, zero_div]
    exact ⟨trivial, nearest_zero⟩
  rcases Nat.eq_zero_or_pos e with rfl | he
  · simpa using isRounding_ofScientific_natural hm
  unfold UnpackedFloat.ofScientific
  rw [dif_neg hm.ne']
  rw [if_neg (not_lt.2 ((Int.neg_nonpos_of_nonneg (Int.natCast_nonneg e)).trans (by positivity)))]
  split
  · next hsmall =>
    have hbits : (Format.binary64.exponentBits : ℕ) = 11 := rfl
    have hlt : 2048 + m.log2 < e := by
      rw [hbits] at hsmall
      omega
    refine ⟨trivial, nearest_eq_zero ?_⟩
    rw [abs_of_nonneg (by positivity)]
    exact div_pow_lt hlt
  · rw [if_neg (by omega)]
    have hexponent : (-(-(e : ℤ))).toNat = e := by omega
    have hdenotes {n : ℕ} (hn : 0 < n) : Denotes (.finite .positive n 0 hn) n := by
      show (n : ℝ) = n * 2 ^ (0 : ℤ)
      rw [zpow_zero, mul_one]
    have hpow : ((10 ^ e : ℕ) : ℝ) ≠ 0 := by positivity
    have hdiv := isRounding_div (hdenotes hm) (hdenotes (n := 10 ^ e) (by positivity)) hpow
    rw [Nat.cast_pow, Nat.cast_ofNat] at hdiv
    simp only [hexponent]
    exact hdiv

theorem value?_powersOfTen : ∀ e : Fin 23, value? Float.exactlyRepresentablePowersOfTen[e] = some (10 ^ e.val) := by
  decide +kernel

theorem hasValue_powersOfTen {e : ℕ} (he : e < Float.exactlyRepresentablePowersOfTen.size) :
    HasValue Float.exactlyRepresentablePowersOfTen[e] (10 ^ e) :=
  ⟨10 ^ e, value?_powersOfTen ⟨e, he⟩, by push_cast; rfl⟩

/-- Where numerator and denominator are doubles, their quotient is rounded once. -/
theorem hasValue_ofScientific_of_exact {m e : ℕ} (h : m < 2 ^ 53 ∧ e ≤ 22) :
    HasValue (Float.ofScientific m true e) (nearest (m / 10 ^ e)) := by
  have hsize : e < Float.exactlyRepresentablePowersOfTen.size := Nat.lt_succ_of_le h.2
  have hbound : |(m : ℝ) / 10 ^ e| ≤ 2 ^ 1023 := by
    rw [abs_of_nonneg (by positivity)]
    calc
      (m : ℝ) / 10 ^ e ≤ m := div_le_self (Nat.cast_nonneg m) (one_le_pow₀ (by norm_num))
      _ ≤ 2 ^ 53 := by exact_mod_cast h.1.le
      _ ≤ 2 ^ 1023 := pow_le_pow_right₀ one_le_two (by norm_num)
  have hquotient := (hasValue_toUInt64 h.1).div (hasValue_powersOfTen hsize) (by positivity) hbound
  rw [Float.ofScientific, dif_pos h]
  exact hquotient

theorem ofScientific_of_not_exact {m e : ℕ} (h : ¬ (m < 2 ^ 53 ∧ e ≤ 22)) :
    Float.ofScientific m true e = .ofModel (.pack (UnpackedFloat.ofScientific .binary64 m (-e))) := by
  rw [Float.ofScientific, dif_neg h]
  cases e <;> rfl

/-- The double nearest to a decimal number below `overflow`. -/
theorem hasValue_ofScientific {m e : ℕ} (hlt : (m : ℝ) / 10 ^ e < overflow) :
    HasValue (Float.ofScientific m true e) (nearest (m / 10 ^ e)) := by
  by_cases hexact : m < 2 ^ 53 ∧ e ≤ 22
  · exact hasValue_ofScientific_of_exact hexact
  · rw [ofScientific_of_not_exact hexact]
    have hnonneg : (0 : ℝ) ≤ m / 10 ^ e := div_nonneg (Nat.cast_nonneg m) (pow_nonneg (by norm_num) e)
    exact (isRounding_ofScientific m e).hasValue_of_lt hnonneg hlt

/-- From `overflow` on a decimal number becomes infinite. -/
theorem ofScientific_eq_infinity {m e : ℕ} (hle : overflow ≤ (m : ℝ) / 10 ^ e) :
    Float.ofScientific m true e = .ofModel (.pack (.infinity .positive)) := by
  have hinexact : ¬ (m < 2 ^ 53 ∧ e ≤ 22) := by
    rintro ⟨hm, -⟩
    have hle' : overflow ≤ 2 ^ 53 := by
      calc
        overflow ≤ (m : ℝ) / 10 ^ e := hle
        _ ≤ m := div_le_self (Nat.cast_nonneg m) (one_le_pow₀ (by norm_num))
        _ ≤ 2 ^ 53 := by exact_mod_cast hm.le
    have hlt : (2 : ℝ) ^ 53 < 2 ^ 1023 := pow_lt_pow_right₀ one_lt_two (by norm_num)
    exact absurd (overflow_bounds.1.trans hle') (not_le.2 hlt)
  rw [ofScientific_of_not_exact hinexact, (isRounding_ofScientific m e).pack_eq hle]

theorem value?_infinity : value? (.ofModel (.pack (.infinity .positive))) = none := by decide +kernel

end Easel.Number
