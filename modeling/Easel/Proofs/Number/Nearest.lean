import Easel.Proofs.Number.Decimal
import Easel.Proofs.Number.Sign

/-!
# The nearest double

`nearest` is a formula. What it stands for is said here without one: `IsNearest v x` means that `v` is the double that
a number `x ≥ 0` is rounded to, with no double nearer to it, the last bit zero if another one is as near, and infinity
from `overflow` on.

A tie is halfway between two multiples of the last bit, and `nearest` takes the even one (`even_roundEven_of_tie`); that
is the one whose last bit is zero, also where it carries over to the next exponent (`even_mantissa`, `even_toBits`).

`isNearest_ofScientific`: decimal numbers become their nearest doubles. `ofScientific_congr`: so it does not matter how
a decimal number is written.
-/

namespace Easel.Number

open Float.Model Float.Model.UnpackedFloat

/-! ## Ties -/

/-- If another double is as near, the rounding is an even multiple of the last bit. -/
theorem even_roundEven_of_tie {x b : ℝ} (hx : 0 < x) (hb : IsBinary b) (hne : b ≠ nearest x)
    (htie : |nearest x - x| = |b - x|) : Even (roundEven (x / 2 ^ lastExponent x)) := by
  have hpos : (0 : ℝ) < 2 ^ lastExponent x := by positivity
  -- The other double is a multiple of the last bit as well: nothing below those is as near.
  obtain ⟨j, rfl⟩ : ∃ j : ℤ, b = j * 2 ^ lastExponent x := by
    rcases hb.eq_mul_or_le hx with h | ⟨k, hle, hle'⟩
    · exact h
    · have hnear := abs_nearest_sub_le_of_int x k
      rw [htie, abs_of_nonpos (sub_nonpos.2 (hle.trans hle')), abs_of_nonpos (sub_nonpos.2 hle')] at hnear
      exact ⟨k, by linarith⟩
  have hscaled :
      |(roundEven (x / 2 ^ lastExponent x) : ℝ) - x / 2 ^ lastExponent x| = |j - x / 2 ^ lastExponent x| := by
    have hscale (y : ℝ) : |y * 2 ^ lastExponent x - x| = |y - x / 2 ^ lastExponent x| * 2 ^ lastExponent x := by
      rw [← abs_of_pos hpos, ← abs_mul, abs_of_pos hpos, sub_mul, div_mul_cancel₀ x hpos.ne']
    rw [nearest, hscale, hscale] at htie
    exact mul_right_cancel₀ hpos.ne' htie
  rcases eq_add_half_or (x / 2 ^ lastExponent x) with ⟨k, hk⟩ | ⟨k, hk⟩
  · rw [hk, roundEven_add_half, Int.even_iff]
    omega
  · have hround := roundEven_eq_of_abs_sub_lt hk
    rw [hround, abs_sub_comm, abs_sub_comm (j : ℝ)] at hscaled
    rw [hscaled] at hk
    exact absurd (by rw [nearest, roundEven_eq_of_abs_sub_lt hk]) hne

/-- The significand of an even multiple of a last bit is even, whatever the exponent is written as. -/
theorem even_mantissa {s : Sign} {m : ℕ} {e t k : ℤ} {hm : 0 < m} (hu : IsCanonical (.finite s m e hm)) (ht : -1074 ≤ t)
    (hk : Even k) (hbound : |k| ≤ 2 ^ 53) (hr : Denotes (.finite s m e hm) (k * 2 ^ t)) : Even m := by
  have habs : (m : ℝ) * 2 ^ e = k.natAbs * 2 ^ t := by
    calc
      (m : ℝ) * 2 ^ e = |signed s (m * 2 ^ e)| := by rw [abs_signed, abs_of_nonneg (by positivity)]
      _ = |(k : ℝ) * 2 ^ t| := by rw [show (k : ℝ) * 2 ^ t = signed s (m * 2 ^ e) from hr]
      _ = k.natAbs * 2 ^ t := by
        rw [abs_mul, abs_of_pos (by positivity : (0 : ℝ) < 2 ^ t), Nat.cast_natAbs, Int.cast_abs]
  have hn : Even k.natAbs := Int.natAbs_even.2 hk
  have hn' : k.natAbs ≤ 2 ^ 53 := by
    rw [Int.abs_eq_natAbs] at hbound
    exact_mod_cast hbound
  rcases le_or_gt e t with hle | hlt
  · obtain ⟨d, rfl⟩ := Int.le.dest hle
    have hm' : m = k.natAbs * 2 ^ d := by
      rw [zpow_add₀ two_ne_zero, zpow_natCast, mul_comm ((2 : ℝ) ^ e), ← mul_assoc] at habs
      exact_mod_cast mul_right_cancel₀ (by positivity) habs
    rw [hm']
    exact hn.mul_right _
  · -- Only a significand of `2^53` is carried over, to one that is a power of two again.
    obtain ⟨d, rfl⟩ := Int.le.dest hlt.le
    have hm' : k.natAbs = m * 2 ^ d := by
      rw [zpow_add₀ two_ne_zero, zpow_natCast, mul_comm ((2 : ℝ) ^ t), ← mul_assoc] at habs
      exact_mod_cast (mul_right_cancel₀ (by positivity) habs).symm
    obtain ⟨d, rfl⟩ : ∃ d', d = d' + 1 := ⟨d - 1, by omega⟩
    obtain ⟨-, -, hfull⟩ := hu
    have hfull' : 2 ^ 52 ≤ m := hfull.resolve_right (by omega)
    have hpow := Nat.one_le_two_pow (n := d)
    have hle : 2 ^ 52 * (2 ^ d * 2) ≤ 2 ^ 53 := by
      calc
        2 ^ 52 * (2 ^ d * 2) ≤ m * (2 ^ d * 2) := Nat.mul_le_mul_right _ hfull'
        _ = k.natAbs := by rw [hm', pow_succ]
        _ ≤ 2 ^ 53 := hn'
    have hm52 : m = 2 ^ 52 := by
      have : m * 2 ≤ m * (2 ^ d * 2) := Nat.mul_le_mul_left m (by omega)
      rw [pow_succ] at hm'
      omega
    rw [hm52]
    exact ⟨2 ^ 51, by norm_num⟩

/-- The last bit of a double is the last bit of its significand. -/
theorem even_toBits {v : Float} {r : ℝ} (hv : HasValue v r)
    (heven : ∀ s m e hm, v.toModel.unpack = .finite s m e hm → Even m) : Even v.toBits.toNat := by
  have hbits (b : BitVec Format.binary64.numBits) : (unpackMantissa b).toNat % 2 = b.toNat % 2 := by
    simp [unpackMantissa, BitVec.extractLsb_toNat]
  have hr := hasValue_iff.1 hv
  rw [Nat.even_iff, show v.toBits.toNat = v.toModel.toBits.toBitVec.toNat from rfl, ← hbits]
  revert heven hr
  show (∀ s m e hm, UnpackedFloat.unpack .binary64 v.toModel.toBits.toBitVec = .finite s m e hm → Even m) →
    Denotes (UnpackedFloat.unpack .binary64 v.toModel.toBits.toBitVec) r → _
  fun_cases UnpackedFloat.unpack with
  | case1 | case2 => exact fun _ hr => hr.elim
  | case3 bits _ _ _ _ _ hzero =>
    intro _ _
    show bits.toNat % 2 = 0
    rw [hzero]
    rfl
  | case4 =>
    intro heven _
    exact Nat.even_iff.1 (heven _ _ _ _ rfl)
  | case5 bits =>
    intro heven _
    have htoNat : (1#1 ++ bits).toNat = 2 ^ 52 + bits.toNat := toNat_one_append bits
    have hparity (n : ℕ) (h : (2 ^ 52 + n) % 2 = 0) : n % 2 = 0 := by omega
    have hm := Nat.even_iff.1 (heven _ _ _ _ rfl)
    rw [htoNat] at hm
    exact hparity _ hm

/-! ## Decimal numbers -/

/-- A decimal number is packed from its rounding, which has no minus sign. -/
theorem exists_isRounding_ofScientific (m e : ℕ) :
    ∃ u, Float.ofScientific m true e = .ofModel (.pack u) ∧ IsRounding u (m / 10 ^ e) ∧ Unsigned u := by
  by_cases h : m < 2 ^ 53 ∧ e ≤ 22
  · have hsize : e < Float.exactlyRepresentablePowersOfTen.size := Nat.lt_succ_of_le h.2
    refine ⟨_, ?_, isRounding_div (hasValue_iff.1 (hasValue_toUInt64 h.1)) (hasValue_iff.1 (hasValue_powersOfTen hsize))
      (by positivity), unsigned_div _ ?_ ?_⟩
    · rw [Float.ofScientific, dif_pos h]
      rfl
    · exact unsigned_unpack_pack (unsigned_ofNat _ _) _
    · exact positive_powersOfTen _ (Array.getElem_mem _)
  · exact ⟨_, ofScientific_of_not_exact h, isRounding_ofScientific m e, unsigned_ofScientific _ _ _⟩

/-- There is one canonical form for each number that is not negative. -/
theorem eq_of_isRounding {u u' : UnpackedFloat} {x : ℝ} (h : IsRounding u x) (h' : IsRounding u' x) (hs : Unsigned u)
    (hs' : Unsigned u') : u = u' := by
  obtain ⟨hu, hr⟩ := h
  obtain ⟨hu', hr'⟩ := h'
  by_cases h0 : nearest x = 0
  · have hzero {w : UnpackedFloat} (hw : Denotes w (nearest x)) (hws : Unsigned w) : w = .zero .positive := by
      rw [h0] at hw
      cases w with
      | infinity | notANumber => exact hw.elim
      | zero => exact congrArg _ hws
      | finite s m e hm =>
        obtain rfl : s = .positive := hws
        have hpos : (0 : ℝ) < m * 2 ^ e := by positivity
        exact absurd hw hpos.ne
    rw [hzero hr hs, hzero hr' hs']
  · exact eq_of_denotes hu hu' hr hr' h0

theorem ofScientific_congr {m m' e e' : ℕ} (h : (m : ℝ) / 10 ^ e = m' / 10 ^ e') :
    Float.ofScientific m true e = Float.ofScientific m' true e' := by
  obtain ⟨u, hu, hround, hs⟩ := exists_isRounding_ofScientific m e
  obtain ⟨u', hu', hround', hs'⟩ := exists_isRounding_ofScientific m' e'
  rw [← h] at hround'
  rw [hu, hu', eq_of_isRounding hround hround' hs hs']

/-- Rounding of a number that is not negative: no double is nearer, the last bit is zero if another one is as near, and
from `overflow` on there is only infinity. -/
structure IsNearest (v : Float) (x : ℝ) : Prop where
  isUnsigned : IsUnsigned v
  of_lt : x < overflow → ∃ a, HasValue v a ∧ (∀ w b, HasValue w b → |a - x| ≤ |b - x|) ∧
    ∀ w b, HasValue w b → |a - x| = |b - x| → b = a ∨ Even v.toBits.toNat
  of_le : overflow ≤ x → v.toBits = 0x7FF0000000000000

theorem isNearest_ofScientific (m e : ℕ) : IsNearest (Float.ofScientific m true e) (m / 10 ^ e) where
  isUnsigned := isUnsigned_of_unpack (unsigned_toModel_ofScientific m e)
  of_lt := by
    intro hlt
    have hvalue := hasValue_ofScientific hlt
    have hbinary {w : Float} {b : ℝ} (hw : HasValue w b) : IsBinary b :=
      isBinary_of_denotes (isCanonical_toModel w) (hasValue_iff.1 hw)
    refine ⟨_, hvalue, fun w b hw => abs_nearest_sub_le _ (hbinary hw), fun w b hw htie => ?_⟩
    refine or_iff_not_imp_left.2 fun hne => ?_
    have hnonneg : (0 : ℝ) ≤ m / 10 ^ e := div_nonneg (Nat.cast_nonneg m) (pow_nonneg (by norm_num) e)
    rcases hnonneg.eq_or_lt with hzero | hpos
    · rw [← hzero, nearest_zero, sub_self, abs_zero, sub_zero] at htie
      rw [← hzero, nearest_zero] at hne
      exact absurd (abs_eq_zero.1 htie.symm) hne
    · have heven := even_roundEven_of_tie hpos (hbinary hw) hne htie
      refine even_toBits hvalue fun s n t hn hform => ?_
      have hcanonical := isCanonical_toModel (Float.ofScientific m true e)
      have hdenotes := hasValue_iff.1 hvalue
      rw [hform] at hcanonical hdenotes
      exact even_mantissa hcanonical (le_max_right _ _) heven (abs_roundEven_div_le _) hdenotes
  of_le := by
    intro hle
    rw [ofScientific_eq_infinity hle]
    decide +kernel

end Easel.Number
