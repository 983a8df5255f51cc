import Easel.Proofs.Number.Decimal
import Easel.Proofs.Number.Extended
import Easel.Proofs.Number.Word

/-!
# Doubles as words

A double within the range of words is converted to its whole part (`HasValue.toNat_toWord`,
`HasValue.toInt_toSignedWord`). Rounded before, it is converted to the integer nearest to it
(`toInt_toSignedWord_nearestWhole`).

Bounds that are calculated with `fmax` and `fmin` are never NaN. So if one is not beyond the other, both are where they
were put, and so are the words that they are converted to (`toWord_of_not_lt`).
-/

namespace Easel.Number

open Float.Model Float.Model.UnpackedFloat

/-! ## Words with a sign -/

/-- Words with a sign do not wrap around. -/
theorem bmod_eq_self {z : ℤ} (h : -2 ^ 63 ≤ z ∧ z < 2 ^ 63) : z.bmod (2 ^ 64) = z :=
  Int.bmod_eq_of_le (by omega) (by omega)

theorem toInt_add {a b : Int64} (h : -2 ^ 63 ≤ a.toInt + b.toInt ∧ a.toInt + b.toInt < 2 ^ 63) :
    (a + b).toInt = a.toInt + b.toInt := by
  rw [Int64.toInt_add, bmod_eq_self h]

theorem toInt_sub {a b : Int64} (h : -2 ^ 63 ≤ a.toInt - b.toInt ∧ a.toInt - b.toInt < 2 ^ 63) :
    (a - b).toInt = a.toInt - b.toInt := by
  rw [Int64.toInt_sub, bmod_eq_self h]

theorem toInt_neg {a : Int64} (h : -2 ^ 62 ≤ a.toInt ∧ a.toInt ≤ 2 ^ 62) : (-a).toInt = -a.toInt := by
  rw [Int64.toInt_neg, bmod_eq_self (by omega)]

theorem toInt_two_mul {a : Int64} (h : -2 ^ 61 ≤ a.toInt ∧ a.toInt ≤ 2 ^ 61) : (2 * a).toInt = 2 * a.toInt := by
  have htwo : (2 : Int64).toInt = 2 := rfl
  rw [Int64.toInt_mul, htwo, bmod_eq_self (by omega)]

theorem toInt_half {a : Int64} (h : 0 ≤ a.toInt ∧ a.toInt ≤ 2 ^ 62) : (a / 2).toInt = a.toInt / 2 := by
  have htwo : (2 : Int64).toInt = 2 := rfl
  rw [Int64.toInt_div, htwo, Int.tdiv_eq_ediv_of_nonneg h.1, bmod_eq_self (by omega)]

theorem toInt_abs {a : Int64} (h : -2 ^ 62 ≤ a.toInt ∧ a.toInt ≤ 2 ^ 62) : a.abs.toInt = |a.toInt| := by
  have habs : a.abs = if a.toBitVec.msb then -a else a := by
    show (⟨⟨a.toBitVec.abs⟩⟩ : Int64) = _
    rw [BitVec.abs]
    split <;> rfl
  have hmsb : a.toBitVec.msb = decide (a.toInt < 0) := BitVec.msb_eq_toInt
  rw [habs, hmsb]
  by_cases hneg : a.toInt < 0
  · rw [decide_eq_true hneg, if_pos rfl, toInt_neg h, abs_of_neg hneg]
  · rw [decide_eq_false hneg, if_neg Bool.false_ne_true, abs_of_nonneg (not_lt.1 hneg)]

theorem toInt_min (a b : Int64) : (min a b).toInt = min a.toInt b.toInt := by
  have hmin : min a b = if a ≤ b then a else b := rfl
  rw [hmin]
  split
  · next h => rw [min_eq_left (Int64.le_iff_toInt_le.1 h)]
  · next h => rw [min_eq_right (not_le.1 fun hle => h (Int64.le_iff_toInt_le.2 hle)).le]

theorem toInt_toInt64 {a : UInt64} (h : a.toNat < 2 ^ 63) : a.toInt64.toInt = a.toNat :=
  BitVec.toInt_eq_toNat_of_lt (x := a.toBitVec) (by show 2 * a.toNat < 2 ^ 64; omega)

/-! ## Whole parts -/

theorem HasValue.toNat_toWord_eq_min {x : Float} {a : ℝ} (h : HasValue x a) : (toWord x).toNat = min ⌊a⌋₊ greatestWord := by
  obtain ⟨q, hq, rfl⟩ := h
  have hwhole : wholePart x = ⌊(q : ℝ)⌋₊ := by
    rw [wholePart_eq_floor, hq, Option.elim_some, ← Rat.floor_cast (α := ℝ)]
    rfl
  have hsize : greatestWord < 2 ^ 64 := by decide
  rw [← hwhole]
  unfold wholePart value? at *
  unfold toWord
  cases hform : x.toModel.unpack with
  | notANumber | infinity =>
    rw [hform] at hq
    cases hq
  | zero => rfl
  | finite s m e =>
    cases s with
    | negative => rfl
    | positive => exact UInt64.toNat_ofNat_of_lt' ((min_le_right _ _).trans_lt hsize)

theorem HasValue.toNat_toWord {x : Float} {a : ℝ} (h : HasValue x a) (h0 : 0 ≤ a) (hlt : a < 2 ^ 64) :
    (toWord x).toNat = ⌊a⌋₊ := by
  rw [h.toNat_toWord_eq_min, min_eq_left]
  rw [greatestWord, ← Nat.lt_succ_iff, Nat.floor_lt h0]
  exact hlt.trans_eq (by norm_num)

theorem toInt_ofIntClamp (z : ℤ) : (Int64.ofIntClamp z).toInt = max (-2 ^ 63) (min z (2 ^ 63 - 1)) := by
  have hmin : Int64.minValue.toInt = -2 ^ 63 := rfl
  have hmax : Int64.maxValue.toInt = 2 ^ 63 - 1 := rfl
  unfold Int64.ofIntClamp
  split
  · next h =>
    split
    · next h' =>
      rw [Int64.toInt_ofIntLE]
      omega
    · omega
  · omega

/-- An integer is kept within the words. -/
theorem HasValue.toInt_toSignedWord {x : Float} {z : ℤ} (h : HasValue x z) :
    (toSignedWord x).toInt = max (-2 ^ 63) (min z (2 ^ 63 - 1)) := by
  have hq := h.value?_int
  unfold toSignedWord
  unfold value? at hq
  cases hform : x.toModel.unpack with
  | notANumber | infinity =>
    rw [hform] at hq
    cases hq
  | zero =>
    rw [hform] at hq
    have hzero : (0 : ℚ) = z := Option.some.inj hq
    rw [← Int.cast_zero, Int.cast_inj] at hzero
    subst hzero
    rfl
  | finite s m e =>
    rw [hform] at hq
    have hvalue : ((s.apply m : ℤ) : ℚ) * 2 ^ e = z := Option.some.inj hq
    have hfloor : s.apply (floorScaled m e) = z := by
      have hscaled := floor_scaled m e
      cases s with
      | positive =>
        have hm : ((m : ℕ) : ℚ) * 2 ^ e = z := by simpa [Sign.apply] using hvalue
        rw [hm, Int.floor_intCast] at hscaled
        exact hscaled.symm
      | negative =>
        have hm : ((m : ℕ) : ℚ) * 2 ^ e = (-z : ℤ) := by
          rw [Int.cast_neg, ← hvalue]
          simp [Sign.apply]
        rw [hm, Int.floor_intCast] at hscaled
        rw [Sign.apply, ← hscaled, neg_neg]
    dsimp only
    rw [hfloor, toInt_ofIntClamp]

/-- A whole number of 53 bits is kept by way of a double. -/
theorem toInt_toSignedWord_ofInt {n : ℤ} (hn : |n| < 2 ^ 53) : (toSignedWord (Float.ofInt n)).toInt = n := by
  rw [HasValue.toInt_toSignedWord (hasValue_ofInt hn)]
  rw [abs_lt] at hn
  omega

/-! ## Rounding -/

theorem nearestScaled_le {m : ℕ} {e : ℤ} (hm : m < 2 ^ 53) (he : e < 0) : nearestScaled m e ≤ 2 ^ 53 := by
  obtain ⟨k, rfl⟩ := Int.eq_negSucc_of_lt_zero he
  have hshift : m >>> k ≤ m := by
    rw [Nat.shiftRight_eq_div_pow]
    exact Nat.div_le_self _ _
  rw [nearestScaled, Nat.shiftRight_eq_div_pow]
  omega

/-- What a double is rounded to is a double. -/
theorem isBinary_nearestScaled {m : ℕ} {e : ℤ} (hm : m < 2 ^ 53) : IsBinary (nearestScaled m e) := by
  cases e with
  | ofNat k =>
    refine ⟨m, k, by rw [Nat.abs_cast]; omega, by omega, ?_⟩
    rw [nearestScaled, Nat.shiftLeft_eq]
    push_cast
    rw [zpow_natCast]
  | negSucc k =>
    have hle := nearestScaled_le hm (Int.negSucc_lt_zero k)
    exact_mod_cast isBinary_intCast (n := nearestScaled m (.negSucc k)) (by rw [Nat.abs_cast]; exact_mod_cast hle)

theorem nearestScaled_lt_overflow {m : ℕ} {e : ℤ} (hm : m < 2 ^ 53) (he : e ≤ 971) :
    (nearestScaled m e : ℝ) < overflow := by
  suffices h : nearestScaled m e < (2 ^ 54 - 1) * 2 ^ 970 by
    rw [overflow]
    exact_mod_cast h
  cases e with
  | ofNat k =>
    have hk : k ≤ 970 + 1 := by simpa using he
    have hpow {k n : ℕ} (h : k ≤ n + 1) : 2 ^ k ≤ 2 * 2 ^ n := by
      rw [← Nat.pow_succ']
      exact Nat.pow_le_pow_right two_pos h
    rw [nearestScaled, Nat.shiftLeft_eq]
    calc
      m * 2 ^ k ≤ (2 ^ 53 - 1) * (2 * 2 ^ 970) :=
        Nat.mul_le_mul (Nat.le_sub_one_of_lt hm) (hpow hk)
      _ = (2 ^ 54 - 2) * 2 ^ 970 := by rw [← mul_assoc, show (2 ^ 53 - 1) * 2 = 2 ^ 54 - 2 by norm_num]
      _ < (2 ^ 54 - 1) * 2 ^ 970 := Nat.mul_lt_mul_of_pos_right (by norm_num) (by positivity)
  | negSucc k =>
    calc
      nearestScaled m (.negSucc k) ≤ 2 ^ 53 := nearestScaled_le hm (Int.negSucc_lt_zero k)
      _ < 2 ^ 54 - 1 := by norm_num
      _ ≤ (2 ^ 54 - 1) * 2 ^ 970 := Nat.le_mul_of_pos_right _ (by positivity)

theorem hasValue_ofNat_of_lt_overflow {n : ℕ} (hn : (n : ℝ) < overflow) : HasValue (Float.ofNat n) (nearest n) := by
  rcases Nat.lt_or_ge n (2 ^ 53) with hlt | hge
  · rw [nearest_of_isBinary (isBinary_natCast hlt)]
    exact hasValue_ofNat hlt
  · obtain ⟨u, hu, hrounding⟩ := exists_isRounding_ofNat hge
    rw [hu]
    exact hrounding.hasValue_of_lt n.cast_nonneg hn

/-- Rounding to a whole number is exact: there is a double for it. -/
theorem hasValue_nearestWhole {x : Float} (hx : (value? x).isSome) : HasValue (nearestWhole x) (nearestInt x) := by
  have hcanonical := isCanonical_toModel x
  unfold value? at hx
  unfold nearestWhole nearestInt
  cases hform : x.toModel.unpack with
  | notANumber | infinity =>
    rw [hform] at hx
    cases hx
  | zero =>
    dsimp only
    rw [Int.cast_zero, hasValue_iff, hform]
    rfl
  | finite s m e hm =>
    rw [hform] at hcanonical
    have hexponent := exponent_le_of_unpack hform
    have hnat : HasValue (Float.ofNat (nearestScaled m e)) (nearestScaled m e : ℤ) := by
      rw [Int.cast_natCast, ← nearest_of_isBinary (isBinary_nearestScaled (e := e) hcanonical.1)]
      exact hasValue_ofNat_of_lt_overflow (nearestScaled_lt_overflow hcanonical.1 hexponent)
    cases s with
    | positive => exact hnat
    | negative => exact hnat.neg_int

theorem toInt_toSignedWord_nearestWhole {x : Float} (hx : (value? x).isSome) :
    (toSignedWord (nearestWhole x)).toInt = max (-2 ^ 63) (min (nearestInt x) (2 ^ 63 - 1)) :=
  (hasValue_nearestWhole hx).toInt_toSignedWord

/-! ## Bounds -/

/-- The last index of a side. -/
theorem hasValue_last {n : ℕ} (hn : n ≤ 2 ^ 53) : HasValue (Float.ofNat n - 1) (n - 1 : ℤ) := by
  have hvalue : HasValue (Float.ofNat n) (n : ℤ) := by
    have hbinary : IsBinary ((n : ℤ) : ℝ) := isBinary_intCast (by rw [Nat.abs_cast]; exact_mod_cast hn)
    rw [Int.cast_natCast] at hbinary ⊢
    rw [← nearest_of_isBinary hbinary]
    refine hasValue_ofNat_nearest (le_trans (b := 2 ^ 53) ?_ (pow_le_pow_right₀ one_le_two (by norm_num)))
    exact_mod_cast hn
  exact hvalue.sub_int hasValue_one (by rw [abs_le]; omega)

theorem isNaN_zero : (0 : Float).isNaN = false := by decide +kernel

section
variable {x y : Float} {r s : EReal} (hx : HasExtendedValue x r) (hy : HasExtendedValue y s)
include hx hy

theorem hasExtendedValue_fmax : HasExtendedValue (fmax x y) (max r s) := by
  have hmax : fmax x y = if x ≤ y then y else x := by
    rw [fmax, hx.isNaN_eq_false, hy.isNaN_eq_false]
    rfl
  rw [hmax]
  split
  · next h => rwa [max_eq_right ((hx.le_iff hy).1 h)]
  · next h => rwa [max_eq_left (le_of_not_ge fun hle => h ((hx.le_iff hy).2 hle))]

theorem hasExtendedValue_fmin : HasExtendedValue (fmin x y) (min r s) := by
  have hmin : fmin x y = if x ≤ y then x else y := by
    rw [fmin, hx.isNaN_eq_false, hy.isNaN_eq_false]
    rfl
  rw [hmin]
  split
  · next h => rwa [min_eq_left ((hx.le_iff hy).1 h)]
  · next h => rwa [min_eq_right (le_of_not_ge fun hle => h ((hx.le_iff hy).2 hle))]

end

/-- The greater one of a double and zero is an extended real number that is not negative. -/
theorem exists_hasExtendedValue_fmax_zero (x : Float) : ∃ r, HasExtendedValue (fmax x 0) r ∧ 0 ≤ r := by
  have hzero : HasExtendedValue 0 ((0 : ℤ) : ℝ) := .value hasValue_zero
  cases hnan : x.isNaN with
  | true =>
    have hmax : fmax x 0 = 0 := by
      rw [fmax, isNaN_zero, hnan]
      rfl
    exact ⟨(((0 : ℤ) : ℝ) : EReal), by rwa [hmax], by simp⟩
  | false =>
    obtain ⟨r, hr⟩ := exists_hasExtendedValue hnan
    exact ⟨_, hasExtendedValue_fmax hr hzero, by simp⟩

/-- The smaller one of a double and an integer is an extended real number up to that. -/
theorem exists_hasExtendedValue_fmin {y : Float} {n : ℤ} (hy : HasValue y n) (x : Float) :
    ∃ r, HasExtendedValue (fmin x y) r ∧ r ≤ ((n : ℝ) : EReal) := by
  have hvalue : HasExtendedValue y (n : ℝ) := .value hy
  cases hnan : x.isNaN with
  | true =>
    have hmin : fmin x y = y := by
      rw [fmin, hy.isNaN_eq_false, hnan]
      rfl
    exact ⟨((n : ℝ) : EReal), by rwa [hmin], le_rfl⟩
  | false =>
    obtain ⟨r, hr⟩ := exists_hasExtendedValue hnan
    exact ⟨_, hasExtendedValue_fmin hr hvalue, min_le_right _ _⟩

/-- Bounds of which one is not beyond the other are indices in order. -/
theorem toWord_of_not_lt {x y last : Float} {n : ℕ} (hn : n ≤ 2 ^ 53) (hlast : HasValue last (n - 1 : ℤ))
    (h : ¬ fmin y last < fmax x 0) :
    (toWord (fmax x 0)).toNat ≤ (toWord (fmin y last)).toNat ∧ (toWord (fmin y last)).toNat < n := by
  obtain ⟨r, hr, h0⟩ := exists_hasExtendedValue_fmax_zero x
  obtain ⟨s, hs, hle⟩ := exists_hasExtendedValue_fmin hlast y
  rw [hs.lt_iff hr, not_lt] at h
  -- Both are between zero and the last index, so neither is infinite.
  lift r to ℝ using ⟨(h.trans hle |>.trans_lt (EReal.coe_lt_top _)).ne, (EReal.bot_lt_zero.trans_le h0).ne'⟩
  lift s to ℝ using ⟨(hle.trans_lt (EReal.coe_lt_top _)).ne, (EReal.bot_lt_zero.trans_le (h0.trans h)).ne'⟩
  rw [EReal.coe_le_coe_iff] at h hle
  rw [← EReal.coe_zero, EReal.coe_le_coe_iff] at h0
  have hlt : s < 2 ^ 64 := by
    have hn' : (n : ℝ) ≤ 2 ^ 53 := by exact_mod_cast hn
    have hle' : s ≤ n - 1 := by exact_mod_cast hle
    linarith
  rw [hr.hasValue.toNat_toWord h0 (h.trans_lt hlt), hs.hasValue.toNat_toWord (h0.trans h) hlt]
  refine ⟨Nat.floor_le_floor h, ?_⟩
  rw [Nat.floor_lt (h0.trans h)]
  refine hle.trans_lt ?_
  push_cast
  linarith

end Easel.Number
