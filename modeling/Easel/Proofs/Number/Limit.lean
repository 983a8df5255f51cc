import Easel.Proofs.Number.Conversion

/-!
# Beside the limit

What is kept of a coordinate is a double of its own, or the limit of coordinates, which is none. A number of 50 bits is
lost in a sum with the limit (`nearest_limit_add`), as it is in one with the double that the limit is rounded to. So it
does not matter whether a row is counted from the bottom in integers and then rounded, or in doubles
(`last_sub_ofInt`).
-/

namespace Easel.Number

open Float.Model Float.Model.UnpackedFloat

theorem limit_bounds : (2 : ℤ) ^ 81 ≤ limit ∧ (limit : ℤ) ≤ 2 ^ 999 := by
  decide +kernel

section
variable {x : Float} {k : ℤ} (h : nearestInt? x = some k)
include h

/-- What is kept of a coordinate is far from the greatest double. -/
theorem abs_nearestInt?_cast_le : |(k : ℝ)| ≤ 2 ^ 1000 := by
  have hcast : ((|k| : ℤ) : ℝ) ≤ ((2 ^ 999 : ℤ) : ℝ) := Int.cast_le.2 ((abs_nearestInt?_le h).trans limit_bounds.2)
  rw [Int.cast_abs, Int.cast_pow, Int.cast_ofNat] at hcast
  exact hcast.trans (pow_le_pow_right₀ one_le_two (by norm_num))

theorem hasValue_ofInt_of_nearestInt? : HasValue (Float.ofInt k) (nearest k) :=
  hasValue_ofInt_nearest ((abs_nearestInt?_cast_le h).trans (pow_le_pow_right₀ one_le_two (by norm_num)))

theorem isBinary_or_of_nearestInt? : IsBinary k ∨ k = limit ∨ k = -limit := by
  have hcanonical := isCanonical_toModel x
  unfold nearestInt? at h
  cases hform : x.toModel.unpack with
  | notANumber =>
    rw [hform] at h
    cases h
  | infinity s =>
    rw [hform] at h
    cases h
    cases s with
    | positive => exact .inr (.inl rfl)
    | negative => exact .inr (.inr rfl)
  | zero =>
    rw [hform] at h
    cases h
    exact .inl (by rw [Int.cast_zero]; exact isBinary_zero)
  | finite s m e hm =>
    rw [hform] at h hcanonical
    cases h
    have hbinary : IsBinary (nearestScaled m e) := isBinary_nearestScaled hcanonical.1
    rcases le_total (nearestScaled m e : ℤ) limit with hle | hle
    · rw [min_eq_left hle]
      left
      cases s with
      | positive => rwa [Sign.apply, Int.cast_natCast]
      | negative =>
        rw [Sign.apply, Int.cast_neg, Int.cast_natCast]
        exact hbinary.neg
    · rw [min_eq_right hle]
      cases s with
      | positive => exact .inr (.inl rfl)
      | negative => exact .inr (.inr rfl)

end

/-! ## Sums -/

/-- Sums with small numbers are within the reach of doubles. -/
theorem abs_sub_le_of_small {a b : ℝ} (ha : |a| ≤ 2 ^ 53) (hb : |b| ≤ 2 ^ 1000) : |a - b| ≤ 2 ^ 1023 := by
  have hpow : (2 : ℝ) ^ 53 ≤ 2 ^ 1000 := pow_le_pow_right₀ one_le_two (by norm_num)
  calc
    |a - b| ≤ |a| + |b| := abs_sub a b
    _ ≤ 2 ^ 1000 + 2 ^ 1000 := add_le_add (ha.trans hpow) hb
    _ = 2 ^ 1001 := by rw [← two_mul, ← pow_succ']
    _ ≤ 2 ^ 1023 := pow_le_pow_right₀ one_le_two (by norm_num)

/-- Where two natural numbers have the same double, so have all numbers between them. -/
theorem nearest_eq_of_between {m n : ℕ} (h : value? (Float.ofNat m) = value? (Float.ofNat n)) (hn : (n : ℝ) ≤ 2 ^ 1023)
    {x y : ℝ} (hx : m ≤ x ∧ x ≤ n) (hy : m ≤ y ∧ y ≤ n) : nearest x = nearest y := by
  have hm : HasValue (Float.ofNat m) (nearest m) := hasValue_ofNat_nearest ((hx.1.trans hx.2).trans hn)
  have hends : nearest m = nearest n := by
    refine hm.unique ?_
    unfold HasValue
    rw [h]
    exact hasValue_ofNat_nearest hn
  have hconst {z : ℝ} (hz : m ≤ z ∧ z ≤ n) : nearest z = nearest m :=
    le_antisymm (hends ▸ nearest_mono hz.2) (nearest_mono hz.1)
  rw [hconst hx, hconst hy]

theorem nearest_add_of_value?_eq {n : ℕ} (h : value? (Float.ofNat (n - 2 ^ 50)) = value? (Float.ofNat (n + 2 ^ 50)))
    (hlarge : 2 ^ 50 ≤ n) (hn : n + 2 ^ 50 ≤ 2 ^ 1023) {z : ℤ} (hz : |z| ≤ 2 ^ 50) :
    nearest (n + z : ℝ) = nearest n := by
  rw [abs_le] at hz
  have hz' : (-2 ^ 50 : ℝ) ≤ z ∧ (z : ℝ) ≤ 2 ^ 50 := ⟨by exact_mod_cast hz.1, by exact_mod_cast hz.2⟩
  have hn' : ((n + 2 ^ 50 : ℕ) : ℝ) ≤ 2 ^ 1023 := by exact_mod_cast hn
  have hcast : ((n - 2 ^ 50 : ℕ) : ℝ) = n - 2 ^ 50 := by
    rw [Nat.cast_sub hlarge, Nat.cast_pow, Nat.cast_ofNat]
  have hcast' : ((n + 2 ^ 50 : ℕ) : ℝ) = n + 2 ^ 50 := by
    rw [Nat.cast_add, Nat.cast_pow, Nat.cast_ofNat]
  refine nearest_eq_of_between h hn' ?_ ?_
  · rw [hcast, hcast']
    constructor <;> linarith
  · rw [hcast, hcast']
    constructor <;> linarith

/-- Numbers of 50 bits are lost beside the limit of coordinates. -/
theorem nearest_limit_add {z : ℤ} (hz : |z| ≤ 2 ^ 50) :
    nearest (limit + z) = nearest limit ∧ nearest (nearest limit + z) = nearest limit := by
  have hvalue : HasValue (Float.ofNat limit) (wholePart (Float.ofNat limit)) :=
    ⟨wholePart (Float.ofNat limit), by decide +kernel, Rat.cast_natCast _⟩
  have hrounded : nearest limit = wholePart (Float.ofNat limit) := by
    refine (hasValue_ofNat_nearest ?_).unique hvalue
    exact_mod_cast (show limit ≤ 2 ^ 1023 by decide +kernel)
  have hwhole : nearest (wholePart (Float.ofNat limit)) = wholePart (Float.ofNat limit) := by
    rw [← hrounded]
    exact nearest_of_isBinary (nearest_isBinary _)
  constructor
  · exact nearest_add_of_value?_eq (by decide +kernel) (by decide +kernel) (by decide +kernel) hz
  · rw [hrounded, nearest_add_of_value?_eq (by decide +kernel) (by decide +kernel) (by decide +kernel) hz, hwhole]

/-! ## Rows from the bottom -/

/-- A finite double less itself has no minus sign. -/
theorem HasValue.sub_self {x : Float} {r : ℝ} (hx : HasValue x r) : x - x = Float.ofInt 0 := by
  have hdenotes := hasValue_iff.1 hx
  have hsub : x - x = .ofModel (.pack (UnpackedFloat.sub .binary64 x.toModel.unpack x.toModel.unpack)) := rfl
  have hzero : Float.ofInt 0 = .ofModel (.pack (.zero .positive)) := rfl
  rw [hsub, hzero]
  cases hform : x.toModel.unpack with
  | infinity | notANumber =>
    rw [hform] at hdenotes
    exact hdenotes.elim
  | zero s => cases s <;> rfl
  | finite s m e hm =>
    simp only [UnpackedFloat.sub, Int.sub_self, UnpackedFloat.normalize]
    rfl

theorem nearest_sub_nearest {n k : ℤ} (hn : |n| ≤ 2 ^ 50) {y : Float} (h : nearestInt? y = some k) :
    nearest ((n : ℝ) - nearest k) = nearest ((n - k : ℤ) : ℝ) := by
  rw [Int.cast_sub]
  rcases isBinary_or_of_nearestInt? h with hbinary | hk | hk
  · rw [nearest_of_isBinary hbinary]
  · obtain ⟨hlimit, hrounded⟩ := nearest_limit_add (z := -n) ((abs_neg n).trans_le hn)
    have hneg (r : ℝ) : n - r = -(r + (-n : ℤ)) := by
      rw [Int.cast_neg]
      ring
    rw [hk, Int.cast_natCast, hneg, hneg, nearest_neg, nearest_neg, hlimit, hrounded]
  · obtain ⟨hlimit, hrounded⟩ := nearest_limit_add hn
    rw [hk, Int.cast_neg, Int.cast_natCast, nearest_neg, sub_neg_eq_add, sub_neg_eq_add, add_comm, hrounded, add_comm, hlimit]

theorem nearest_intCast_ne_zero {n : ℤ} (hn : n ≠ 0) : nearest n ≠ 0 := by
  rcases lt_or_gt_of_ne hn with hneg | hpos
  · have h : nearest n ≤ ((-1 : ℤ) : ℝ) := (nearest_intCast_le_iff (by norm_num)).2 (by omega)
    rw [Int.cast_neg, Int.cast_one] at h
    linarith
  · have h : ((1 : ℤ) : ℝ) ≤ nearest n := (le_nearest_intCast_iff (by norm_num)).2 hpos
    rw [Int.cast_one] at h
    linarith

/-- Counted from the bottom, a row is the same in doubles as in integers. -/
theorem last_sub_ofInt {height : ℕ} (hheight : height ≤ 2 ^ 50) {y : Float} {k : ℤ} (h : nearestInt? y = some k) :
    Float.ofNat height - 1 - Float.ofInt k = Float.ofInt (height - 1 - k) := by
  have hlast : HasValue (Float.ofNat height - 1) (height - 1 : ℤ) := hasValue_last (hheight.trans (by norm_num))
  have hsmall : |(height - 1 : ℤ)| ≤ 2 ^ 50 := by
    rw [abs_le]
    omega
  have hk := hasValue_ofInt_of_nearestInt? h
  by_cases h0 : (height - 1 - k : ℤ) = 0
  · obtain rfl : k = height - 1 := by omega
    rw [sub_self]
    rw [nearest_intCast (hsmall.trans (by norm_num))] at hk
    by_cases hzero : (height - 1 : ℤ) = 0
    · obtain rfl : height = 1 := by omega
      decide +kernel
    · rw [hlast.eq hk (by exact_mod_cast hzero)]
      exact hk.sub_self
  · have hsmall' : |((height - 1 : ℤ) : ℝ)| ≤ 2 ^ 53 := by exact_mod_cast hsmall.trans (by norm_num)
    have hdifference : HasValue (Float.ofNat height - 1 - Float.ofInt k) (nearest ((height - 1 - k : ℤ) : ℝ)) := by
      rw [← nearest_sub_nearest hsmall h]
      exact hlast.sub hk (abs_sub_le_of_small hsmall' (abs_nearest_le (isBinary_two_pow 1000) (abs_nearestInt?_cast_le h)))
    refine hdifference.eq (hasValue_ofInt_nearest ?_) (nearest_intCast_ne_zero h0)
    rw [Int.cast_sub]
    exact abs_sub_le_of_small hsmall' (abs_nearestInt?_cast_le h)

end Easel.Number
