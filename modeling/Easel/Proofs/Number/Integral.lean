import Easel.Proofs.Number.Arithmetic

/-!
# Doubles and whole numbers

Rounding a double to a whole number is exact: `nearestInt` and `nearestInt?` give the integer nearest to its value,
halves away from zero (`roundAway`).

Doubles that are whole numbers calculate as these do up to `2^53` (`HasValue.add_int`, `HasValue.sub_int`,
`HasValue.mul_int`). A quotient of two of them is rounded, but to no integer that it does not reach
(`nearest_div_lt`, `lt_nearest_div`), and neither is a square root (`floor_nearest_sqrt`).
-/

namespace Easel.Number

open Float.Model Float.Model.UnpackedFloat

/-! ## Rounding to whole numbers -/

/-- The nearest integer, halves away from zero. -/
def roundAway (q : ℚ) : ℤ := if 0 ≤ q then round q else -round (-q)

theorem roundAway_of_nonneg {q : ℚ} (hq : 0 ≤ q) : roundAway q = ⌊q + 1 / 2⌋ := by
  rw [roundAway, if_pos hq, round_eq]

theorem roundAway_neg (q : ℚ) : roundAway (-q) = -roundAway q := by
  unfold roundAway
  rcases lt_trichotomy q 0 with h | rfl | h
  · rw [if_pos (by linarith), if_neg (by linarith), neg_neg]
  · simp
  · rw [if_neg (by linarith), if_pos h.le, neg_neg]

theorem roundAway_intCast (n : ℤ) : roundAway n = n := by
  unfold roundAway
  split
  · exact round_intCast n
  · rw [← Int.cast_neg, round_intCast, neg_neg]

theorem roundAway_nonneg {q : ℚ} (hq : 0 ≤ q) : 0 ≤ roundAway q := by
  rw [roundAway_of_nonneg hq]
  exact Int.floor_nonneg.2 (by linarith)

theorem roundAway_abs (q : ℚ) : roundAway |q| = |roundAway q| := by
  rcases le_total 0 q with h | h
  · rw [abs_of_nonneg h, abs_of_nonneg (roundAway_nonneg h)]
  · have hneg := roundAway_nonneg (neg_nonneg.2 h)
    rw [roundAway_neg] at hneg
    rw [abs_of_nonpos h, roundAway_neg, abs_of_nonpos (by omega)]

theorem abs_roundAway_sub_le (q : ℚ) : |(roundAway q : ℚ) - q| ≤ 1 / 2 := by
  unfold roundAway
  split
  · rw [abs_sub_comm]
    exact abs_sub_round q
  · have h := abs_sub_round (-q)
    rwa [neg_sub_left, abs_neg, add_comm, ← sub_neg_eq_add, abs_sub_comm, ← Int.cast_neg] at h

theorem nearestScaled_eq_floor (m : ℕ) (e : ℤ) : (nearestScaled m e : ℤ) = ⌊(m : ℚ) * 2 ^ e + 1 / 2⌋ := by
  cases e with
  | ofNat k =>
    have h : (m : ℚ) * 2 ^ (k : ℤ) = ((m <<< k : ℕ) : ℤ) := by
      rw [Nat.shiftLeft_eq, zpow_natCast]
      push_cast
      rfl
    have hround := round_intCast (α := ℚ) ((m <<< k : ℕ) : ℤ)
    rw [round_eq, ← h] at hround
    exact hround.symm
  | negSucc k =>
    have h : (m : ℚ) * 2 ^ Int.negSucc k + 1 / 2 = ((m + 2 ^ k : ℕ) : ℚ) / (2 ^ k * 2 : ℕ) := by
      rw [zpow_negSucc, pow_succ]
      push_cast
      field_simp
    rw [h, Rat.floor_natCast_div_natCast, ← Int.natCast_div, ← Nat.div_div_eq_div_mul,
      Nat.add_div_right _ (Nat.two_pow_pos k), nearestScaled, Nat.shiftRight_eq_div_pow, Nat.shiftRight_eq_div_pow,
      pow_one]

theorem nearestScaled_eq_roundAway (s : Sign) (m : ℕ) (e : ℤ) :
    s.apply (nearestScaled m e) = roundAway (s.apply m * 2 ^ e) := by
  have hpositive : (nearestScaled m e : ℤ) = roundAway (m * 2 ^ e) := by
    rw [nearestScaled_eq_floor, roundAway_of_nonneg (by positivity)]
  cases s with
  | positive => exact hpositive
  | negative =>
    simp only [Sign.apply, Int.cast_neg, neg_mul, roundAway_neg, Int.cast_natCast, hpositive]

theorem nearestInt_eq {x : Float} {q : ℚ} (h : value? x = some q) : nearestInt x = roundAway q := by
  unfold value? at h
  unfold nearestInt
  cases hform : x.toModel.unpack with
  | infinity | notANumber =>
    rw [hform] at h
    cases h
  | zero =>
    rw [hform] at h
    cases h
    exact (roundAway_intCast 0).symm
  | finite s m e =>
    rw [hform] at h
    cases h
    exact nearestScaled_eq_roundAway s m e

theorem HasValue.abs_nearestInt_sub_le {x : Float} {y : ℝ} (h : HasValue x y) : |(nearestInt x : ℝ) - y| ≤ 1 / 2 := by
  obtain ⟨q, hq, rfl⟩ := h
  have hround : ((|(roundAway q : ℚ) - q| : ℚ) : ℝ) ≤ ((1 / 2 : ℚ) : ℝ) := Rat.cast_le.2 (abs_roundAway_sub_le q)
  rw [nearestInt_eq hq]
  push_cast at hround
  exact hround

/-- Within the limit the nearest integer is the one that is kept. -/
theorem nearestInt?_eq {x : Float} {q : ℚ} (h : value? x = some q) (hlimit : |roundAway q| ≤ limit) :
    nearestInt? x = some (roundAway q) := by
  unfold value? at h
  unfold nearestInt?
  cases hform : x.toModel.unpack with
  | infinity | notANumber =>
    rw [hform] at h
    cases h
  | zero =>
    rw [hform] at h
    cases h
    exact congrArg some (roundAway_intCast 0).symm
  | finite s m e =>
    rw [hform] at h
    cases h
    rw [← nearestScaled_eq_roundAway] at hlimit ⊢
    have hle : (nearestScaled m e : ℤ) ≤ limit := by
      cases s <;> simpa only [Sign.apply, abs_neg, Nat.abs_cast] using hlimit
    dsimp only
    rw [min_eq_left hle]

/-- The nearest integer is not kept where it is beyond the limit, nor where there is none. -/
theorem nearestInt?_cases (x : Float) :
    nearestInt? x = (value? x).map roundAway ∨
      (∃ k : ℤ, nearestInt? x = some k ∧ |k| = limit) ∧ ∀ q, value? x = some q → limit ≤ |roundAway q| := by
  have hlimit (s : Sign) : |(s.apply limit : ℤ)| = limit := by
    cases s <;> simp only [Sign.apply, abs_neg, Nat.abs_cast]
  cases hform : x.toModel.unpack with
  | notANumber =>
    left
    simp only [nearestInt?, value?, hform, Option.map_none]
  | zero s =>
    left
    simp only [nearestInt?, value?, hform, Option.map_some]
    exact congrArg some (roundAway_intCast 0).symm
  | infinity s =>
    right
    have hnone : value? x = none := by simp only [value?, hform]
    refine ⟨⟨s.apply limit, by simp only [nearestInt?, hform], hlimit s⟩, fun q hq => ?_⟩
    rw [hnone] at hq
    cases hq
  | finite s m e =>
    have hvalue : value? x = some ((s.apply m : ℤ) * 2 ^ e : ℚ) := by simp only [value?, hform]
    rcases le_total |roundAway ((s.apply m : ℤ) * 2 ^ e : ℚ)| (limit : ℤ) with hle | hge
    · left
      rw [nearestInt?_eq hvalue hle, hvalue, Option.map_some]
    · right
      refine ⟨⟨s.apply limit, ?_, hlimit s⟩, ?_⟩
      · rw [← nearestScaled_eq_roundAway] at hge
        have hscaled : (limit : ℤ) ≤ nearestScaled m e := by
          cases s <;> simpa only [Sign.apply, abs_neg, Nat.abs_cast] using hge
        simp only [nearestInt?, hform, min_eq_right hscaled]
      · intro q hq
        rw [hvalue] at hq
        cases hq
        exact hge

/-- Below the limit, the nearest integer of a double is that of its value. -/
theorem nearestInt?_eq_some_iff {x : Float} {k : ℤ} (hk : |k| < limit) :
    nearestInt? x = some k ↔ ∃ q, value? x = some q ∧ roundAway q = k := by
  rcases nearestInt?_cases x with h | ⟨⟨k', h, hk'⟩, hlimit⟩
  · rw [h, Option.map_eq_some_iff]
  · rw [h]
    constructor
    · intro heq
      cases heq
      exact absurd hk' hk.ne
    · rintro ⟨q, hq, rfl⟩
      exact absurd (hlimit q hq) (not_le.2 hk)

theorem abs_nearestInt?_le {x : Float} {k : ℤ} (h : nearestInt? x = some k) : |k| ≤ limit := by
  unfold nearestInt? at h
  cases hform : x.toModel.unpack with
  | notANumber =>
    rw [hform] at h
    cases h
  | zero s =>
    rw [hform] at h
    cases h
    exact Int.natCast_nonneg _
  | infinity s =>
    rw [hform] at h
    cases h
    cases s <;> simp only [Sign.apply, abs_neg, Nat.abs_cast, le_refl]
  | finite s m e =>
    rw [hform] at h
    cases h
    have habs : |min (nearestScaled m e : ℤ) limit| ≤ limit := by
      rw [abs_of_nonneg (le_min (Int.natCast_nonneg _) (Int.natCast_nonneg _))]
      exact min_le_right _ _
    cases s <;> simpa only [Sign.apply, abs_neg] using habs

/-! ## Whole numbers -/

theorem hasValue_natCast {n : ℕ} (hn : n < 2 ^ 53) : HasValue (Float.ofNat n) (n : ℤ) := by
  rw [Int.cast_natCast]
  exact hasValue_ofNat hn

theorem hasValue_zero : HasValue 0 (0 : ℤ) := hasValue_natCast (n := 0) (by norm_num)

theorem hasValue_one : HasValue 1 (1 : ℤ) := hasValue_natCast (n := 1) (by norm_num)

section
variable {x y : Float} {m n : ℤ}

theorem HasValue.value?_int (hx : HasValue x n) : value? x = some (n : ℚ) := by
  obtain ⟨q, hq, hqn⟩ := hx
  rw [hq]
  exact congrArg some (by exact_mod_cast hqn)

theorem HasValue.nearestInt_int (hx : HasValue x n) : nearestInt x = n := by
  rw [nearestInt_eq hx.value?_int, roundAway_intCast]

theorem limit_ge : (2 : ℤ) ^ 53 ≤ limit := by
  decide +kernel

theorem HasValue.nearestInt?_int (hx : HasValue x n) (hn : |n| ≤ 2 ^ 53) : nearestInt? x = some n := by
  rw [nearestInt?_eq hx.value?_int (by rw [roundAway_intCast]; exact hn.trans limit_ge), roundAway_intCast]

/-- A whole number of 53 bits is far from overflow, and its own rounding. -/
theorem abs_intCast_le (hn : |n| ≤ 2 ^ 53) : |(n : ℝ)| ≤ 2 ^ 1023 := by
  have h : |(n : ℝ)| ≤ 2 ^ 53 := by exact_mod_cast hn
  exact h.trans (pow_le_pow_right₀ one_le_two (by norm_num))

theorem nearest_intCast (hn : |n| ≤ 2 ^ 53) : nearest n = n := nearest_of_isBinary (isBinary_intCast hn)

theorem HasValue.add_int (hx : HasValue x m) (hy : HasValue y n) (h : |m + n| ≤ 2 ^ 53) :
    HasValue (x + y) (m + n : ℤ) := by
  have hsum := hx.add hy (by rw [← Int.cast_add]; exact abs_intCast_le h)
  rwa [← Int.cast_add, nearest_intCast h] at hsum

theorem HasValue.sub_int (hx : HasValue x m) (hy : HasValue y n) (h : |m - n| ≤ 2 ^ 53) :
    HasValue (x - y) (m - n : ℤ) := by
  have hdifference := hx.sub hy (by rw [← Int.cast_sub]; exact abs_intCast_le h)
  rwa [← Int.cast_sub, nearest_intCast h] at hdifference

theorem HasValue.mul_int (hx : HasValue x m) (hy : HasValue y n) (h : |m * n| ≤ 2 ^ 53) :
    HasValue (x * y) (m * n : ℤ) := by
  have hproduct := hx.mul hy (by rw [← Int.cast_mul]; exact abs_intCast_le h)
  rwa [← Int.cast_mul, nearest_intCast h] at hproduct

theorem HasValue.neg_int (hx : HasValue x n) : HasValue (-x) (-n : ℤ) := by
  rw [Int.cast_neg]
  exact hx.neg

theorem HasValue.abs_int (hx : HasValue x n) : HasValue x.abs (|n| : ℤ) := by
  rw [Int.cast_abs]
  exact hx.abs

end

/-! ## Quotients -/

theorem HasValue.div_int {x y : Float} {m n : ℤ} (hx : HasValue x m) (hy : HasValue y n) (hn : n ≠ 0)
    (hm : |m| ≤ 2 ^ 53) : HasValue (x / y) (nearest (m / n)) := by
  refine hx.div hy (by exact_mod_cast hn) ?_
  have hone : (1 : ℝ) ≤ |(n : ℝ)| := by exact_mod_cast Int.one_le_abs hn
  rw [abs_div]
  exact (div_le_self (abs_nonneg _) hone).trans (abs_intCast_le hm)

/-- A quotient that is less than 0 or 1 is so by at least `2^-42`, and rounding does not take it there. -/
theorem nearest_div_lt {n d k : ℤ} (hd : 0 < d) (hd' : d ≤ 2 ^ 42) (hk : |k| ≤ 1) :
    nearest (n / d) < k ↔ n < k * d := by
  have hpos : (0 : ℝ) < d := by exact_mod_cast hd
  have hkd : |k| ≤ 2 ^ 53 := hk.trans (by norm_num)
  constructor
  · intro h
    by_contra hle
    have hle' : (k : ℝ) ≤ n / d := by
      rw [le_div_iff₀ hpos]
      exact_mod_cast not_lt.1 hle
    exact absurd h (not_lt.2 (le_nearest (isBinary_intCast hkd) hle'))
  · intro h
    have hbinary : IsBinary ((k : ℝ) - 2 ^ (-42 : ℤ)) := by
      refine ⟨k * 2 ^ 42 - 1, -42, ?_, by norm_num, ?_⟩
      · rw [abs_le] at hk ⊢
        constructor <;> linarith
      · push_cast
        norm_num
        ring
    have hgap : (2 : ℝ) ^ (-42 : ℤ) ≤ 1 / d := by
      rw [le_div_iff₀ hpos, zpow_neg, inv_mul_le_iff₀ (by positivity), mul_one]
      exact_mod_cast hd'
    have hle : (n : ℝ) / d ≤ k - 2 ^ (-42 : ℤ) := by
      have hint : (n : ℝ) + 1 ≤ k * d := by exact_mod_cast h
      have hdiv : (n : ℝ) / d ≤ k - 1 / d := by
        rw [div_le_iff₀ hpos, sub_mul, div_mul_cancel₀ _ hpos.ne']
        linarith
      linarith
    refine (nearest_le hbinary hle).trans_lt ?_
    have : (0 : ℝ) < 2 ^ (-42 : ℤ) := by positivity
    linarith

theorem lt_nearest_div {n d k : ℤ} (hd : 0 < d) (hd' : d ≤ 2 ^ 42) (hk : |k| ≤ 1) :
    k < nearest (n / d) ↔ k * d < n := by
  have h := nearest_div_lt (n := -n) hd hd' (k := -k) (by rwa [abs_neg])
  rw [Int.cast_neg, neg_div, nearest_neg, Int.cast_neg, neg_lt_neg_iff] at h
  rw [h, neg_mul, neg_lt_neg_iff]

/-! ## Square roots -/

/-- The whole part of a rounded root is the whole root: the root of a number below a square is so far below that
square's root that rounding does not take it there. -/
theorem floor_nearest_sqrt {n : ℕ} (hn : n ≤ 2 ^ 50) : ⌊nearest √n⌋ = Nat.sqrt n := by
  have hlower := Nat.sqrt_le' n
  have hupper := Nat.lt_succ_sqrt' n
  generalize Nat.sqrt n = k at hlower hupper
  have hk : k ≤ 2 ^ 25 := by
    by_contra hlt
    have := Nat.pow_lt_pow_left (not_le.1 hlt) two_ne_zero
    omega
  have hk' : (k : ℝ) ≤ 2 ^ 25 := by exact_mod_cast hk
  rw [Int.floor_eq_iff]
  constructor
  · refine le_nearest (isBinary_intCast (n := k) (by rw [Nat.abs_cast]; exact_mod_cast hk.trans (by norm_num))) ?_
    rw [Int.cast_natCast]
    exact Real.le_sqrt_of_sq_le (by exact_mod_cast hlower)
  · have hbinary : IsBinary ((k : ℝ) + 1 - 2 ^ (-27 : ℤ)) := by
      refine ⟨(k + 1) * 2 ^ 27 - 1, -27, ?_, by norm_num, ?_⟩
      · rw [abs_le]
        constructor <;> omega
      · push_cast
        norm_num
        ring
    have hsqrt : √n ≤ (k : ℝ) + 1 - 2 ^ (-27 : ℤ) := by
      have hint : (n : ℝ) + 1 ≤ (k + 1) ^ 2 := by exact_mod_cast hupper
      have hnonneg : (0 : ℝ) ≤ k := Nat.cast_nonneg k
      refine Real.sqrt_le_iff.2 ⟨by norm_num; linarith, ?_⟩
      norm_num
      nlinarith
    refine (nearest_le hbinary hsqrt).trans_lt ?_
    have : (0 : ℝ) < 2 ^ (-27 : ℤ) := by positivity
    push_cast
    linarith

end Easel.Number
