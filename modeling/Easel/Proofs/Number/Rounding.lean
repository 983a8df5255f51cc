import Mathlib

/-!
# Rounding to doubles

To the nearest integer, a number is rounded by the two bits behind its whole part: they say where the rest of it lies
(`Locates`), also after bits are shifted out (`Locates.shiftRight`), and which integer is nearest
(`Locates.roundedMantissa_eq`).

A double is `m · 2^e` with at most 53 bits in `m` and an exponent that is not below -1074 (`IsBinary`). `nearest x`
is the one nearest to a real number `x`, and of two that are equally near the one with even `m`; it knows no
greatest exponent, so nothing overflows.

`abs_nearest_sub_le`: no double is nearer to `x` than `nearest x`. So a double is its own rounding
(`nearest_of_isBinary`), rounding keeps order (`nearest_mono`), and it goes past no double (`nearest_le`,
`le_nearest`).
-/

namespace Easel.Number

/-! ## Whole numbers -/

/-- The nearest integer, an even one on a tie. -/
noncomputable def roundEven (x : ℝ) : ℤ :=
  if Int.fract x = 1 / 2 then ⌊x⌋ + ⌊x⌋ % 2 else round x

theorem roundEven_add_half (k : ℤ) : roundEven (k + 1 / 2) = k + k % 2 := by
  have hfract : Int.fract ((k : ℝ) + 1 / 2) = 1 / 2 := by
    rw [Int.fract_intCast_add, Int.fract_eq_self]
    norm_num
  have hfloor : ⌊(k : ℝ) + 1 / 2⌋ = k := by
    rw [Int.floor_eq_iff]
    constructor <;> linarith
  rw [roundEven, if_pos hfract, hfloor]

/-- A number is either halfway between two integers, or less than half away from one. -/
theorem eq_add_half_or (x : ℝ) : (∃ k : ℤ, x = k + 1 / 2) ∨ ∃ k : ℤ, |x - k| < 1 / 2 := by
  by_cases hfract : Int.fract x = 1 / 2
  · exact .inl ⟨⌊x⌋, by linarith [Int.floor_add_fract x]⟩
  · refine .inr ⟨round x, ?_⟩
    have hlo := Int.fract_nonneg x
    have hhi := Int.fract_lt_one x
    rw [abs_sub_round_eq_min, min_lt_iff]
    rcases lt_or_gt_of_ne hfract with h | h
    · exact .inl h
    · exact .inr (by linarith)

theorem roundEven_eq_of_abs_sub_lt {x : ℝ} {k : ℤ} (h : |x - k| < 1 / 2) : roundEven x = k := by
  have hround : round x = k := by
    rw [round_eq, Int.floor_eq_iff]
    rw [abs_lt] at h
    constructor <;> linarith
  have hfract : Int.fract x ≠ 1 / 2 := by
    intro hhalf
    have hmin := abs_sub_round_eq_min x
    rw [hround, hhalf] at hmin
    norm_num at hmin
    linarith
  rw [roundEven, if_neg hfract, hround]

theorem roundEven_intCast (k : ℤ) : roundEven k = k :=
  roundEven_eq_of_abs_sub_lt (by norm_num)

theorem roundEven_neg (x : ℝ) : roundEven (-x) = -roundEven x := by
  rcases eq_add_half_or x with ⟨k, rfl⟩ | ⟨k, hk⟩
  · have hneg : -((k : ℝ) + 1 / 2) = ((-k - 1 : ℤ) : ℝ) + 1 / 2 := by
      push_cast
      ring
    rw [hneg, roundEven_add_half, roundEven_add_half]
    omega
  · have hneg : |-x - ((-k : ℤ) : ℝ)| < 1 / 2 := by
      rw [Int.cast_neg, neg_sub_neg, abs_sub_comm]
      exact hk
    rw [roundEven_eq_of_abs_sub_lt hk, roundEven_eq_of_abs_sub_lt hneg]

theorem abs_roundEven_sub_le (x : ℝ) (k : ℤ) : |roundEven x - x| ≤ |k - x| := by
  rw [abs_sub_comm, abs_sub_comm (k : ℝ)]
  rcases eq_add_half_or x with ⟨j, rfl⟩ | ⟨j, hj⟩
  · -- Both neighbours of a tie are half away, and every integer is at least that far.
    have hhalf : |(j : ℝ) + 1 / 2 - roundEven (j + 1 / 2)| = 1 / 2 := by
      rw [roundEven_add_half]
      rcases Int.emod_two_eq_zero_or_one j with h | h <;> rw [h] <;> push_cast <;> norm_num
    have hround := round_le ((j : ℝ) + 1 / 2) k
    rw [abs_sub_round_eq_min, Int.fract_intCast_add] at hround
    norm_num at hround
    rw [hhalf]
    linarith
  · have hround : round x = j := by
      rw [round_eq, Int.floor_eq_iff]
      rw [abs_lt] at hj
      constructor <;> linarith
    rw [roundEven_eq_of_abs_sub_lt hj, ← hround]
    exact round_le x k

theorem le_roundEven {x : ℝ} {k : ℤ} (h : k ≤ x) : k ≤ roundEven x := by
  have hnear := abs_roundEven_sub_le x k
  rw [abs_of_nonpos (sub_nonpos.2 h), abs_le] at hnear
  exact_mod_cast (by linarith : (k : ℝ) ≤ roundEven x)

theorem roundEven_le {x : ℝ} {k : ℤ} (h : x ≤ k) : roundEven x ≤ k := by
  have hnear := abs_roundEven_sub_le x k
  rw [abs_of_nonneg (sub_nonneg.2 h), abs_le] at hnear
  exact_mod_cast (by linarith : (roundEven x : ℝ) ≤ k)

/-! ## Residual bits -/

section
open Float.Model.UnpackedFloat

/-- The number lies where the significand and the bits behind it say: the round bit is worth a half, and the sticky
bit stands for less than a half, but something. -/
def Locates (em : ExtendedMantissa) (y : ℝ) : Prop :=
  let low : ℝ := em.mantissa + if em.roundBit then 1 / 2 else 0
  if em.stickyBit then low < y ∧ y < low + 1 / 2 else y = low

theorem Locates.bounds {em : ExtendedMantissa} {y : ℝ} (h : Locates em y) : em.mantissa ≤ y ∧ y < em.mantissa + 1 := by
  obtain ⟨m, roundBit, stickyBit⟩ := em
  cases roundBit <;> cases stickyBit <;> simp [Locates] at h ⊢ <;> constructor <;> linarith

theorem Locates.shiftRightOne {em : ExtendedMantissa} {y : ℝ} (h : Locates em y) :
    Locates em.shiftRightOne (y / 2) := by
  obtain ⟨m, roundBit, stickyBit⟩ := em
  have hm : ((m % 2 : ℕ) : ℝ) + 2 * ((m / 2 : ℕ) : ℝ) = m := by exact_mod_cast Nat.mod_add_div m 2
  rcases Nat.mod_two_eq_zero_or_one m with hbit | hbit <;> rw [hbit] at hm <;> push_cast at hm <;>
    cases roundBit <;> cases stickyBit <;> simp [Locates, ExtendedMantissa.shiftRightOne, hbit] at h ⊢
  all_goals first | linarith | constructor <;> linarith

theorem Locates.shiftRight {em : ExtendedMantissa} {y : ℝ} (h : Locates em y) (k : ℕ) :
    Locates (em >>> k) (y / 2 ^ k) := by
  show Locates (k.repeat ExtendedMantissa.shiftRightOne em) (y / 2 ^ k)
  induction k with
  | zero => simpa [Nat.repeat] using h
  | succ k ih =>
    rw [Nat.repeat, pow_succ, ← div_div]
    exact ih.shiftRightOne

theorem Locates.roundedMantissa_eq {em : ExtendedMantissa} {y : ℝ} (h : Locates em y) :
    (em.roundedMantissa : ℤ) = roundEven y := by
  obtain ⟨m, roundBit, stickyBit⟩ := em
  cases roundBit <;> cases stickyBit <;>
    simp only [Locates, Bool.false_eq_true, if_true, if_false] at h
  case false.false =>
    show (m : ℤ) = roundEven y
    rw [h, add_zero]
    exact_mod_cast (roundEven_intCast m).symm
  case false.true =>
    refine (roundEven_eq_of_abs_sub_lt ?_).symm
    show |y - (m : ℤ)| < 1 / 2
    rw [Int.cast_natCast, abs_lt]
    constructor <;> linarith
  case true.false =>
    show ((m + m % 2 : ℕ) : ℤ) = roundEven y
    rw [h]
    exact_mod_cast (roundEven_add_half m).symm
  case true.true =>
    refine (roundEven_eq_of_abs_sub_lt ?_).symm
    show |y - ((m + 1 : ℕ) : ℤ)| < 1 / 2
    push_cast
    rw [abs_lt]
    constructor <;> linarith

end

/-! ## Doubles -/

section
open Float.Model Float.Model.UnpackedFloat

/-- The number with this sign. -/
def signed : Sign → ℝ → ℝ
  | .positive, r => r
  | .negative, r => -r

/-- The decoded double is this number. -/
def Denotes : UnpackedFloat → ℝ → Prop
  | .zero _, r => r = 0
  | .finite s m e _, r => r = signed s (m * 2 ^ e)
  | .infinity _, _ | .notANumber, _ => False

theorem signed_mul (s : Sign) (m e : ℝ) : signed s (m * e) = signed s m * e := by
  cases s <;> simp [signed]

theorem cast_apply (s : Sign) (m : ℕ) : ((s.apply m : ℤ) : ℝ) = signed s m := by
  cases s <;> simp [signed, Sign.apply]

theorem abs_signed (s : Sign) (r : ℝ) : |signed s r| = |r| := by
  cases s <;> simp [signed]

end

/-- What a double can be, if its exponent may be as great as it likes. -/
def IsBinary (x : ℝ) : Prop :=
  ∃ m e : ℤ, |m| ≤ 2 ^ 53 ∧ -1074 ≤ e ∧ x = m * 2 ^ e

theorem IsBinary.neg {x : ℝ} (h : IsBinary x) : IsBinary (-x) := by
  obtain ⟨m, e, hm, he, rfl⟩ := h
  exact ⟨-m, e, by rwa [abs_neg], he, by push_cast; ring⟩

theorem isBinary_intCast {n : ℤ} (h : |n| ≤ 2 ^ 53) : IsBinary n :=
  ⟨n, 0, h, by norm_num, by simp⟩

theorem isBinary_zero : IsBinary 0 := by exact_mod_cast isBinary_intCast (n := 0) (by norm_num)

theorem isBinary_one : IsBinary 1 := by exact_mod_cast isBinary_intCast (n := 1) (by norm_num)

theorem isBinary_two_pow (k : ℕ) : IsBinary (2 ^ k) := ⟨1, k, by norm_num, by omega, by simp⟩

/-- The exponent of the last bit of the doubles around `x`. -/
noncomputable def lastExponent (x : ℝ) : ℤ := max (Int.log 2 |x| - 52) (-1074)

/-- The double nearest to `x`, with even last bit on a tie. -/
noncomputable def nearest (x : ℝ) : ℝ := roundEven (x / 2 ^ lastExponent x) * 2 ^ lastExponent x

theorem nearest_zero : nearest 0 = 0 := by
  have hzero : roundEven 0 = 0 := by simpa using roundEven_intCast 0
  simp [nearest, hzero]

theorem nearest_neg (x : ℝ) : nearest (-x) = -nearest x := by
  simp only [nearest, lastExponent, abs_neg, neg_div, roundEven_neg, Int.cast_neg, neg_mul]

/-- The doubles around `x` use no more than 53 bits. -/
theorem abs_div_lastExponent_lt (x : ℝ) : |x / 2 ^ lastExponent x| < 2 ^ 53 := by
  have hpos : (0 : ℝ) < 2 ^ lastExponent x := by positivity
  have hle : (2 : ℝ) ^ (Int.log 2 |x| + 1) ≤ 2 ^ (53 + lastExponent x) :=
    zpow_le_zpow_right₀ one_le_two (by rw [lastExponent]; omega)
  rw [abs_div, abs_of_pos hpos, div_lt_iff₀ hpos, ← zpow_natCast, ← zpow_add₀ two_ne_zero]
  exact (Int.lt_zpow_succ_log_self one_lt_two |x|).trans_le hle

theorem abs_roundEven_div_le (x : ℝ) : |roundEven (x / 2 ^ lastExponent x)| ≤ 2 ^ 53 := by
  have hlt := abs_div_lastExponent_lt x
  rw [abs_lt] at hlt
  rw [abs_le]
  constructor
  · exact le_roundEven (by push_cast; linarith)
  · exact roundEven_le (by push_cast; linarith)

theorem nearest_isBinary (x : ℝ) : IsBinary (nearest x) :=
  ⟨roundEven (x / 2 ^ lastExponent x), lastExponent x, abs_roundEven_div_le x, le_max_right _ _, rfl⟩

/-- `nearest x` is nearer to `x` than any multiple of the last bit there. -/
theorem abs_nearest_sub_le_of_int (x : ℝ) (k : ℤ) : |nearest x - x| ≤ |k * 2 ^ lastExponent x - x| := by
  have hpos : (0 : ℝ) < 2 ^ lastExponent x := by positivity
  have hscale (y : ℝ) : |y * 2 ^ lastExponent x - x| = |y - x / 2 ^ lastExponent x| * 2 ^ lastExponent x := by
    rw [← abs_of_pos hpos, ← abs_mul, abs_of_pos hpos, sub_mul, div_mul_cancel₀ x hpos.ne']
  rw [nearest, hscale, hscale]
  exact mul_le_mul_of_nonneg_right (abs_roundEven_sub_le _ k) hpos.le

/-- A double is a multiple of the last bit at `x`, or there is one between it and `x`. -/
theorem IsBinary.eq_mul_or_le {x d : ℝ} (hx : 0 < x) (hd : IsBinary d) :
    (∃ k : ℤ, d = k * 2 ^ lastExponent x) ∨
      ∃ k : ℤ, d ≤ k * 2 ^ lastExponent x ∧ k * 2 ^ lastExponent x ≤ x := by
  obtain ⟨m, e, hm, he, rfl⟩ := hd
  by_cases hle : lastExponent x ≤ e
  · obtain ⟨k, hk⟩ := Int.le.dest hle
    refine .inl ⟨m * 2 ^ k, ?_⟩
    rw [← hk, zpow_add₀ two_ne_zero, zpow_natCast]
    push_cast
    ring
  · -- The double has a finer last bit, so the least power of two of its size or more is between it and `x`.
    have hlog : lastExponent x = Int.log 2 |x| - 52 := by
      rw [lastExponent] at hle ⊢
      omega
    have hpower : ((2 ^ 52 : ℤ) : ℝ) * 2 ^ lastExponent x = 2 ^ Int.log 2 |x| := by
      rw [hlog, Int.cast_pow, Int.cast_ofNat, ← zpow_natCast, ← zpow_add₀ two_ne_zero]
      congr 1
      omega
    refine .inr ⟨2 ^ 52, ?_, ?_⟩
    · have hm' : (m : ℝ) ≤ 2 ^ 53 := by exact_mod_cast (le_abs_self m).trans hm
      rw [hpower]
      calc
        (m : ℝ) * 2 ^ e ≤ 2 ^ 53 * 2 ^ e := mul_le_mul_of_nonneg_right hm' (by positivity)
        _ = 2 ^ (53 + e) := by rw [zpow_add₀ two_ne_zero]; norm_num
        _ ≤ 2 ^ Int.log 2 |x| := zpow_le_zpow_right₀ one_le_two (by omega)
    · rw [hpower, abs_of_pos hx]
      exact Int.zpow_log_le_self one_lt_two hx

theorem abs_nearest_sub_le_of_pos {x d : ℝ} (hx : 0 < x) (hd : IsBinary d) : |nearest x - x| ≤ |d - x| := by
  rcases hd.eq_mul_or_le hx with ⟨k, rfl⟩ | ⟨k, hle, hle'⟩
  · exact abs_nearest_sub_le_of_int x k
  · have hnear := abs_nearest_sub_le_of_int x k
    rw [abs_of_nonpos (sub_nonpos.2 (hle.trans hle'))]
    rw [abs_of_nonpos (sub_nonpos.2 hle')] at hnear
    linarith

/-- No double is nearer. -/
theorem abs_nearest_sub_le (x : ℝ) {d : ℝ} (hd : IsBinary d) : |nearest x - x| ≤ |d - x| := by
  rcases lt_trichotomy x 0 with hx | rfl | hx
  · have h := abs_nearest_sub_le_of_pos (neg_pos.2 hx) hd.neg
    rwa [nearest_neg, neg_sub_neg, neg_sub_neg, abs_sub_comm, abs_sub_comm x] at h
  · rw [nearest_zero, sub_self, abs_zero]
    exact abs_nonneg _
  · exact abs_nearest_sub_le_of_pos hx hd

theorem nearest_of_isBinary {x : ℝ} (hx : IsBinary x) : nearest x = x := by
  have h := abs_nearest_sub_le x hx
  rw [sub_self, abs_zero] at h
  exact sub_eq_zero.1 (abs_nonpos_iff.1 h)

/-! ## Order -/

theorem nearest_mono {x y : ℝ} (h : x ≤ y) : nearest x ≤ nearest y := by
  rcases h.eq_or_lt with rfl | hlt
  · exact le_rfl
  by_contra hcross
  rw [not_le] at hcross
  -- The roundings lie on the wrong sides of their midpoint.
  have hx := sq_le_sq.2 (abs_nearest_sub_le x (nearest_isBinary y))
  have hy := sq_le_sq.2 (abs_nearest_sub_le y (nearest_isBinary x))
  have hx' : 0 ≤ (nearest x - nearest y) * (2 * x - nearest x - nearest y) := by linarith
  have hy' : 0 ≤ (nearest x - nearest y) * (nearest x + nearest y - 2 * y) := by linarith
  have hxm := nonneg_of_mul_nonneg_right hx' (sub_pos.2 hcross)
  have hym := nonneg_of_mul_nonneg_right hy' (sub_pos.2 hcross)
  linarith

theorem nearest_le {x d : ℝ} (hd : IsBinary d) (h : x ≤ d) : nearest x ≤ d :=
  (nearest_mono h).trans_eq (nearest_of_isBinary hd)

theorem le_nearest {x d : ℝ} (hd : IsBinary d) (h : d ≤ x) : d ≤ nearest x :=
  (nearest_of_isBinary hd).symm.trans_le (nearest_mono h)

theorem abs_nearest_le {x d : ℝ} (hd : IsBinary d) (h : |x| ≤ d) : |nearest x| ≤ d :=
  abs_le.2 ⟨le_nearest hd.neg (abs_le.1 h).1, nearest_le hd (abs_le.1 h).2⟩

end Easel.Number
