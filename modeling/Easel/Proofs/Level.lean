import Easel.Level
import Easel.Proofs.Number.Extended
import Easel.Proofs.Number.Integral

/-!
# Grays of levels

Clamping brings every level between 0 and 100 and keeps the order of levels, infinities included
(`hasExtendedValue_clamp`, `clamp_le_clamp`). A gray is then calculated with three roundings. Rounding keeps order, so
what comes out of them, `shade`, falls from 255 to 0 while the level rises from 0 to 100 (`shade_antitone`), and its
whole part fits into a byte (`toNat_gray`).

`gray_antitone`: of two levels, the greater one has no greater gray.
-/

namespace Easel.Level

open Number

/-! ## Clamping -/

theorem hasValue_least : HasValue 0 (0 : ℝ) := by exact_mod_cast hasValue_ofNat (n := 0) (by norm_num)

theorem hasValue_greatest : HasValue 100 (100 : ℝ) := by exact_mod_cast hasValue_ofNat (n := 100) (by norm_num)

theorem clamp_of_isNaN {v : Float} (hv : v.isNaN = true) : clamp v = 0 := if_pos hv

theorem hasExtendedValue_clamp {v : Float} {r : EReal} (hv : HasExtendedValue v r) :
    HasExtendedValue (clamp v) (max 0 (min r 100)) := by
  have hzero : v < 0 ↔ r < 0 := hv.lt_iff (.value hasValue_least)
  have hhundred : 100 < v ↔ 100 < r := (HasExtendedValue.value hasValue_greatest).lt_iff hv
  rw [clamp, hv.isNaN_eq_false, if_neg Bool.false_ne_true]
  by_cases hlow : r < 0
  · rw [if_pos (hzero.2 hlow), max_eq_left ((min_le_left r 100).trans hlow.le)]
    exact .value hasValue_least
  rw [if_neg (hzero.not.2 hlow)]
  by_cases hhigh : 100 < r
  · rw [if_pos (hhundred.2 hhigh), min_eq_right hhigh.le, max_eq_right (by norm_num)]
    exact .value hasValue_greatest
  rw [if_neg (hhundred.not.2 hhigh), min_eq_left (not_lt.1 hhigh), max_eq_right (not_lt.1 hlow)]
  exact hv

/-- What is between 0 and 100 is neither of the infinities. -/
theorem exists_hasValue_of_mem {v : Float} {r : EReal} (hv : HasExtendedValue v r) (hr : 0 ≤ r ∧ r ≤ 100) :
    ∃ a : ℝ, HasValue v a ∧ 0 ≤ a ∧ a ≤ 100 := by
  cases hv with
  | value h => exact ⟨_, h, EReal.coe_nonneg.1 hr.1, EReal.coe_le_coe_iff.1 hr.2⟩
  | bot => exact absurd hr.1 (not_le.2 (EReal.bot_lt_coe 0))
  | top => exact absurd hr.2 (not_le.2 (EReal.coe_lt_top 100))

theorem exists_hasValue_clamp (v : Float) : ∃ a : ℝ, HasValue (clamp v) a ∧ 0 ≤ a ∧ a ≤ 100 := by
  cases hnan : v.isNaN with
  | true => exact ⟨0, clamp_of_isNaN hnan ▸ hasValue_least, le_rfl, by norm_num⟩
  | false =>
    obtain ⟨r, hr⟩ := exists_hasExtendedValue hnan
    exact exists_hasValue_of_mem (hasExtendedValue_clamp hr) ⟨le_max_left _ _, max_le (by norm_num) (min_le_right _ _)⟩

theorem clamp_eq_self {v : Float} {a : ℝ} (hv : HasValue v a) (ha : 0 ≤ a ∧ a ≤ 100) : clamp v = v := by
  have hzero : ¬ v < 0 := (hv.lt_iff hasValue_least).not.2 (not_lt.2 ha.1)
  have hhundred : ¬ 100 < v := (hasValue_greatest.lt_iff hv).not.2 (not_lt.2 ha.2)
  rw [clamp, hv.isNaN_eq_false, if_neg Bool.false_ne_true, if_neg hzero, if_neg hhundred]

theorem clamp_clamp (v : Float) : clamp (clamp v) = clamp v := by
  obtain ⟨a, ha, hmem⟩ := exists_hasValue_clamp v
  exact clamp_eq_self ha hmem

theorem clamp_le_clamp {v w : Float} (h : v ≤ w) : clamp v ≤ clamp w := by
  obtain ⟨r, s, hr, hs, hle⟩ := exists_hasExtendedValue_of_le h
  exact ((hasExtendedValue_clamp hr).le_iff (hasExtendedValue_clamp hs)).2 (max_le_max_left 0 (min_le_min_right 100 hle))

/-! ## Shades -/

/-- What is calculated from a level between 0 and 100, a rounding for each operation. -/
noncomputable def shade (a : ℝ) : ℝ := nearest (nearest (255 * nearest (100 - a)) / 100)

theorem shade_antitone : Antitone shade := by
  intro a b hab
  have hdifference : nearest (100 - b) ≤ nearest (100 - a) := nearest_mono (by linarith)
  have hproduct : nearest (255 * nearest (100 - b)) ≤ nearest (255 * nearest (100 - a)) :=
    nearest_mono (by linarith)
  exact nearest_mono (by linarith)

theorem shade_zero : shade 0 = 255 := by
  have hlevel : nearest (100 - 0) = 100 := by exact_mod_cast nearest_intCast (n := 100) (by norm_num)
  have hproduct : nearest (255 * 100) = 25500 := by
    rw [show (255 * 100 : ℝ) = 25500 by norm_num]
    exact_mod_cast nearest_intCast (n := 25500) (by norm_num)
  rw [shade, hlevel, hproduct, show (25500 / 100 : ℝ) = 255 by norm_num]
  exact_mod_cast nearest_intCast (n := 255) (by norm_num)

theorem shade_hundred : shade 100 = 0 := by
  rw [shade, sub_self, nearest_zero, mul_zero, nearest_zero, zero_div, nearest_zero]

theorem shade_mem {a : ℝ} (ha : 0 ≤ a ∧ a ≤ 100) : 0 ≤ shade a ∧ shade a ≤ 255 :=
  ⟨shade_hundred ▸ shade_antitone ha.2, shade_zero ▸ shade_antitone ha.1⟩

theorem hasValue_shade {v : Float} {a : ℝ} (hv : HasValue v a) (ha : 0 ≤ a ∧ a ≤ 100) :
    HasValue (255 * (100 - v) / 100) (shade a) := by
  have hfactor : HasValue 255 (255 : ℝ) := by exact_mod_cast hasValue_ofNat (n := 255) (by norm_num)
  have hsmall {x : ℝ} (hx : 0 ≤ x ∧ x ≤ 2 ^ 15) : |x| ≤ 2 ^ 1023 := by
    rw [abs_of_nonneg hx.1]
    exact hx.2.trans (pow_le_pow_right₀ one_le_two (by norm_num))
  have hdifference : HasValue (100 - v) (nearest (100 - a)) :=
    hasValue_greatest.sub hv (hsmall ⟨by linarith, by linarith⟩)
  have hlower : 0 ≤ nearest (100 - a) := le_nearest isBinary_zero (by linarith)
  have hupper : nearest (100 - a) ≤ 2 ^ 7 := nearest_le (isBinary_two_pow 7) (by linarith)
  have hproduct : HasValue (255 * (100 - v)) (nearest (255 * nearest (100 - a))) :=
    hfactor.mul hdifference (hsmall ⟨by positivity, by linarith⟩)
  have hlower' : 0 ≤ nearest (255 * nearest (100 - a)) := le_nearest isBinary_zero (by positivity)
  have hupper' : nearest (255 * nearest (100 - a)) ≤ 2 ^ 15 := nearest_le (isBinary_two_pow 15) (by linarith)
  exact hproduct.div hasValue_greatest (by norm_num) (hsmall ⟨by positivity, by linarith⟩)

/-! ## Grays -/

/-- What is calculated for a level, NaN included, is the shade of a number between 0 and 100. -/
theorem exists_eq_shade (v : Float) :
    ∃ (a : ℝ) (q : ℚ), HasValue (clamp v) a ∧ value? (255 * (100 - clamp v) / 100) = some q ∧ q = shade a ∧
      0 ≤ q ∧ q ≤ 255 := by
  obtain ⟨a, ha, hmem⟩ := exists_hasValue_clamp v
  obtain ⟨q, hq, hqa⟩ := hasValue_shade ha hmem
  obtain ⟨hlower, hupper⟩ := shade_mem hmem
  rw [← hqa] at hlower hupper
  exact ⟨a, q, ha, hq, hqa, by exact_mod_cast hlower, by exact_mod_cast hupper⟩

/-- A byte holds the whole part of such a number. -/
theorem toNat_gray {v : Float} {q : ℚ} (hq : value? (255 * (100 - clamp v) / 100) = some q) (hlower : 0 ≤ q)
    (hupper : q ≤ 255) : (gray v).toNat = ⌊q⌋ := by
  have hnonneg : 0 ≤ ⌊q⌋ := Int.floor_nonneg.2 hlower
  have hle : ⌊q⌋ ≤ 255 := by exact_mod_cast (Int.floor_le q).trans hupper
  rw [gray, wholePart_eq_floor, hq, Option.elim_some, UInt8.toNat_ofNat']
  omega

theorem gray_le_gray {v w : Float} (h : v ≤ w) : gray w ≤ gray v := by
  obtain ⟨a, q, ha, hq, hqa, hlower, hupper⟩ := exists_eq_shade v
  obtain ⟨b, r, hb, hr, hrb, hlower', hupper'⟩ := exists_eq_shade w
  have hab : a ≤ b := (ha.le_iff hb).1 (clamp_le_clamp h)
  have hrq : r ≤ q := by
    rw [← Rat.cast_le (K := ℝ), hqa, hrb]
    exact shade_antitone hab
  rw [UInt8.le_iff_toNat_le, ← Int.ofNat_le, toNat_gray hq hlower hupper, toNat_gray hr hlower' hupper']
  exact Int.floor_mono hrq

theorem gray_clamp (v : Float) : gray (clamp v) = gray v := by
  rw [gray, gray, clamp_clamp]

theorem gray_of_isNaN {v : Float} (hv : v.isNaN = true) : gray v = gray 0 := by
  have hzero : clamp 0 = 0 := clamp_eq_self hasValue_least (by norm_num)
  rw [gray, gray, clamp_of_isNaN hv, hzero]

/-- Of two levels, of which the greater one may be infinite, the greater one has no greater gray. What is calculated for
a level, NaN included, is a number between 0 and 255, and the gray is its whole part. The gray is that of the clamped
level, and for NaN that of 0. -/
theorem gray_antitone :
    (∀ v w : Float, v ≤ w → gray w ≤ gray v) ∧
      ∀ v : Float,
        (∃ q : ℚ, value? (255 * (100 - clamp v) / 100) = some q ∧ 0 ≤ q ∧ q ≤ 255 ∧ (gray v).toNat = ⌊q⌋) ∧
          gray v = gray (clamp v) ∧
          (v.isNaN = true → gray v = gray 0) := by
  refine ⟨fun v w => gray_le_gray, fun v => ⟨?_, (gray_clamp v).symm, gray_of_isNaN⟩⟩
  obtain ⟨-, q, -, hq, -, hlower, hupper⟩ := exists_eq_shade v
  exact ⟨q, hq, hlower, hupper, toNat_gray hq hlower hupper⟩

/-- The least double above 0 is as white as 0, and infinity is as black as 100. -/
theorem gray_antitone_infinite :
    let least := Float.ofBits 1
    let infinity := Float.ofBits 0x7FF0000000000000
    let nan := Float.ofBits 0x7FF8000000000000
    least ≤ infinity ∧ gray infinity ≤ gray least ∧ gray least = 255 ∧ gray infinity = 0 ∧
      nan.isNaN = true ∧ gray nan = gray 0 := by
  intro least infinity nan
  have hle : least ≤ infinity := by decide +kernel
  have hnan : nan.isNaN = true := by decide +kernel
  exact ⟨hle, gray_antitone.1 least infinity hle, by decide +kernel, by decide +kernel, hnan,
    (gray_antitone.2 nan).2.2 hnan⟩

end Easel.Level
