import Easel.Proofs.Number.Decoding

/-!
# Doubles on the extended real line

A double that is not NaN is a real number or one of the two infinities. `HasExtendedValue x r` says which, and
comparing such doubles is comparing what they are (`HasExtendedValue.lt_iff`, `HasExtendedValue.le_iff`). Nothing is
less than, equal to or greater than NaN, so of two doubles in order neither is NaN (`exists_hasExtendedValue_of_le`).
-/

namespace Easel.Number

open Float.Model Float.Model.UnpackedFloat

/-- The double is this real number, or this infinity. -/
inductive HasExtendedValue (x : Float) : EReal → Prop
  | value {a : ℝ} (h : HasValue x a) : HasExtendedValue x a
  | bot (h : x.toModel.unpack = .infinity .negative) : HasExtendedValue x ⊥
  | top (h : x.toModel.unpack = .infinity .positive) : HasExtendedValue x ⊤

theorem HasValue.isNaN_eq_false {x : Float} {a : ℝ} (h : HasValue x a) : x.isNaN = false := by
  have ha := hasValue_iff.1 h
  show x.toModel.unpack.isNaN = false
  cases hform : x.toModel.unpack with
  | notANumber =>
    rw [hform] at ha
    exact ha.elim
  | _ => rfl

theorem HasExtendedValue.hasValue {x : Float} {a : ℝ} (h : HasExtendedValue x a) : HasValue x a := by
  generalize hr : (a : EReal) = r at h
  cases h with
  | value h => rwa [EReal.coe_injective hr]
  | bot h => exact absurd hr (EReal.coe_ne_bot a)
  | top h => exact absurd hr (EReal.coe_ne_top a)

theorem HasExtendedValue.isNaN_eq_false {x : Float} {r : EReal} (h : HasExtendedValue x r) : x.isNaN = false := by
  cases h with
  | value h => exact h.isNaN_eq_false
  | bot h | top h =>
    show x.toModel.unpack.isNaN = false
    rw [h]
    rfl

theorem exists_hasExtendedValue {x : Float} (hx : x.isNaN = false) : ∃ r, HasExtendedValue x r := by
  have hnan : x.toModel.unpack.isNaN = false := hx
  cases hform : x.toModel.unpack with
  | notANumber =>
    rw [hform] at hnan
    cases hnan
  | infinity s =>
    cases s with
    | negative => exact ⟨⊥, .bot hform⟩
    | positive => exact ⟨⊤, .top hform⟩
  | zero s => exact ⟨_, .value (hasValue_iff.2 (hform ▸ rfl : Denotes x.toModel.unpack 0))⟩
  | finite s m e hm =>
    exact ⟨_, .value (hasValue_iff.2 (hform ▸ rfl : Denotes x.toModel.unpack (signed s (m * 2 ^ e))))⟩

/-! ## Order -/

theorem HasValue.compare_infinity {x : Float} {a : ℝ} (h : HasValue x a) :
    x.toModel.unpack.compare (.infinity .negative) = some .gt ∧
      x.toModel.unpack.compare (.infinity .positive) = some .lt ∧
      UnpackedFloat.compare (.infinity .negative) x.toModel.unpack = some .lt ∧
      UnpackedFloat.compare (.infinity .positive) x.toModel.unpack = some .gt := by
  have ha := hasValue_iff.1 h
  cases hform : x.toModel.unpack with
  | infinity | notANumber =>
    rw [hform] at ha
    exact ha.elim
  | zero | finite => exact ⟨rfl, rfl, rfl, rfl⟩

section
variable {x y : Float} {r s : EReal} (hx : HasExtendedValue x r) (hy : HasExtendedValue y s)
include hx hy

theorem HasExtendedValue.compare_eq : x.toModel.unpack.compare y.toModel.unpack = some (compare r s) := by
  cases hx with
  | value ha =>
    obtain ⟨hbot, htop, -, -⟩ := ha.compare_infinity
    cases hy with
    | value hb => rw [ha.compare_eq hb, ← cmp_eq_compare, ← cmp_eq_compare, EReal.coe_strictMono.cmp_map_eq]
    | bot h => rw [h, hbot, compare_gt_iff_gt.2 (EReal.bot_lt_coe _)]
    | top h => rw [h, htop, compare_lt_iff_lt.2 (EReal.coe_lt_top _)]
  | bot h =>
    cases hy with
    | value hb => rw [h, hb.compare_infinity.2.2.1, compare_lt_iff_lt.2 (EReal.bot_lt_coe _)]
    | bot h' => rw [h, h', compare_eq_iff_eq.2 rfl]; rfl
    | top h' => rw [h, h', compare_lt_iff_lt.2 bot_lt_top]; rfl
  | top h =>
    cases hy with
    | value hb => rw [h, hb.compare_infinity.2.2.2, compare_gt_iff_gt.2 (EReal.coe_lt_top _)]
    | bot h' => rw [h, h', compare_gt_iff_gt.2 bot_lt_top]; rfl
    | top h' => rw [h, h', compare_eq_iff_eq.2 rfl]; rfl

theorem HasExtendedValue.lt_iff : x < y ↔ r < s := by
  show decide (x.toModel.unpack.lt y.toModel.unpack = true) = true ↔ r < s
  rw [UnpackedFloat.lt, hx.compare_eq hy, ← compare_lt_iff_lt (a := r) (b := s)]
  simp

theorem HasExtendedValue.le_iff : x ≤ y ↔ r ≤ s := by
  show decide (x.toModel.unpack.le y.toModel.unpack = true) = true ↔ r ≤ s
  rw [UnpackedFloat.le, hx.compare_eq hy, ← compare_le_iff_le (a := r) (b := s)]
  simp [Ordering.isLE_iff_ne_gt]

end

theorem isNaN_eq_false_of_le {x y : Float} (h : x ≤ y) : x.isNaN = false ∧ y.isNaN = false := by
  have hle : x.toModel.unpack.le y.toModel.unpack = true := of_decide_eq_true h
  show x.toModel.unpack.isNaN = false ∧ y.toModel.unpack.isNaN = false
  cases hx : x.toModel.unpack <;> cases hy : y.toModel.unpack <;> rw [hx, hy] at hle
  case notANumber.notANumber | notANumber.infinity | notANumber.zero | notANumber.finite => cases hle
  case infinity.notANumber | zero.notANumber | finite.notANumber => cases hle
  all_goals exact ⟨rfl, rfl⟩

theorem exists_hasExtendedValue_of_le {x y : Float} (h : x ≤ y) :
    ∃ r s, HasExtendedValue x r ∧ HasExtendedValue y s ∧ r ≤ s := by
  obtain ⟨hx, hy⟩ := isNaN_eq_false_of_le h
  obtain ⟨r, hr⟩ := exists_hasExtendedValue hx
  obtain ⟨s, hs⟩ := exists_hasExtendedValue hy
  exact ⟨r, s, hr, hs, (hr.le_iff hs).1 h⟩

end Easel.Number
