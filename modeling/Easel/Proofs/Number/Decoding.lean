import Easel.Proofs.Number.Rounding
import Easel.Proofs.Number.Value

/-!
# Doubles as real numbers

`HasValue x r`: the double is the real number `r`. What a double decodes to has one form for each number
(`IsCanonical`), in which the exponent counts before the significand; a number that is packed into a double in
this form is decoded in it again (`unpack_pack`), and numbers in this form compare as their values do
(`compare_eq`).

`HasValue.lt_iff`, `HasValue.le_iff` and `HasValue.beq_iff`: comparing doubles is comparing their values.
-/

namespace Easel.Number

open Float.Model Float.Model.UnpackedFloat

/-! ## Values -/

/-- The double is this number. -/
def HasValue (x : Float) (r : ℝ) : Prop := ∃ q : ℚ, value? x = some q ∧ (q : ℝ) = r

theorem hasValue_iff {x : Float} {r : ℝ} : HasValue x r ↔ Denotes x.toModel.unpack r := by
  unfold HasValue value?
  cases x.toModel.unpack with
  | infinity | notANumber => simp [Denotes]
  | zero => simp [Denotes, eq_comm]
  | finite s m e => simp [Denotes, eq_comm, signed_mul, ← cast_apply]

theorem HasValue.isInf_eq_false {x : Float} {r : ℝ} (h : HasValue x r) : x.isInf = false := by
  have hr := hasValue_iff.1 h
  show x.toModel.unpack.isInf = false
  cases hform : x.toModel.unpack with
  | infinity s =>
    rw [hform] at hr
    exact hr.elim
  | _ => rfl

/-- The significand has 53 bits, or fewer where the exponent is the least one. -/
def IsCanonical : UnpackedFloat → Prop
  | .finite _ m e _ => m < 2 ^ 53 ∧ -1074 ≤ e ∧ (2 ^ 52 ≤ m ∨ e = -1074)
  | _ => True

theorem isBinary_of_denotes {u : UnpackedFloat} {r : ℝ} (hu : IsCanonical u) (hr : Denotes u r) : IsBinary r := by
  cases u with
  | infinity | notANumber => exact hr.elim
  | zero =>
    obtain rfl : r = 0 := hr
    simpa using isBinary_intCast (n := 0) (by norm_num)
  | finite s m e =>
    refine ⟨s.apply m, e, ?_, hu.2.1, by rw [hr, signed_mul, cast_apply]⟩
    have hm := hu.1
    cases s <;> simp only [Sign.apply, abs_neg, Nat.abs_cast] <;> omega

/-! ## Packing -/

theorem toNat_one_append {k : ℕ} (b : BitVec k) : (1#1 ++ b).toNat = 2 ^ k + b.toNat := by
  rw [BitVec.toNat_append, ← Nat.shiftLeft_add_eq_or_of_lt b.isLt]
  simp [Nat.shiftLeft_eq]

theorem isCanonical_unpack (b : BitVec Format.binary64.numBits) :
    IsCanonical (UnpackedFloat.unpack .binary64 b) := by
  fun_cases UnpackedFloat.unpack with
  | case1 | case2 | case3 => trivial
  | case4 m e exponent _ _ _ hzero =>
    have hexponent : exponent + 1 = -1074 := by
      simp [exponent, hzero, Format.exponentBias]
    have hm : m.toNat < 2 ^ 52 := m.isLt
    exact ⟨by omega, by omega, .inr hexponent⟩
  | case5 m e exponent _ _ _ hnonzero =>
    have hm : m.toNat < 2 ^ 52 := m.isLt
    have hpos : e.toNat ≠ 0 := fun h => hnonzero (BitVec.eq_of_toNat_eq h)
    have hexponent : exponent = e.toNat - 1075 := by
      simp [exponent, Format.exponentBias]
    have htoNat : (1#1 ++ m).toNat = 2 ^ 52 + m.toNat := toNat_one_append m
    exact ⟨by omega, by omega, .inl (by omega)⟩

theorem isCanonical_toModel (x : Float) : IsCanonical x.toModel.unpack := isCanonical_unpack _

theorem exponent_le_of_unpack {b : BitVec Format.binary64.numBits} {s : Sign} {m : ℕ} {e : ℤ} {hm : 0 < m}
    (h : UnpackedFloat.unpack .binary64 b = .finite s m e hm) : e ≤ 971 := by
  revert h
  fun_cases UnpackedFloat.unpack with
  | case1 | case2 | case3 => nofun
  | case4 m' e' exponent _ _ _ hzero =>
    intro h
    injection h with _ _ hexponent
    rw [← hexponent]
    simp [exponent, hzero, Format.exponentBias]
  | case5 m' e' exponent _ _ hones =>
    have hlt : e'.toNat < 2047 := by
      have : e'.toNat < 2048 := e'.isLt
      have : e'.toNat ≠ 2047 := fun h => hones (BitVec.eq_of_toNat_eq h)
      omega
    intro h
    injection h with _ _ hexponent
    rw [← hexponent]
    simp [exponent, Format.exponentBias]
    omega

/-- Below `2^1024` the exponent of a number has a place in a double. -/
theorem exponent_le_of_lt {s : Sign} {m : ℕ} {e : ℤ} {hm : 0 < m} {r : ℝ} (hu : IsCanonical (.finite s m e hm))
    (hr : Denotes (.finite s m e hm) r) (hlt : |r| < 2 ^ 1024) : e ≤ 971 := by
  obtain ⟨-, -, hnormal | hleast⟩ := hu
  · have habs : |r| = m * 2 ^ e := by
      rw [show r = signed s (m * 2 ^ e) from hr, abs_signed, abs_of_nonneg (by positivity)]
    have hle : (2 : ℝ) ^ (52 + e) < 2 ^ (1024 : ℤ) := by
      calc
        (2 : ℝ) ^ (52 + e) = ((2 ^ 52 : ℕ) : ℝ) * 2 ^ e := by rw [zpow_add₀ two_ne_zero]; norm_num
        _ ≤ m * 2 ^ e := mul_le_mul_of_nonneg_right (by exact_mod_cast hnormal) (by positivity)
        _ < 2 ^ (1024 : ℤ) := by rw [← habs]; exact_mod_cast hlt
    have := (zpow_lt_zpow_iff_right₀ one_lt_two).1 hle
    omega
  · omega

/-- What is packed into a double is what it decodes to. -/
theorem unpack_pack {u : UnpackedFloat} {r : ℝ} (hu : IsCanonical u) (hr : Denotes u r) (hlt : |r| < 2 ^ 1024) :
    (Float.Model.pack u).unpack = u := by
  show UnpackedFloat.unpack .binary64 (UnpackedFloat.pack .binary64 u) = u
  cases u with
  | infinity | notANumber => exact hr.elim
  | zero s => exact unpack_packedZero
  | finite s m e hm =>
    have hle := exponent_le_of_lt hu hr hlt
    obtain ⟨hm53, hge, hform⟩ := hu
    have hbias : (e + Format.binary64.exponentBias + Format.binary64.mantissaBitsWithoutImplicit : ℤ) = e + 1075 := by
      simp [Format.exponentBias]
      ring
    have hlog : m.log2 + 1 = Format.binary64.mantissaBits ↔ 2 ^ 52 ≤ m := by
      have := Nat.log2_lt hm.ne' (k := 53)
      have := Nat.log2_lt hm.ne' (k := 52)
      simp only [Format.mantissaBits]
      omega
    unfold UnpackedFloat.pack
    simp only [hbias, hlog]
    rw [if_neg (by show ¬ 2 ^ 11 ≤ _; omega)]
    split
    · next hnormal =>
      obtain ⟨k, hk⟩ := Int.eq_ofNat_of_zero_le (show 0 ≤ e + 1075 by omega)
      have hbits : (BitVec.ofNat 11 k).toNat = k := by
        rw [BitVec.toNat_ofNat, Nat.mod_eq_of_lt (by omega)]
      have hones : BitVec.ofNat 11 k ≠ -1#11 := by
        intro h
        rw [← BitVec.toNat_inj, hbits] at h
        norm_num at h
        omega
      have hzeros : BitVec.ofNat 11 k ≠ 0#11 := by
        intro h
        rw [← BitVec.toNat_inj, hbits] at h
        norm_num at h
        omega
      have hmantissa : (1#1 ++ BitVec.ofNat 52 m).toNat = m := by
        rw [toNat_one_append, BitVec.toNat_ofNat]
        omega
      rw [hk, Int.toNat_natCast]
      unfold UnpackedFloat.unpack
      simp only [unpackExponent_packComponents, unpackMantissa_packComponents, unpackSign_packComponents,
        Sign.ofBitVec_toBitVec, hones, hzeros, hmantissa, hbits, if_false]
      congr 1
      simp [Format.exponentBias]
      omega
    · next hsubnormal =>
      have hmantissa : (BitVec.ofNat 52 m).toNat = m := by
        rw [BitVec.toNat_ofNat, Nat.mod_eq_of_lt (by omega)]
      have hnonzero : BitVec.ofNat 52 m ≠ 0#52 := by
        intro h
        rw [← BitVec.toNat_inj, hmantissa] at h
        norm_num at h
        omega
      have hones : 0#11 ≠ -1#11 := by decide
      unfold UnpackedFloat.unpack
      simp only [unpackExponent_packComponents, unpackMantissa_packComponents, unpackSign_packComponents,
        Sign.ofBitVec_toBitVec, hones, hnonzero, hmantissa, if_false, if_true, dif_neg, not_false_eq_true]
      congr 1
      simp [Format.exponentBias]
      omega

/-- The double made of a decoded number is that number. -/
theorem hasValue_pack {u : UnpackedFloat} {r : ℝ} (hu : IsCanonical u) (hr : Denotes u r) (hlt : |r| < 2 ^ 1024) :
    HasValue (.ofModel (.pack u)) r := by
  rw [hasValue_iff]
  show Denotes (Float.Model.pack u).unpack r
  rwa [unpack_pack hu hr hlt]

theorem HasValue.abs_lt {x : Float} {r : ℝ} (h : HasValue x r) : |r| < 2 ^ 1024 := by
  have hu := isCanonical_toModel x
  have hr := hasValue_iff.1 h
  cases hform : x.toModel.unpack with
  | infinity | notANumber =>
    rw [hform] at hr
    exact hr.elim
  | zero =>
    rw [hform] at hr
    rw [show r = 0 from hr, abs_zero]
    positivity
  | finite s m e hm =>
    rw [hform] at hu hr
    have hle : e ≤ 971 := exponent_le_of_unpack hform
    rw [show r = signed s (m * 2 ^ e) from hr, abs_signed, abs_of_nonneg (by positivity)]
    calc
      (m : ℝ) * 2 ^ e < ((2 ^ 53 : ℕ) : ℝ) * 2 ^ e := mul_lt_mul_of_pos_right (by exact_mod_cast hu.1) (by positivity)
      _ = 2 ^ (53 + e) := by rw [zpow_add₀ two_ne_zero]; norm_num
      _ ≤ 2 ^ (1024 : ℤ) := zpow_le_zpow_right₀ one_le_two (by omega)
      _ = 2 ^ 1024 := zpow_natCast 2 1024

/-! ## Order -/

/-- Where exponents differ they decide: the number with the greater one has a full significand. -/
theorem scaled_lt_scaled {m m' : ℕ} {e e' : ℤ} (hm : m < 2 ^ 53) (he : -1074 ≤ e) (hm' : 2 ^ 52 ≤ m' ∨ e' = -1074)
    (hlt : e < e') : (m : ℝ) * 2 ^ e < m' * 2 ^ e' := by
  have hnormal : 2 ^ 52 ≤ m' := hm'.resolve_right (by omega)
  calc
    (m : ℝ) * 2 ^ e < ((2 ^ 53 : ℕ) : ℝ) * 2 ^ e := mul_lt_mul_of_pos_right (by exact_mod_cast hm) (by positivity)
    _ = ((2 ^ 52 : ℕ) : ℝ) * 2 ^ (1 + e) := by rw [zpow_add₀ two_ne_zero]; push_cast; ring
    _ ≤ ((2 ^ 52 : ℕ) : ℝ) * 2 ^ e' :=
      mul_le_mul_of_nonneg_left (zpow_le_zpow_right₀ one_le_two (by omega)) (by positivity)
    _ ≤ m' * 2 ^ e' := mul_le_mul_of_nonneg_right (by exact_mod_cast hnormal) (by positivity)

theorem compare_scaled {m m' : ℕ} {e e' : ℤ} (hm : m < 2 ^ 53) (hm' : m' < 2 ^ 53) (he : -1074 ≤ e) (he' : -1074 ≤ e')
    (h : 2 ^ 52 ≤ m ∨ e = -1074) (h' : 2 ^ 52 ≤ m' ∨ e' = -1074) :
    (compare e e').then (compare m m') = compare ((m : ℝ) * 2 ^ e) (m' * 2 ^ e') := by
  rcases lt_trichotomy e e' with hlt | rfl | hlt
  · rw [compare_lt_iff_lt.2 hlt, compare_lt_iff_lt.2 (scaled_lt_scaled hm he h' hlt)]
    rfl
  · have hpos : (0 : ℝ) < 2 ^ e := by positivity
    rw [compare_eq_iff_eq.2 rfl]
    show compare m m' = _
    rcases lt_trichotomy m m' with hlt | rfl | hlt
    · rw [compare_lt_iff_lt.2 hlt, compare_lt_iff_lt.2 (mul_lt_mul_of_pos_right (by exact_mod_cast hlt) hpos)]
    · rw [compare_eq_iff_eq.2 rfl, compare_eq_iff_eq.2 rfl]
    · rw [compare_gt_iff_gt.2 hlt, compare_gt_iff_gt.2 (mul_lt_mul_of_pos_right (by exact_mod_cast hlt) hpos)]
  · rw [compare_gt_iff_gt.2 hlt, compare_gt_iff_gt.2 (scaled_lt_scaled hm' he' h hlt)]
    rfl

/-- There is one canonical form of each number other than zero. -/
theorem eq_of_denotes {u u' : UnpackedFloat} {r : ℝ} (hu : IsCanonical u) (hu' : IsCanonical u') (hr : Denotes u r)
    (hr' : Denotes u' r) (h0 : r ≠ 0) : u = u' := by
  cases u with
  | infinity | notANumber => exact hr.elim
  | zero => exact absurd hr h0
  | finite s m e hm =>
    cases u' with
    | infinity | notANumber => exact hr'.elim
    | zero => exact absurd hr' h0
    | finite s' m' e' hm' =>
      have hvalue : signed s (m * 2 ^ e) = signed s' (m' * 2 ^ e') := hr.symm.trans hr'
      have hpos : (0 : ℝ) < m * 2 ^ e := by positivity
      have hpos' : (0 : ℝ) < m' * 2 ^ e' := by positivity
      have habs : (m : ℝ) * 2 ^ e = m' * 2 ^ e' := by
        rw [← abs_of_pos hpos, ← abs_signed s, hvalue, abs_signed, abs_of_pos hpos']
      obtain rfl : s = s' := by
        cases s <;> cases s' <;> first | rfl | (simp only [signed] at hvalue; linarith)
      have hscaled := compare_scaled hu.1 hu'.1 hu.2.1 hu'.2.1 hu.2.2 hu'.2.2
      rw [habs, compare_eq_iff_eq.2 rfl, Ordering.then_eq_eq, compare_eq_iff_eq, compare_eq_iff_eq] at hscaled
      obtain ⟨rfl, rfl⟩ := hscaled
      rfl

theorem HasValue.unique {x : Float} {a b : ℝ} (ha : HasValue x a) (hb : HasValue x b) : a = b := by
  obtain ⟨q, hq, rfl⟩ := ha
  obtain ⟨q', hq', rfl⟩ := hb
  rw [Option.some.inj (hq.symm.trans hq')]

/-- A number other than zero is the value of one double. -/
theorem HasValue.eq {x y : Float} {r : ℝ} (hx : HasValue x r) (hy : HasValue y r) (h0 : r ≠ 0) : x = y := by
  have hunpack : x.toModel.unpack = y.toModel.unpack :=
    eq_of_denotes (isCanonical_toModel x) (isCanonical_toModel y) (hasValue_iff.1 hx) (hasValue_iff.1 hy) h0
  obtain ⟨⟨⟨b⟩, hb⟩⟩ := x
  obtain ⟨⟨⟨b'⟩, hb'⟩⟩ := y
  obtain rfl : b = b' := (unpack_inj_of_valid hb hb').1 hunpack
  rfl

theorem compare_neg_neg (a b : ℝ) : compare (-a) (-b) = (compare a b).swap := by
  rcases lt_trichotomy a b with h | rfl | h
  · rw [compare_lt_iff_lt.2 h, compare_gt_iff_gt.2 (neg_lt_neg h)]
    rfl
  · rw [compare_eq_iff_eq.2 rfl, compare_eq_iff_eq.2 rfl]
    rfl
  · rw [compare_gt_iff_gt.2 h, compare_lt_iff_lt.2 (neg_lt_neg h)]
    rfl

theorem compare_eq {u u' : UnpackedFloat} {r r' : ℝ} (hu : IsCanonical u) (hu' : IsCanonical u') (hr : Denotes u r)
    (hr' : Denotes u' r') : u.compare u' = some (compare r r') := by
  have hpos {m : ℕ} (hm : 0 < m) (e : ℤ) : 0 < signed .positive (m * 2 ^ e) := by
    show (0 : ℝ) < m * 2 ^ e
    positivity
  have hneg {m : ℕ} (hm : 0 < m) (e : ℤ) : signed .negative (m * 2 ^ e) < 0 := neg_neg_of_pos (hpos hm e)
  cases u with
  | infinity | notANumber => exact hr.elim
  | zero s =>
    obtain rfl : r = 0 := hr
    cases u' with
    | infinity | notANumber => exact hr'.elim
    | zero s' =>
      obtain rfl : r' = 0 := hr'
      rw [compare_eq_iff_eq.2 rfl]
      rfl
    | finite s' m' e' hm' =>
      obtain rfl := hr'
      cases s' with
      | negative => rw [compare_gt_iff_gt.2 (hneg hm' e')]; rfl
      | positive => rw [compare_lt_iff_lt.2 (hpos hm' e')]; rfl
  | finite s m e hm =>
    obtain rfl := hr
    cases u' with
    | infinity | notANumber => exact hr'.elim
    | zero s' =>
      obtain rfl : r' = 0 := hr'
      cases s with
      | negative => rw [compare_lt_iff_lt.2 (hneg hm e)]; rfl
      | positive => rw [compare_gt_iff_gt.2 (hpos hm e)]; rfl
    | finite s' m' e' hm' =>
      obtain rfl := hr'
      have hscaled := compare_scaled hu.1 hu'.1 hu.2.1 hu'.2.1 hu.2.2 hu'.2.2
      cases s <;> cases s'
      case negative.negative => rw [signed, signed, compare_neg_neg, ← hscaled]; rfl
      case negative.positive => rw [compare_lt_iff_lt.2 ((hneg hm e).trans (hpos hm' e'))]; rfl
      case positive.negative => rw [compare_gt_iff_gt.2 ((hneg hm' e').trans (hpos hm e))]; rfl
      case positive.positive => rw [signed, signed, ← hscaled]; rfl

section
variable {x y : Float} {a b : ℝ} (hx : HasValue x a) (hy : HasValue y b)
include hx hy

theorem HasValue.compare_eq : x.toModel.unpack.compare y.toModel.unpack = some (compare a b) :=
  Number.compare_eq (isCanonical_toModel x) (isCanonical_toModel y) (hasValue_iff.1 hx) (hasValue_iff.1 hy)

theorem HasValue.lt_iff : x < y ↔ a < b := by
  show decide (x.toModel.unpack.lt y.toModel.unpack = true) = true ↔ a < b
  rw [UnpackedFloat.lt, hx.compare_eq hy, ← compare_lt_iff_lt (a := a) (b := b)]
  simp

theorem HasValue.le_iff : x ≤ y ↔ a ≤ b := by
  show decide (x.toModel.unpack.le y.toModel.unpack = true) = true ↔ a ≤ b
  rw [UnpackedFloat.le, hx.compare_eq hy, ← compare_le_iff_le (a := a) (b := b)]
  simp [Ordering.isLE_iff_ne_gt]

theorem HasValue.beq_iff : (x == y) = true ↔ a = b := by
  show x.toModel.unpack.beq y.toModel.unpack = true ↔ a = b
  rw [UnpackedFloat.beq, hx.compare_eq hy, ← compare_eq_iff_eq (a := a) (b := b)]
  simp

end

end Easel.Number
