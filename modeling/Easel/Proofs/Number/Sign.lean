import Easel.Number.Literal
import Mathlib

/-!
# The sign of a literal

No literal has a minus sign, and what it reads as has none either. Reading rounds at most twice and divides by
a power of ten, so it is enough that rounding, multiplication and division keep the sign plus and make no NaN
(`Unsigned`), and that a double keeps both when it is packed into bits.

`isUnsigned_of_read?`: the value of a literal is `+0` or greater.
-/

namespace Easel.Number

open Float.Model Float.Model.UnpackedFloat

/-! ## Decoded doubles -/

/-- Not NaN, and with no minus sign. -/
def Unsigned : UnpackedFloat → Prop
  | .notANumber => False
  | .infinity s | .zero s | .finite s _ _ _ => s = .positive

/-- Finite and greater than zero. A quotient by such a number is NaN only if the dividend is. -/
def Positive : UnpackedFloat → Prop
  | .finite s _ _ _ => s = .positive
  | _ => False

instance : DecidablePred Positive
  | .finite .positive _ _ _ => .isTrue rfl
  | .finite .negative _ _ _ => .isFalse nofun
  | .notANumber | .infinity _ | .zero _ => .isFalse id

theorem isNaN_of_unsigned {u : UnpackedFloat} (h : Unsigned u) : u.isNaN = false := by
  cases u with
  | notANumber => exact h.elim
  | infinity | zero | finite => rfl

theorem zero_le_of_unsigned {u : UnpackedFloat} (h : Unsigned u) : UnpackedFloat.le (.zero .positive) u := by
  cases u with
  | notANumber => exact h.elim
  | infinity s | zero s | finite s =>
    obtain rfl : s = .positive := h
    rfl

theorem unsigned_roundWithAccuracy (spec : Format) (m : Nat) (e : Int) (accuracy : Accuracy) :
    Unsigned (roundWithAccuracy spec .positive m e accuracy) := by
  unfold roundWithAccuracy
  dsimp only
  split <;> rfl

theorem unsigned_mul (spec : Format) {u u' : UnpackedFloat} (h : Positive u) (h' : Positive u') :
    Unsigned (mul spec u u') := by
  cases u with
  | notANumber | infinity | zero => exact h.elim
  | finite s m e =>
    cases u' with
    | notANumber | infinity | zero => exact h'.elim
    | finite s' m' e' =>
      obtain rfl : s = .positive := h
      obtain rfl : s' = .positive := h'
      exact unsigned_roundWithAccuracy _ _ _ _

theorem unsigned_div (spec : Format) {u u' : UnpackedFloat} (h : Unsigned u) (h' : Positive u') :
    Unsigned (div spec u u') := by
  cases u' with
  | notANumber | infinity | zero => exact h'.elim
  | finite s' m' e' =>
    obtain rfl : s' = .positive := h'
    cases u with
    | notANumber => exact h.elim
    | infinity s | zero s =>
      obtain rfl : s = .positive := h
      rfl
    | finite s m e =>
      obtain rfl : s = .positive := h
      exact unsigned_roundWithAccuracy _ _ _ _

theorem unsigned_ofScientific (spec : Format) (m : Nat) (e : Int) :
    Unsigned (UnpackedFloat.ofScientific spec m e) := by
  unfold UnpackedFloat.ofScientific
  split
  · rfl
  split
  · rfl
  split
  · rfl
  split
  · exact unsigned_mul spec rfl rfl
  · exact unsigned_div spec rfl rfl

theorem unsigned_ofNat (spec : Format) (n : Nat) : Unsigned (UnpackedFloat.ofNat spec n) := by
  unfold UnpackedFloat.ofNat UnpackedFloat.ofInt UnpackedFloat.normalize
  split
  · next h =>
    rw [Int.compare_eq_lt] at h
    omega
  · rfl
  · exact unsigned_roundWithAccuracy _ _ _ _

/-! ## Doubles as bits -/

/-- An exponent of ones without a mantissa is an infinity; with one it would be NaN. -/
theorem unsigned_unpack_packComponents {spec : Format} {exponent : BitVec spec.exponentBits}
    {mantissa : BitVec spec.mantissaBitsWithoutImplicit} (h : exponent = -1#_ → mantissa = 0#_) :
    Unsigned (UnpackedFloat.unpack spec (packComponents spec .positive exponent mantissa)) := by
  unfold UnpackedFloat.unpack
  simp only [unpackSign_packComponents, unpackExponent_packComponents, unpackMantissa_packComponents]
  split
  · next he =>
    rw [if_pos (h he)]
    rfl
  split
  · split <;> rfl
  · rfl

theorem unsigned_unpack_pack {u : UnpackedFloat} (h : Unsigned u) (spec : Format) :
    Unsigned (UnpackedFloat.unpack spec (UnpackedFloat.pack spec u)) := by
  have hpos := spec.he
  fun_cases UnpackedFloat.pack with
  | case1 => exact h.elim
  | case2 s | case3 s | case4 s =>
    obtain rfl : s = .positive := h
    exact unsigned_unpack_packComponents fun _ => rfl
  | case5 s m e _ bits biased hbiased hnormal =>
    obtain rfl : s = .positive := h
    refine unsigned_unpack_packComponents fun hones => ?_
    have hlt : biased < 2 ^ spec.exponentBits - 1 := by omega
    rw [BitVec.neg_one_eq_allOnes, ← BitVec.toNat_inj, BitVec.toNat_ofNat, BitVec.toNat_allOnes,
      Nat.mod_eq_of_lt (by omega)] at hones
    exact absurd hones (Nat.ne_of_lt hlt)
  | case6 s m e _ bits biased hbiased hnormal =>
    obtain rfl : s = .positive := h
    refine unsigned_unpack_packComponents fun hones => ?_
    -- A subnormal has an exponent of zeros, and there is at least one of them.
    have htwo := Nat.one_lt_two_pow (Nat.pos_iff_ne_zero.1 hpos)
    rw [BitVec.neg_one_eq_allOnes, ← BitVec.toNat_inj, BitVec.toNat_allOnes, BitVec.toNat_ofNat,
      Nat.zero_mod] at hones
    omega

theorem ofBitVec_unpackSign_of_unsigned {spec : Format} {b : BitVec spec.numBits}
    (h : Unsigned (UnpackedFloat.unpack spec b)) : Sign.ofBitVec (unpackSign b) = .positive := by
  unfold UnpackedFloat.unpack at h
  dsimp only at h
  split at h
  · split at h
    · exact h
    · exact h.elim
  split at h
  · split at h <;> exact h
  · exact h

/-- The sign is the first bit. -/
theorem msb_eq_of_unsigned {spec : Format} {b : BitVec spec.numBits}
    (h : Unsigned (UnpackedFloat.unpack spec b)) : b.msb = false := by
  have hsign : unpackSign b = 0#1 := by
    rw [← Sign.toBitVec_ofBitVec (unpackSign b), ofBitVec_unpackSign_of_unsigned h]
    rfl
  have hbit : (unpackSign b).getLsbD 0 = b.msb := by
    rw [BitVec.msb_eq_getLsbD_last]
    simp [unpackSign_def, Format.numBits, Nat.add_comm]
  rw [← hbit, hsign]
  rfl

/-- The double is not NaN and its sign bit is clear: it is `+0` or greater. -/
structure IsUnsigned (x : Float) : Prop where
  isNaN_eq : x.isNaN = false
  msb_eq : x.toBits.toBitVec.msb = false
  zero_le : 0 ≤ x

theorem unpack_zero : (0 : Float).toModel.unpack = .zero .positive := rfl

theorem isUnsigned_of_unpack {x : Float} (h : Unsigned x.toModel.unpack) : IsUnsigned x where
  isNaN_eq := isNaN_of_unsigned h
  msb_eq := @msb_eq_of_unsigned .binary64 _ h
  zero_le := by
    have hle := zero_le_of_unsigned h
    rw [← unpack_zero] at hle
    exact decide_eq_true hle

/-! ## Literals -/

theorem positive_powersOfTen : ∀ x ∈ Float.exactlyRepresentablePowersOfTen, Positive x.toModel.unpack := by
  decide +kernel

theorem unsigned_toModel_ofScientific (m : Nat) (e : Nat) :
    Unsigned (Float.ofScientific m true e).toModel.unpack := by
  unfold Float.ofScientific
  split
  · refine unsigned_unpack_pack (unsigned_div _ ?_ ?_) _
    · exact unsigned_unpack_pack (unsigned_ofNat _ _) _
    · exact positive_powersOfTen _ (Array.getElem_mem _)
  · exact unsigned_unpack_pack (unsigned_ofScientific _ _ _) _

/-- The value of a literal is not NaN, and it is `+0` or greater. -/
theorem isUnsigned_of_read? {text : String} {v : Float} (h : read? text = some v) : IsUnsigned v := by
  unfold read? at h
  split at h
  · cases h
  · cases h
    exact isUnsigned_of_unpack (unsigned_toModel_ofScientific _ _)

end Easel.Number
