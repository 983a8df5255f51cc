import Easel.Proofs.Number.Decoding

/-!
# Arithmetic on doubles

Every operation on doubles is the operation on real numbers, rounded once: `HasValue.add`, `HasValue.sub`,
`HasValue.mul`, `HasValue.div`, `HasValue.sqrt`, as long as the result is within `2^1023`. Negation and the
absolute value are exact.

All of them end in `roundWithAccuracy`, which takes a whole number of last bits and an accuracy that says where
behind it the exact result is (`Approximates`); what it makes of that is the nearest double
(`isRounding_roundWithAccuracy`).
-/

namespace Easel.Number

open Float.Model Float.Model.UnpackedFloat

/-! ## Accuracies -/

/-- What a significand and an accuracy say about a number. -/
def Approximates (m : ℕ) (accuracy : Accuracy) (y : ℝ) : Prop :=
  Locates (.ofMantissaAndAccuracy m accuracy) y

theorem approximates_exact (m : ℕ) : Approximates m .exact m := by
  simp [Approximates, Locates, ExtendedMantissa.ofMantissaAndAccuracy]

theorem Approximates.bounds {m : ℕ} {accuracy : Accuracy} {y : ℝ} (h : Approximates m accuracy y) :
    m ≤ y ∧ y < m + 1 := by
  have hmantissa : (ExtendedMantissa.ofMantissaAndAccuracy m accuracy).mantissa = m := by
    rcases accuracy with _ | (_ | _ | _) <;> rfl
  have hbounds := Locates.bounds h
  rwa [hmantissa] at hbounds

/-- A remainder tells where in the last bit a quotient is. -/
theorem approximates_div (n : ℕ) {d : ℕ} (hd : 0 < d) :
    Approximates (n / d) (accuracyOfFraction (n % d) d) (n / d : ℝ) := by
  have hpos : (0 : ℝ) < d := by exact_mod_cast hd
  have hlt : (n % d : ℕ) < d := Nat.mod_lt n hd
  have hvalue : (n / d : ℝ) = (n / d : ℕ) + ((n % d : ℕ) : ℝ) / d := by
    have hdiv : ((n % d : ℕ) : ℝ) + d * ((n / d : ℕ) : ℝ) = n := by exact_mod_cast Nat.mod_add_div n d
    rw [← hdiv]
    field_simp
    ring
  rw [hvalue]
  generalize (n / d : ℕ) = q
  generalize n % d = rem at hlt
  have hlt' : (rem : ℝ) / d < 1 := by
    rw [div_lt_one hpos]
    exact_mod_cast hlt
  unfold accuracyOfFraction
  split
  · next hzero => simp [hzero, Approximates, Locates, ExtendedMantissa.ofMantissaAndAccuracy]
  · next hnonzero =>
    have hrem : (0 : ℝ) < rem / d := by
      have : (0 : ℝ) < rem := by exact_mod_cast Nat.pos_of_ne_zero hnonzero
      positivity
    rcases lt_trichotomy (2 * rem) d with h | h | h
    · have hhalf : (rem : ℝ) / d < 1 / 2 := by
        rw [div_lt_div_iff₀ hpos two_pos]
        exact_mod_cast (by omega : rem * 2 < 1 * d)
      rw [compare_lt_iff_lt.2 h]
      simp only [Approximates, Locates, ExtendedMantissa.ofMantissaAndAccuracy, if_true, Bool.false_eq_true, if_false]
      constructor <;> linarith
    · have hhalf : (rem : ℝ) / d = 1 / 2 := by
        rw [div_eq_div_iff hpos.ne' two_ne_zero]
        exact_mod_cast (by omega : rem * 2 = 1 * d)
      rw [compare_eq_iff_eq.2 h]
      simp only [Approximates, Locates, ExtendedMantissa.ofMantissaAndAccuracy, if_true, Bool.false_eq_true, if_false]
      linarith
    · have hhalf : 1 / 2 < (rem : ℝ) / d := by
        rw [div_lt_div_iff₀ two_pos hpos]
        exact_mod_cast (by omega : 1 * d < rem * 2)
      rw [compare_gt_iff_gt.2 h]
      simp only [Approximates, Locates, ExtendedMantissa.ofMantissaAndAccuracy, if_true]
      constructor <;> linarith

/-! ## Rounding once -/

/-- A significand of the right length is left as it is. -/
theorem shiftToTargetExponent_of_lt {n : ℕ} {t : ℤ} (hn : n < 2 ^ 53) (ht : -1074 ≤ t) :
    shiftToTargetExponent .binary64 n t .exact = (⟨n, false, false⟩, t) := by
  have hlog : n.log2 ≤ 52 := by
    rcases Nat.eq_zero_or_pos n with rfl | hpos
    · simp
    · have := (Nat.log2_lt hpos.ne').2 hn
      omega
  have hshift : (Format.targetExponent .binary64 (totalExponent n t) - t).toNat = 0 := by
    simp only [Format.targetExponent, totalExponent, Format.mantissaBits, Format.minExponent]
    omega
  simp only [shiftToTargetExponent, shiftToExponent, hshift]
  simp [HShiftRight.hShiftRight, Nat.repeat, ExtendedMantissa.ofMantissaAndAccuracy]

/-- Rounding up to `2^53` carries over into the exponent. -/
theorem shiftToTargetExponent_carry {t : ℤ} (ht : -1074 ≤ t) :
    shiftToTargetExponent .binary64 (2 ^ 53) t .exact = (⟨2 ^ 52, false, false⟩, t + 1) := by
  have hshift : (Format.targetExponent .binary64 (totalExponent (2 ^ 53) t) - t).toNat = 1 := by
    simp only [Format.targetExponent, totalExponent, Format.mantissaBits, Format.minExponent, Nat.log2_two_pow]
    omega
  simp only [shiftToTargetExponent, shiftToExponent, hshift]
  simp [HShiftRight.hShiftRight, Nat.repeat, ExtendedMantissa.ofMantissaAndAccuracy, ExtendedMantissa.shiftRightOne]

/-- The leading bit of a number is that of its whole part. -/
theorem log_eq {m : ℕ} (hm : 0 < m) {e : ℤ} {x : ℝ} (hlo : m ≤ x / 2 ^ e) (hhi : x / 2 ^ e < m + 1) :
    Int.log 2 |x| = m.log2 + e := by
  have hpos : (0 : ℝ) < 2 ^ e := by positivity
  rw [le_div_iff₀ hpos] at hlo
  rw [div_lt_iff₀ hpos] at hhi
  have hx : 0 < x := lt_of_lt_of_le (by positivity) hlo
  have hlower : (2 : ℝ) ^ (m.log2 + e) ≤ x := by
    rw [zpow_add₀ two_ne_zero, zpow_natCast]
    refine le_trans (mul_le_mul_of_nonneg_right ?_ hpos.le) hlo
    exact_mod_cast Nat.log2_self_le hm.ne'
  have hupper : x < (2 : ℝ) ^ (m.log2 + e + 1) := by
    rw [add_right_comm, zpow_add₀ two_ne_zero]
    refine lt_of_lt_of_le hhi (mul_le_mul_of_nonneg_right ?_ hpos.le)
    exact_mod_cast Nat.lt_log2_self (n := m)
  rw [abs_of_pos hx]
  have hle := (Int.zpow_le_iff_le_log one_lt_two hx).1 hlower
  have hlt := (Int.lt_zpow_iff_log_lt one_lt_two hx).1 hupper
  omega

/-- The exponent to shift to is that of the last bit, whether the bits taken are all of the number or only its
whole part. -/
theorem targetExponent_eq {m : ℕ} {e : ℤ} {x : ℝ} (hx : 0 < x) (hlo : m ≤ x / 2 ^ e) (hhi : x / 2 ^ e < m + 1)
    (he : 0 < m ∨ e ≤ lastExponent x) :
    Format.targetExponent .binary64 (totalExponent m e) = lastExponent x := by
  simp only [Format.targetExponent, totalExponent, Format.mantissaBits, Format.minExponent]
  rcases Nat.eq_zero_or_pos m with rfl | hm
  · -- Nothing of the number is left in front of the point, so it is less than the least double.
    have hlt : x < 2 ^ e := by
      rwa [Nat.cast_zero, zero_add, div_lt_one (by positivity)] at hhi
    have hlog := (Int.lt_zpow_iff_log_lt one_lt_two hx).1 hlt
    have hle : e ≤ lastExponent x := he.resolve_left (Nat.lt_irrefl 0)
    simp only [lastExponent, abs_of_pos hx, Nat.log2_zero] at hle ⊢
    omega
  · rw [lastExponent, log_eq hm hlo hhi]
    omega

/-- Above the least exponent all 53 bits are used. -/
theorem pow_le_div_lastExponent {x : ℝ} (hx : 0 < x) (h : lastExponent x ≠ -1074) :
    2 ^ 52 ≤ x / 2 ^ lastExponent x := by
  have hlog : (52 : ℕ) + lastExponent x = Int.log 2 x := by
    rw [lastExponent, abs_of_pos hx] at h ⊢
    omega
  rw [le_div_iff₀ (by positivity), ← zpow_natCast, ← zpow_add₀ two_ne_zero, hlog]
  exact Int.zpow_log_le_self one_lt_two hx

/-- The decoded double is the one nearest to the number. -/
structure IsRounding (u : UnpackedFloat) (r : ℝ) : Prop where
  isCanonical : IsCanonical u
  denotes : Denotes u (nearest r)

theorem nearest_signed (s : Sign) (x : ℝ) : nearest (signed s x) = signed s (nearest x) := by
  cases s with
  | negative => exact nearest_neg x
  | positive => rfl

theorem isRounding_roundWithAccuracy (s : Sign) {m : ℕ} {e : ℤ} {accuracy : Accuracy} {x : ℝ} (hx : 0 < x)
    (h : Approximates m accuracy (x / 2 ^ e)) (he : e ≤ lastExponent x) :
    IsRounding (roundWithAccuracy .binary64 s m e accuracy) (signed s x) := by
  obtain ⟨k, hk⟩ := Int.le.dest he
  have htarget := targetExponent_eq hx h.bounds.1 h.bounds.2 (.inr he)
  have hleast : -1074 ≤ lastExponent x := le_max_right _ _
  -- The first shift leaves the bits in front of the last one.
  have hshift : shiftToTargetExponent .binary64 m e accuracy =
      (ExtendedMantissa.ofMantissaAndAccuracy m accuracy >>> k, lastExponent x) := by
    simp only [shiftToTargetExponent, shiftToExponent, htarget, ← hk, add_sub_cancel_left, Int.toNat_natCast]
  obtain ⟨n, hn⟩ : ∃ n, n = (ExtendedMantissa.ofMantissaAndAccuracy m accuracy >>> k).roundedMantissa := ⟨_, rfl⟩
  have hround : (n : ℤ) = roundEven (x / 2 ^ lastExponent x) := by
    rw [hn, (Locates.shiftRight h k).roundedMantissa_eq, div_div, ← zpow_natCast, ← zpow_add₀ two_ne_zero, hk]
  have hnearest : nearest x = n * 2 ^ lastExponent x := by
    rw [nearest, ← hround, Int.cast_natCast]
  have hle : n ≤ 2 ^ 53 := by
    have hlt := (abs_lt.1 (abs_div_lastExponent_lt x)).2
    have := roundEven_le (x := x / 2 ^ lastExponent x) (k := 2 ^ 53) (by push_cast; linarith)
    omega
  have hform : 2 ^ 52 ≤ n ∨ lastExponent x = -1074 := by
    refine or_iff_not_imp_right.2 fun hne => ?_
    have hge := pow_le_div_lastExponent hx hne
    have := le_roundEven (x := x / 2 ^ lastExponent x) (k := 2 ^ 52) (by push_cast; linarith)
    omega
  simp only [roundWithAccuracy, hshift, ← hn]
  rcases hle.lt_or_eq with hlt | rfl
  · simp only [shiftToTargetExponent_of_lt hlt hleast]
    split
    · next hzero =>
      refine ⟨trivial, ?_⟩
      show nearest (signed s x) = 0
      rw [nearest_signed, hnearest, hzero, Nat.cast_zero, zero_mul]
      cases s <;> simp [signed]
    · refine ⟨⟨hlt, hleast, hform⟩, ?_⟩
      rw [nearest_signed, hnearest]
      rfl
  · simp only [shiftToTargetExponent_carry hleast]
    have hcarry : nearest x = (2 ^ 52 : ℕ) * 2 ^ (lastExponent x + 1) := by
      rw [hnearest, zpow_add₀ two_ne_zero]
      push_cast
      ring
    rw [dif_neg (by norm_num)]
    refine ⟨⟨by norm_num, by omega, .inl le_rfl⟩, ?_⟩
    rw [nearest_signed, hcarry]
    rfl

theorem IsRounding.of_denotes {u : UnpackedFloat} {r : ℝ} (hu : IsCanonical u) (hr : Denotes u r) : IsRounding u r :=
  ⟨hu, by rwa [nearest_of_isBinary (isBinary_of_denotes hu hr)]⟩

/-- A result within `2^1023` has a double. -/
theorem IsRounding.hasValue {u : UnpackedFloat} {r : ℝ} (h : IsRounding u r) (hr : |r| ≤ 2 ^ 1023) :
    HasValue (.ofModel (.pack u)) (nearest r) := by
  refine hasValue_pack h.isCanonical h.denotes ?_
  have hbound : IsBinary (2 ^ 1023) := ⟨1, 1023, by norm_num, by norm_num, by norm_num⟩
  rw [abs_le] at hr
  have hle : |nearest r| ≤ 2 ^ 1023 := abs_le.2 ⟨le_nearest hbound.neg hr.1, nearest_le hbound hr.2⟩
  exact hle.trans_lt (pow_lt_pow_right₀ one_lt_two (by norm_num))

/-! ## Sums -/

theorem decreaseExponent_value (m : ℕ) (e t : ℤ) :
    (((decreaseExponent m e t).1 : ℕ) : ℝ) * 2 ^ (decreaseExponent m e t).2 = m * 2 ^ e := by
  simp only [decreaseExponent, Nat.shiftLeft_eq, Nat.cast_mul, Nat.cast_pow, Nat.cast_ofNat]
  rw [mul_assoc, ← zpow_natCast, ← zpow_add₀ two_ne_zero, add_sub_cancel]

theorem decreaseExponent_snd_le (m : ℕ) (e t : ℤ) : (decreaseExponent m e t).2 ≤ t := by
  simp only [decreaseExponent]
  omega

theorem decreaseExponent_snd (m : ℕ) {e t : ℤ} (ht : t ≤ e) : (decreaseExponent m e t).2 = t := by
  simp only [decreaseExponent]
  omega

theorem isRounding_round (s : Sign) {m : ℕ} (hm : 0 < m) (e : ℤ) :
    IsRounding (UnpackedFloat.round .binary64 s m e) (signed s (m * 2 ^ e)) := by
  have hpos : (0 : ℝ) < m * 2 ^ e := by positivity
  have hexact : (m : ℝ) * 2 ^ e / 2 ^ e = m := mul_div_cancel_right₀ _ (by positivity)
  have htarget := targetExponent_eq hpos hexact.ge (by rw [hexact]; linarith) (.inl hm)
  have hvalue := decreaseExponent_value m e (lastExponent (m * 2 ^ e))
  have hle := decreaseExponent_snd_le m e (lastExponent (m * 2 ^ e))
  have hquotient := (eq_div_iff (by positivity)).2 hvalue
  unfold UnpackedFloat.round
  simp only [htarget]
  refine isRounding_roundWithAccuracy s hpos ?_ hle
  rw [← hquotient]
  exact approximates_exact _

theorem isRounding_normalize (n e : ℤ) (s : Sign) :
    IsRounding (UnpackedFloat.normalize .binary64 n e s) (n * 2 ^ e) := by
  unfold UnpackedFloat.normalize
  rcases lt_trichotomy n 0 with hn | rfl | hn
  · rw [compare_lt_iff_lt.2 hn]
    have hcast : (((-n).toNat : ℕ) : ℝ) = -n := by
      exact_mod_cast Int.toNat_of_nonneg (by omega : 0 ≤ -n)
    have h := isRounding_round .negative (m := (-n).toNat) (by omega) e
    rwa [hcast, signed, neg_mul, neg_neg] at h
  · rw [compare_eq_iff_eq.2 rfl, Int.cast_zero, zero_mul]
    exact ⟨trivial, nearest_zero⟩
  · rw [compare_gt_iff_gt.2 hn]
    have hcast : ((n.toNat : ℕ) : ℝ) = n := by
      exact_mod_cast Int.toNat_of_nonneg hn.le
    have h := isRounding_round .positive (m := n.toNat) (by omega) e
    rwa [hcast] at h

theorem isRounding_add {u u' : UnpackedFloat} {a b : ℝ} (hu : IsCanonical u) (hu' : IsCanonical u') (ha : Denotes u a)
    (hb : Denotes u' b) : IsRounding (UnpackedFloat.add .binary64 u u') (a + b) := by
  cases u with
  | infinity | notANumber => exact ha.elim
  | zero s =>
    obtain rfl : a = 0 := ha
    rw [zero_add]
    cases u' with
    | infinity | notANumber => exact hb.elim
    | zero s' =>
      simp only [UnpackedFloat.add]
      split <;> exact .of_denotes trivial hb
    | finite s' m' e' hm' => exact .of_denotes hu' hb
  | finite s m e hm =>
    cases u' with
    | infinity | notANumber => exact hb.elim
    | zero s' =>
      obtain rfl : b = 0 := hb
      rw [add_zero]
      exact .of_denotes hu ha
    | finite s' m' e' hm' =>
      obtain rfl := ha
      obtain rfl := hb
      -- Both significands are counted in the finer of the two last bits.
      have hvalue := decreaseExponent_value m e (min e e')
      have hvalue' := decreaseExponent_value m' e' (min e e')
      rw [decreaseExponent_snd m (min_le_left e e')] at hvalue
      rw [decreaseExponent_snd m' (min_le_right e e')] at hvalue'
      rw [← hvalue, ← hvalue', signed_mul, signed_mul, ← cast_apply, ← cast_apply, ← add_mul, ← Int.cast_add]
      exact isRounding_normalize _ _ _

theorem isCanonical_neg {u : UnpackedFloat} (hu : IsCanonical u) : IsCanonical u.neg := by
  cases u <;> exact hu

theorem denotes_neg {u : UnpackedFloat} {a : ℝ} (ha : Denotes u a) : Denotes u.neg (-a) := by
  cases u with
  | infinity | notANumber => exact ha.elim
  | zero s =>
    obtain rfl : a = 0 := ha
    exact neg_zero
  | finite s m e hm =>
    obtain rfl := ha
    cases s with
    | negative => exact neg_neg _
    | positive => rfl

theorem apply_neg (s : Sign) (n : ℤ) : (-s).apply n = -s.apply n := by
  cases s with
  | negative => exact (neg_neg n).symm
  | positive => rfl

theorem sub_eq_add_neg (u u' : UnpackedFloat) :
    UnpackedFloat.sub .binary64 u u' = UnpackedFloat.add .binary64 u u'.neg := by
  cases u <;> cases u' <;> try rfl
  next s m e hm s' m' e' hm' =>
    show UnpackedFloat.normalize _ (s.apply _ - s'.apply _) _ _ =
      UnpackedFloat.normalize _ (s.apply _ + (-s').apply _) _ _
    rw [apply_neg, Int.sub_eq_add_neg]

/-! ## Products, quotients and roots -/

theorem signed_mul_signed (s s' : Sign) (a b : ℝ) : signed s a * signed s' b = signed (s * s') (a * b) := by
  cases s <;> cases s'
  case negative.negative => exact neg_mul_neg a b
  case negative.positive => exact neg_mul a b
  case positive.negative => exact mul_neg a b
  case positive.positive => rfl

theorem signed_div_signed (s s' : Sign) (a b : ℝ) : signed s a / signed s' b = signed (s / s') (a / b) := by
  cases s <;> cases s'
  case negative.negative => exact neg_div_neg_eq a b
  case negative.positive => exact neg_div b a
  case positive.negative => exact div_neg a
  case positive.positive => rfl

/-- An exact product has bits to spare unless both factors are at the least exponent. -/
theorem mul_exponent_le {s s' : Sign} {m m' : ℕ} {e e' : ℤ} {hm : 0 < m} {hm' : 0 < m'}
    (hu : IsCanonical (.finite s m e hm)) (hu' : IsCanonical (.finite s' m' e' hm')) :
    e + e' ≤ lastExponent ((m * m' : ℕ) * 2 ^ (e + e')) := by
  obtain ⟨-, hge, hform⟩ := hu
  obtain ⟨-, hge', hform'⟩ := hu'
  have hpos : 0 < m * m' := Nat.mul_pos hm hm'
  have hlog := log_eq hpos (e := e + e') (x := (m * m' : ℕ) * 2 ^ (e + e'))
    (mul_div_cancel_right₀ _ (by positivity)).ge
    (by rw [mul_div_cancel_right₀ _ (by positivity)]; linarith)
  rw [lastExponent, hlog]
  by_cases hnormal : 2 ^ 52 ≤ m ∨ 2 ^ 52 ≤ m'
  · have hlarge : 2 ^ 52 ≤ m * m' := by
      rcases hnormal with h | h
      · exact h.trans (Nat.le_mul_of_pos_right m hm')
      · exact h.trans (Nat.le_mul_of_pos_left m' hm)
    have := (Nat.le_log2 hpos.ne').2 hlarge
    omega
  · omega

theorem isRounding_mul {u u' : UnpackedFloat} {a b : ℝ} (hu : IsCanonical u) (hu' : IsCanonical u') (ha : Denotes u a)
    (hb : Denotes u' b) : IsRounding (UnpackedFloat.mul .binary64 u u') (a * b) := by
  cases u with
  | infinity | notANumber => exact ha.elim
  | zero s =>
    obtain rfl : a = 0 := ha
    rw [zero_mul]
    cases u' with
    | infinity | notANumber => exact hb.elim
    | zero | finite => exact ⟨trivial, nearest_zero⟩
  | finite s m e hm =>
    cases u' with
    | infinity | notANumber => exact hb.elim
    | zero =>
      obtain rfl : b = 0 := hb
      rw [mul_zero]
      exact ⟨trivial, nearest_zero⟩
    | finite s' m' e' hm' =>
      obtain rfl := ha
      obtain rfl := hb
      have hproduct : signed s (m * 2 ^ e) * signed s' (m' * 2 ^ e') =
          signed (s * s') ((m * m' : ℕ) * 2 ^ (e + e')) := by
        rw [signed_mul_signed, zpow_add₀ two_ne_zero, mul_mul_mul_comm]
        push_cast
        rfl
      rw [hproduct]
      refine isRounding_roundWithAccuracy _ (by positivity) ?_ (mul_exponent_le hu hu')
      rw [mul_div_cancel_right₀ _ (by positivity)]
      exact approximates_exact _

/-- The bits that a quotient is computed to reach its last bit. -/
theorem div_exponent_le {m m' : ℕ} (hm : 0 < m) (hm' : 0 < m') (e e' : ℤ) :
    Format.targetExponent .binary64 (totalExponent m e - totalExponent m' e') ≤
      lastExponent (m * 2 ^ e / (m' * 2 ^ e')) := by
  have hpos : (0 : ℝ) < m * 2 ^ e / (m' * 2 ^ e') := by positivity
  have hlower : (2 : ℝ) ^ (m.log2 + e - (m'.log2 + 1 + e')) ≤ m * 2 ^ e / (m' * 2 ^ e') := by
    have hle : (2 : ℝ) ^ m.log2 ≤ m := by exact_mod_cast Nat.log2_self_le hm.ne'
    have hlt : (m' : ℝ) ≤ 2 ^ (m'.log2 + 1) := by exact_mod_cast (Nat.lt_log2_self (n := m')).le
    rw [le_div_iff₀ (by positivity), zpow_sub₀ two_ne_zero, zpow_add₀ two_ne_zero, zpow_add₀ two_ne_zero, zpow_natCast,
      div_mul_eq_mul_div, div_le_iff₀ (by positivity)]
    have hexp : (2 : ℝ) ^ ((m'.log2 : ℤ) + 1) = 2 ^ (m'.log2 + 1) := by norm_cast
    rw [hexp]
    have h := mul_le_mul hle hlt (by positivity) (by positivity)
    calc
      (2 : ℝ) ^ m.log2 * 2 ^ e * (m' * 2 ^ e') = 2 ^ m.log2 * m' * (2 ^ e * 2 ^ e') := by ring
      _ ≤ m * 2 ^ (m'.log2 + 1) * (2 ^ e * 2 ^ e') := mul_le_mul_of_nonneg_right h (by positivity)
      _ = m * 2 ^ e * (2 ^ (m'.log2 + 1) * 2 ^ e') := by ring
  have hlog := (Int.zpow_le_iff_le_log one_lt_two hpos).1 hlower
  simp only [lastExponent, abs_of_pos hpos, Format.targetExponent, totalExponent, Format.mantissaBits,
    Format.minExponent]
  omega

theorem isRounding_div {u u' : UnpackedFloat} {a b : ℝ} (ha : Denotes u a) (hb : Denotes u' b) (hb0 : b ≠ 0) :
    IsRounding (UnpackedFloat.div .binary64 u u') (a / b) := by
  cases u' with
  | infinity | notANumber => exact hb.elim
  | zero => exact absurd hb hb0
  | finite s' m' e' hm' =>
    cases u with
    | infinity | notANumber => exact ha.elim
    | zero =>
      obtain rfl : a = 0 := ha
      rw [zero_div]
      exact ⟨trivial, nearest_zero⟩
    | finite s m e hm =>
      obtain rfl := ha
      obtain rfl := hb
      rw [signed_div_signed]
      have hle := div_exponent_le hm hm' e e'
      unfold UnpackedFloat.div divCore
      dsimp only
      generalize Format.targetExponent .binary64 (totalExponent m e - totalExponent m' e') = t at hle
      obtain ⟨k, hk⟩ := Int.le.dest (min_le_left (e - e') t)
      have hshift : (e - e' - min (e - e') t).toNat = k := by omega
      have hquotient : (m : ℝ) * 2 ^ e / (m' * 2 ^ e') / 2 ^ min (e - e') t = (m <<< k : ℕ) / m' := by
        have he : (2 : ℝ) ^ e = 2 ^ k * 2 ^ min (e - e') t * 2 ^ e' := by
          rw [← zpow_natCast, ← zpow_add₀ two_ne_zero, ← zpow_add₀ two_ne_zero]
          congr 1
          omega
        rw [Nat.shiftLeft_eq, he]
        push_cast
        field_simp
      rw [hshift]
      refine isRounding_roundWithAccuracy _ (by positivity) ?_ ((min_le_right _ _).trans hle)
      rw [hquotient]
      exact approximates_div _ hm'

/-- The remainder of a square root tells where in the last bit the root is. -/
theorem approximates_sqrt (n : ℕ) :
    Approximates (Nat.sqrt n)
      (if n - Nat.sqrt n * Nat.sqrt n = 0 then .exact
        else .inexact (if n - Nat.sqrt n * Nat.sqrt n ≤ Nat.sqrt n then .lt else .gt)) (√n) := by
  have hle := Nat.sqrt_le n
  have hlt := Nat.lt_succ_sqrt n
  generalize Nat.sqrt n = r at hle hlt
  obtain ⟨d, rfl⟩ := Nat.exists_eq_add_of_le hle
  rw [Nat.add_sub_cancel_left]
  have hupper : √((r * r + d : ℕ) : ℝ) < r + 1 := by
    rw [Real.sqrt_lt' (by positivity)]
    have : ((r * r + d : ℕ) : ℝ) < ((r + 1) * (r + 1) : ℕ) := by exact_mod_cast hlt
    push_cast at this ⊢
    linarith
  split
  · next hzero =>
    subst hzero
    have hroot : √((r * r + 0 : ℕ) : ℝ) = r := by
      rw [Nat.add_zero, Nat.cast_mul, Real.sqrt_mul_self (Nat.cast_nonneg r)]
    rw [hroot]
    exact approximates_exact r
  · next hnonzero =>
    have hd : (1 : ℝ) ≤ d := by exact_mod_cast Nat.pos_of_ne_zero hnonzero
    split
    · next hsmall =>
      have hsmall' : (d : ℝ) ≤ r := by exact_mod_cast hsmall
      have hlower : (r : ℝ) < √((r * r + d : ℕ) : ℝ) := by
        rw [Real.lt_sqrt (Nat.cast_nonneg r)]
        push_cast
        linarith
      have hhalf : √((r * r + d : ℕ) : ℝ) < r + 1 / 2 := by
        rw [Real.sqrt_lt' (by positivity)]
        push_cast
        linarith
      simp only [Approximates, Locates, ExtendedMantissa.ofMantissaAndAccuracy, if_true, Bool.false_eq_true, if_false]
      constructor <;> linarith
    · next hlarge =>
      have hlarge' : (r : ℝ) + 1 ≤ d := by exact_mod_cast (by omega : r + 1 ≤ d)
      have hhalf : (r : ℝ) + 1 / 2 < √((r * r + d : ℕ) : ℝ) := by
        rw [Real.lt_sqrt (by positivity)]
        push_cast
        linarith
      simp only [Approximates, Locates, ExtendedMantissa.ofMantissaAndAccuracy, if_true]
      constructor <;> linarith

/-- The bits that a root is computed to reach its last bit. -/
theorem sqrt_exponent_le {m : ℕ} (hm : 0 < m) (e : ℤ) :
    Format.targetExponent .binary64 ((totalExponent m e + 1).ediv 2) ≤ lastExponent √(m * 2 ^ e) := by
  have hpos : (0 : ℝ) < m * 2 ^ e := by positivity
  have hlower : (2 : ℝ) ^ ((m.log2 + e) / 2) ≤ √(m * 2 ^ e) := by
    refine Real.le_sqrt_of_sq_le ?_
    calc
      ((2 : ℝ) ^ ((m.log2 + e) / 2)) ^ 2 = 2 ^ ((m.log2 + e) / 2 * 2) := by rw [zpow_mul]; norm_cast
      _ ≤ 2 ^ (m.log2 + e) := zpow_le_zpow_right₀ one_le_two (by omega)
      _ = 2 ^ m.log2 * 2 ^ e := by rw [zpow_add₀ two_ne_zero, zpow_natCast]
      _ ≤ m * 2 ^ e := mul_le_mul_of_nonneg_right (by exact_mod_cast Nat.log2_self_le hm.ne') (by positivity)
  have hlog := (Int.zpow_le_iff_le_log one_lt_two (Real.sqrt_pos.2 hpos)).1 hlower
  have hediv : (totalExponent m e + 1).ediv 2 = (m.log2 + e) / 2 + 1 := by
    show (m.log2 + 1 + e + 1 : ℤ) / 2 = _
    omega
  rw [hediv]
  simp only [lastExponent, abs_of_pos (Real.sqrt_pos.2 hpos), Format.targetExponent, Format.mantissaBits,
    Format.minExponent]
  omega

theorem isRounding_sqrt {u : UnpackedFloat} {a : ℝ} (ha : Denotes u a) (ha0 : 0 ≤ a) :
    IsRounding (UnpackedFloat.sqrt .binary64 u) √a := by
  cases u with
  | infinity | notANumber => exact ha.elim
  | zero s =>
    obtain rfl : a = 0 := ha
    rw [Real.sqrt_zero]
    exact ⟨trivial, nearest_zero⟩
  | finite s m e hm =>
    obtain rfl := ha
    have hpos : (0 : ℝ) < m * 2 ^ e := by positivity
    cases s with
    | negative => exact absurd ha0 (not_le.2 (neg_neg_of_pos hpos))
    | positive =>
      have hle := sqrt_exponent_le hm e
      unfold UnpackedFloat.sqrt sqrtCore
      dsimp only
      generalize Format.targetExponent .binary64 ((totalExponent m e + 1).ediv 2) = t at hle
      have hmin : min (e.ediv 2) t ≤ e / 2 := min_le_left _ _
      obtain ⟨k, hk⟩ := Int.le.dest (show 2 * min (e.ediv 2) t ≤ e by omega)
      have hshift : (e - 2 * min (e.ediv 2) t).toNat = k := by omega
      have hroot : √(m * 2 ^ e) / 2 ^ min (e.ediv 2) t = √((m <<< k : ℕ) : ℝ) := by
        have he : (2 : ℝ) ^ e = 2 ^ k * (2 ^ min (e.ediv 2) t) ^ 2 := by
          rw [← zpow_natCast 2 k, ← zpow_natCast _ 2, ← zpow_mul, ← zpow_add₀ two_ne_zero]
          congr 1
          push_cast
          omega
        have hsquare : (m : ℝ) * 2 ^ e = (m <<< k : ℕ) * (2 ^ min (e.ediv 2) t) ^ 2 := by
          rw [Nat.shiftLeft_eq, he]
          push_cast
          ring
        rw [hsquare, Real.sqrt_mul (Nat.cast_nonneg _), Real.sqrt_sq (by positivity),
          mul_div_cancel_right₀ _ (by positivity)]
      rw [hshift]
      show IsRounding _ (signed .positive √(m * 2 ^ e))
      refine isRounding_roundWithAccuracy _ (Real.sqrt_pos.2 hpos) ?_ ((min_le_right _ _).trans hle)
      rw [hroot]
      exact approximates_sqrt _

/-! ## Operations -/

section
variable {x y : Float} {a b : ℝ}

theorem HasValue.add (hx : HasValue x a) (hy : HasValue y b) (h : |a + b| ≤ 2 ^ 1023) :
    HasValue (x + y) (nearest (a + b)) :=
  (isRounding_add (isCanonical_toModel x) (isCanonical_toModel y) (hasValue_iff.1 hx) (hasValue_iff.1 hy)).hasValue h

theorem HasValue.sub (hx : HasValue x a) (hy : HasValue y b) (h : |a - b| ≤ 2 ^ 1023) :
    HasValue (x - y) (nearest (a - b)) := by
  show HasValue (.ofModel (.pack (UnpackedFloat.sub .binary64 x.toModel.unpack y.toModel.unpack))) _
  rw [sub_eq_add_neg]
  exact (isRounding_add (isCanonical_toModel x) (isCanonical_neg (isCanonical_toModel y)) (hasValue_iff.1 hx)
    (denotes_neg (hasValue_iff.1 hy))).hasValue h

theorem HasValue.mul (hx : HasValue x a) (hy : HasValue y b) (h : |a * b| ≤ 2 ^ 1023) :
    HasValue (x * y) (nearest (a * b)) :=
  (isRounding_mul (isCanonical_toModel x) (isCanonical_toModel y) (hasValue_iff.1 hx) (hasValue_iff.1 hy)).hasValue h

theorem HasValue.div (hx : HasValue x a) (hy : HasValue y b) (hb : b ≠ 0) (h : |a / b| ≤ 2 ^ 1023) :
    HasValue (x / y) (nearest (a / b)) :=
  (isRounding_div (hasValue_iff.1 hx) (hasValue_iff.1 hy) hb).hasValue h

theorem HasValue.sqrt (hx : HasValue x a) (ha : 0 ≤ a) (h : √a ≤ 2 ^ 1023) : HasValue x.sqrt (nearest √a) :=
  (isRounding_sqrt (hasValue_iff.1 hx) ha).hasValue (by rwa [abs_of_nonneg (Real.sqrt_nonneg a)])

theorem HasValue.neg (hx : HasValue x a) : HasValue (-x) (-a) := by
  refine hasValue_pack (isCanonical_neg (isCanonical_toModel x)) (denotes_neg (hasValue_iff.1 hx)) ?_
  rw [abs_neg]
  exact hx.abs_lt

theorem HasValue.abs (hx : HasValue x a) : HasValue x.abs |a| := by
  have hu := isCanonical_toModel x
  have ha := hasValue_iff.1 hx
  have hlt : |(|a|)| < 2 ^ 1024 := by
    rw [abs_abs]
    exact hx.abs_lt
  show HasValue (.ofModel (.pack x.toModel.unpack.abs)) |a|
  cases hform : x.toModel.unpack with
  | infinity | notANumber =>
    rw [hform] at ha
    exact ha.elim
  | zero s =>
    rw [hform] at ha
    exact hasValue_pack (by trivial) (by rw [show a = 0 from ha]; exact abs_zero) hlt
  | finite s m e hm =>
    rw [hform] at hu ha
    refine hasValue_pack hu ?_ hlt
    rw [show a = signed s (m * 2 ^ e) from ha, abs_signed, abs_of_nonneg (by positivity)]
    rfl

end

/-! ## Whole numbers -/

theorem hasValue_toFloat (n : UInt64) : HasValue n.toFloat (nearest n.toNat) := by
  have h : IsRounding (UnpackedFloat.ofUInt64 .binary64 n) n.toNat := by
    have h := isRounding_normalize n.toNat 0 .positive
    rwa [zpow_zero, mul_one, Int.cast_natCast] at h
  refine h.hasValue ?_
  have hlt : (n.toNat : ℝ) < (2 ^ 64 : ℕ) := by exact_mod_cast n.toNat_lt
  rw [Nat.cast_pow, Nat.cast_ofNat] at hlt
  rw [Nat.abs_cast]
  calc
    (n.toNat : ℝ) ≤ 2 ^ 64 := hlt.le
    _ ≤ 2 ^ 1023 := pow_le_pow_right₀ one_le_two (by norm_num)

theorem isBinary_natCast {n : ℕ} (hn : n < 2 ^ 53) : IsBinary n :=
  isBinary_intCast (n := n) (by rw [Nat.abs_cast]; exact_mod_cast hn.le)

/-- Up to 53 bits a word is a double. -/
theorem hasValue_toUInt64 {n : ℕ} (hn : n < 2 ^ 53) : HasValue n.toUInt64.toFloat n := by
  have hfloat := hasValue_toFloat n.toUInt64
  rwa [Nat.toUInt64_eq, UInt64.toNat_ofNat', Nat.mod_eq_of_lt (by omega), nearest_of_isBinary (isBinary_natCast hn),
    ← Nat.toUInt64_eq] at hfloat

/-- Up to 53 bits a natural number is a double. -/
theorem hasValue_ofNat {n : ℕ} (hn : n < 2 ^ 53) : HasValue (Float.ofNat n) n := by
  have hfast : Float.ofNat n = n.toUInt64.toFloat * Float.ofBits 0x3FF0000000000000 := by
    show Float.ofScientific n false 0 = _
    rw [Float.ofScientific, dif_pos ⟨hn, by norm_num⟩]
    rfl
  have hone : HasValue (Float.ofBits 0x3FF0000000000000) 1 :=
    ⟨1, by decide +kernel, Rat.cast_one⟩
  have hbound : |(n : ℝ) * 1| ≤ 2 ^ 1023 := by
    rw [mul_one, Nat.abs_cast]
    calc
      (n : ℝ) ≤ 2 ^ 53 := by exact_mod_cast hn.le
      _ ≤ 2 ^ 1023 := pow_le_pow_right₀ one_le_two (by norm_num)
  have hproduct := (hasValue_toUInt64 hn).mul hone hbound
  rwa [mul_one, nearest_of_isBinary (isBinary_natCast hn), ← hfast] at hproduct

theorem hasValue_ofInt {n : ℤ} (hn : |n| < 2 ^ 53) : HasValue (Float.ofInt n) n := by
  cases n with
  | ofNat n => exact hasValue_ofNat (by simpa using hn)
  | negSucc n =>
    have h := (hasValue_ofNat (n := n + 1) (by rw [abs_lt] at hn; omega)).neg
    rwa [show (((Int.negSucc n : ℤ)) : ℝ) = -((n + 1 : ℕ) : ℝ) by rw [Int.cast_negSucc]]

end Easel.Number
