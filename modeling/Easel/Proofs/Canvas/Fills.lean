import Easel.Proofs.Canvas.Loops
import Easel.Proofs.Canvas.Rectangle
import Easel.Proofs.Canvas.Ring

/-!
# Loops that fill

The bounds of a fill are doubles, and infinite where a root or a sum of huge numbers is. A double that keeps the place of
an integer (`Number.BoundsAt`) bounds the same columns and rows as that integer, if there are any between the bounds
(`Number.toNat_bounds`). So runs of pixels are boxes (`Framebuffer.paints_fillRow?`), a filled rectangle is the box that
its corners span (`paints_fillRect`), and a filled circle the disk of its runs (`paints_fillCircle`). A ring is inked cell
by cell (`paints_inkRing`).
-/

namespace Easel

namespace Number

open Float.Model

/-! ## Bounds in doubles -/

/-- The double keeps the place of the integer, or it is infinite and the integer far away on the same side. -/
def BoundsAt (x : Float) (k : ℤ) : Prop :=
  KeepsPlace x k ∨ HasExtendedValue x ⊤ ∧ 2 ^ 51 ≤ k ∨ HasExtendedValue x ⊥ ∧ k ≤ -2 ^ 51

theorem hasValue_fmax {x y : Float} {m n : ℤ} (hx : HasValue x m) (hy : HasValue y n) :
    HasValue (fmax x y) (max m n : ℤ) := by
  have h := hasExtendedValue_fmax (.value hx) (.value hy)
  rw [← EReal.coe_strictMono.monotone.map_max, ← Int.cast_max] at h
  exact h.hasValue

theorem hasValue_fmin {x y : Float} {m n : ℤ} (hx : HasValue x m) (hy : HasValue y n) :
    HasValue (fmin x y) (min m n : ℤ) := by
  have h := hasExtendedValue_fmin (.value hx) (.value hy)
  rw [← EReal.coe_strictMono.monotone.map_min, ← Int.cast_min] at h
  exact h.hasValue

theorem HasValue.toNat_toWord_int {x : Float} {n : ℤ} (h : HasValue x n) (h0 : 0 ≤ n) (hlt : n < 2 ^ 64) :
    (toWord x).toNat = n.toNat := by
  have hlt' : (n : ℝ) < 2 ^ 64 := by exact_mod_cast hlt
  rw [h.toNat_toWord (by exact_mod_cast h0) hlt', ← Int.floor_toNat, Int.floor_intCast]

/-- A bound from below is no less than zero. -/
theorem fmax_zero_cases {x : Float} {k : ℤ} (h : BoundsAt x k) :
    HasExtendedValue (fmax x 0) ⊤ ∧ 2 ^ 51 ≤ k ∨
      ∃ z : ℤ, HasValue (fmax x 0) z ∧ 0 ≤ z ∧ (z = max k 0 ∨ 2 ^ 51 ≤ z ∧ 2 ^ 51 ≤ k) := by
  rcases h with ⟨z, hz, hagrees⟩ | ⟨htop, hk⟩ | ⟨hbot, hk⟩
  · refine .inr ⟨max z 0, hasValue_fmax hz hasValue_zero, le_max_right _ _, ?_⟩
    unfold Agrees at hagrees
    omega
  · have hmax := hasExtendedValue_fmax htop (.value hasValue_zero)
    rw [max_eq_left le_top] at hmax
    exact .inl ⟨hmax, hk⟩
  · have hmax := hasExtendedValue_fmax hbot (.value hasValue_zero)
    rw [max_eq_right bot_le] at hmax
    exact .inr ⟨0, hmax.hasValue, le_rfl, by omega⟩

/-- A bound from above is no greater than the last index. -/
theorem fmin_last_cases {y last : Float} {l : ℤ} {n : ℕ} (h : BoundsAt y l) (hn : n ≤ 2 ^ 50)
    (hlast : HasValue last (n - 1 : ℤ)) :
    HasExtendedValue (fmin y last) ⊥ ∧ l ≤ -2 ^ 51 ∨
      ∃ z : ℤ, HasValue (fmin y last) z ∧ z < n ∧ (z = min l (n - 1) ∨ z ≤ -2 ^ 51 ∧ l ≤ -2 ^ 51) := by
  rcases h with ⟨z, hz, hagrees⟩ | ⟨htop, hk⟩ | ⟨hbot, hk⟩
  · refine .inr ⟨min z (n - 1), hasValue_fmin hz hlast, by omega, ?_⟩
    unfold Agrees at hagrees
    omega
  · have hmin := hasExtendedValue_fmin htop (.value hlast)
    rw [min_eq_right le_top] at hmin
    exact .inr ⟨n - 1, hmin.hasValue, by omega, by omega⟩
  · have hmin := hasExtendedValue_fmin hbot (.value hlast)
    rw [min_eq_left bot_le] at hmin
    exact .inl ⟨hmin, hk⟩

/-- Between bounds in doubles are the same indices as between the integers. -/
theorem toNat_bounds {x y last : Float} {k l : ℤ} {n : ℕ} (hx : BoundsAt x k) (hy : BoundsAt y l) (hn : n ≤ 2 ^ 50)
    (hlast : HasValue last (n - 1 : ℤ)) :
    (fmin y last < fmax x 0 ↔ min l (n - 1) < max k 0) ∧
      (max k 0 ≤ min l (n - 1) →
        (toWord (fmax x 0)).toNat = k.toNat ∧ (toWord (fmin y last)).toNat = (min l (n - 1)).toNat) := by
  rcases fmax_zero_cases hx with ⟨htop, hk⟩ | ⟨z, hz, h0, hzk⟩
  · rcases fmin_last_cases hy hn hlast with ⟨hbot, hl⟩ | ⟨w, hw, -, hwl⟩
    · exact ⟨iff_of_true ((hbot.lt_iff htop).2 bot_lt_top) (by omega), fun hle => by omega⟩
    · exact ⟨iff_of_true (((HasExtendedValue.value hw).lt_iff htop).2 (EReal.coe_lt_top _)) (by omega),
        fun hle => by omega⟩
  · rcases fmin_last_cases hy hn hlast with ⟨hbot, hl⟩ | ⟨w, hw, hlt, hwl⟩
    · exact ⟨iff_of_true ((hbot.lt_iff (.value hz)).2 (EReal.bot_lt_coe _)) (by omega), fun hle => by omega⟩
    · rw [hw.lt_iff hz, Int.cast_lt]
      refine ⟨by omega, fun hle => ?_⟩
      rw [hz.toNat_toWord_int h0 (by omega), hw.toNat_toWord_int (by omega) (by omega)]
      omega

/-! ## Whole doubles -/

theorem HasExtendedValue.unpack_top {x : Float} (h : HasExtendedValue x ⊤) :
    x.toModel.unpack = .infinity .positive := by
  generalize hr : (⊤ : EReal) = r at h
  cases h with
  | value h => exact absurd hr.symm (EReal.coe_ne_top _)
  | bot h => exact absurd hr top_ne_bot
  | top h => exact h

theorem HasExtendedValue.unpack_bot {x : Float} (h : HasExtendedValue x ⊥) :
    x.toModel.unpack = .infinity .negative := by
  generalize hr : (⊥ : EReal) = r at h
  cases h with
  | value h => exact absurd hr.symm (EReal.coe_ne_bot _)
  | bot h => exact h
  | top h => exact absurd hr bot_ne_top

theorem unpack_pack_infinity (s : UnpackedFloat.Sign) : (Float.Model.pack (.infinity s)).unpack = .infinity s := by
  cases s <;> rfl

/-- A finite number less infinity, and with infinity added. -/
theorem HasValue.sub_top {x y : Float} {a : ℝ} (hx : HasValue x a) (hy : HasExtendedValue y ⊤) :
    HasExtendedValue (x - y) ⊥ ∧ HasExtendedValue (x + y) ⊤ := by
  have hvalue := hasValue_iff.1 hx
  have hsub : (x - y).toModel.unpack =
      (Float.Model.pack (UnpackedFloat.sub .binary64 x.toModel.unpack y.toModel.unpack)).unpack := rfl
  have hadd : (x + y).toModel.unpack =
      (Float.Model.pack (UnpackedFloat.add .binary64 x.toModel.unpack y.toModel.unpack)).unpack := rfl
  rw [hy.unpack_top] at hsub hadd
  cases hform : x.toModel.unpack with
  | notANumber | infinity =>
    rw [hform] at hvalue
    exact hvalue.elim
  | zero | finite =>
    rw [hform] at hsub hadd
    exact ⟨.bot (hsub.trans (unpack_pack_infinity _)), .top (hadd.trans (unpack_pack_infinity _))⟩

/-- What is kept of a whole or infinite double keeps its place. -/
theorem exists_boundsAt {x : Float}
    (h : (∃ z : ℤ, HasValue x z) ∨ HasExtendedValue x ⊤ ∨ HasExtendedValue x ⊥) :
    ∃ k, nearestInt? x = some k ∧ BoundsAt x k := by
  have hlimit : (2 : ℤ) ^ 51 < limit := lt_of_lt_of_le (by norm_num) limit_bounds.1
  have hnan : x.isNaN = false := by
    rcases h with ⟨z, hz⟩ | h | h
    · exact hz.isNaN_eq_false
    · exact h.isNaN_eq_false
    · exact h.isNaN_eq_false
  obtain ⟨k, hk, horder⟩ := nearestInt?_order hnan
  have hfar := horder (2 ^ 51) (by rw [abs_of_pos (by norm_num)]; exact hlimit)
  have hfar' := horder (-2 ^ 51) (by rw [abs_neg, abs_of_pos (by norm_num)]; exact hlimit)
  refine ⟨k, hk, ?_⟩
  rcases h with ⟨z, hz⟩ | htop | hbot
  · have hrounded : rounded x = extended z := by
      rw [rounded, hz.value?_int]
      exact congrArg extended (roundAway_intCast z)
    rw [hrounded, extended_le_extended, extended_le_extended] at hfar hfar'
    refine .inl ⟨z, hz, ?_⟩
    by_cases hsmall : |z| < limit
    · have heq := horder z hsmall
      rw [hrounded] at heq
      exact .inl (le_antisymm (heq.1.1 le_rfl) (heq.2.1 le_rfl))
    · rw [abs_lt] at hsmall
      unfold Agrees
      omega
  · have hrounded : rounded x = ⊤ := by
      simp only [rounded, value?, htop.unpack_top]
      exact if_neg fun hneg => absurd ((htop.lt_iff (.value hasValue_zero)).1 hneg) not_top_lt
    rw [hrounded] at hfar
    exact .inr (.inl ⟨htop, hfar.1.1 le_top⟩)
  · have hrounded : rounded x = ⊥ := by
      simp only [rounded, value?, hbot.unpack_bot]
      exact if_pos ((hbot.lt_iff (.value hasValue_zero)).2 (EReal.bot_lt_coe _))
    rw [hrounded] at hfar'
    exact .inr (.inr ⟨hbot, hfar'.2.1 bot_le⟩)

/-- The root of a double that is not negative is infinite, or its whole part is far from the greatest double. -/
theorem sqrt_cases {square : Float} (h : ¬ square < 0) :
    HasExtendedValue square.sqrt ⊤ ∨ square.sqrt.isInf = false ∧ (wholePart square.sqrt : ℝ) ≤ 2 ^ 512 := by
  have hunpack : square.sqrt.toModel.unpack =
      (Float.Model.pack (UnpackedFloat.sqrt .binary64 square.toModel.unpack)).unpack := rfl
  cases hnan : square.isNaN with
  | true =>
    have hform : square.toModel.unpack = .notANumber := by
      have hmodel : square.toModel.unpack.isNaN = true := hnan
      cases hform : square.toModel.unpack with
      | notANumber => rfl
      | infinity | zero | finite =>
        rw [hform] at hmodel
        cases hmodel
    rw [hform] at hunpack
    have hroot : square.sqrt.toModel.unpack = .notANumber := hunpack.trans rfl
    have hinf : square.sqrt.isInf = square.sqrt.toModel.unpack.isInf := rfl
    refine .inr ⟨by rw [hinf, hroot]; rfl, ?_⟩
    rw [wholePart, hroot, Nat.cast_zero]
    positivity
  | false =>
    obtain ⟨r, hr⟩ := exists_hasExtendedValue hnan
    rw [hr.lt_iff (.value hasValue_zero), not_lt] at h
    cases hr with
    | bot hform => exact absurd h (not_le.2 (EReal.bot_lt_coe _))
    | top hform =>
      rw [hform] at hunpack
      exact .inl (.top (hunpack.trans (unpack_pack_infinity _)))
    | @value a ha =>
      have h0 : 0 ≤ a := by simpa using h
      have hroot : √a ≤ 2 ^ 512 := by
        rw [Real.sqrt_le_left (by positivity), ← pow_mul]
        exact (le_abs_self a).trans ha.abs_lt.le
      have hvalue := ha.sqrt h0 (hroot.trans (pow_le_pow_right₀ one_le_two (by norm_num)))
      obtain ⟨q, hq, hqroot⟩ := hvalue
      have hle : (q : ℝ) ≤ 2 ^ 512 := hqroot ▸ nearest_le (isBinary_two_pow 512) hroot
      have hq0 : 0 ≤ q := by
        have hpos : (0 : ℝ) ≤ q := hqroot ▸ le_nearest isBinary_zero (Real.sqrt_nonneg a)
        exact_mod_cast hpos
      refine .inr ⟨HasValue.isInf_eq_false ⟨q, hq, rfl⟩, ?_⟩
      rw [wholePart_eq_floor, hq, Option.elim_some, Int.floor_toNat]
      refine le_trans ?_ hle
      exact_mod_cast Nat.floor_le hq0

/-- Half a chord is whole and far from the greatest double, or infinite. -/
theorem halfChord?_cases {radius dy span : Float} (h : Circle.halfChord? radius dy = some span) :
    (∃ m : ℤ, HasValue span m ∧ |(m : ℝ)| ≤ 2 ^ 512) ∨ HasExtendedValue span ⊤ := by
  unfold Circle.halfChord? at h
  dsimp only at h
  split at h
  · cases h
  · next hneg =>
    have hspan := Option.some.inj h
    have hinf (x : Float) : x.isInf = x.toModel.unpack.isInf := rfl
    rcases sqrt_cases hneg with htop | ⟨hfinite, hle⟩
    · rw [hinf, htop.unpack_top] at hspan
      exact .inr (hspan ▸ htop)
    · rw [hfinite] at hspan
      obtain ⟨m, hm⟩ := exists_nearest_eq_intCast (wholePart ((radius - dy) * (radius + dy)).sqrt)
      have hvalue := hasValue_ofNat_nearest (hle.trans (pow_le_pow_right₀ one_le_two (by norm_num)))
      rw [Int.cast_natCast] at hm
      refine .inl ⟨m, ?_, ?_⟩
      · rw [← hm, ← hspan]
        exact hvalue
      · rw [← hm, abs_of_nonneg (le_nearest isBinary_zero (Nat.cast_nonneg _))]
        exact nearest_le (isBinary_two_pow 512) hle

/-- The ends of a run that reaches equally far to both sides of a center. -/
theorem exists_hasValue_run {n m : ℤ} (hn : |(n : ℝ)| ≤ 2 ^ 1000) {span : Float} (hspan : HasValue span m)
    (hm : |(m : ℝ)| ≤ 2 ^ 1000) :
    (∃ z : ℤ, HasValue (Float.ofInt n - span) z) ∧ ∃ z : ℤ, HasValue (Float.ofInt n + span) z := by
  have hx := hasValue_ofInt_nearest (hn.trans (pow_le_pow_right₀ one_le_two (by norm_num)))
  obtain ⟨z, hz⟩ := exists_nearest_eq_intCast n
  have hzle : |(z : ℝ)| ≤ 2 ^ 1000 := hz ▸ abs_nearest_le (isBinary_two_pow 1000) hn
  have hroom : (2 : ℝ) ^ 1000 + 2 ^ 1000 ≤ 2 ^ 1023 := by
    rw [← two_mul, ← pow_succ']
    exact pow_le_pow_right₀ one_le_two (by norm_num)
  rw [hz] at hx
  have hsub := hx.sub hspan ((abs_sub _ _).trans ((add_le_add hzle hm).trans hroom))
  have hadd := hx.add hspan ((abs_add_le _ _).trans ((add_le_add hzle hm).trans hroom))
  rw [← Int.cast_sub] at hsub
  rw [← Int.cast_add] at hadd
  obtain ⟨w, hw⟩ := exists_nearest_eq_intCast (z - m)
  obtain ⟨w', hw'⟩ := exists_nearest_eq_intCast (z + m)
  exact ⟨⟨w, hw ▸ hsub⟩, ⟨w', hw' ▸ hadd⟩⟩

end Number

namespace Framebuffer

open Number
open Canvas (fill? sweep write?)

variable {f : Framebuffer} (hf : f.IsSmall)
include hf

/-! ## Runs -/

theorem hasValue_lastCol : HasValue f.lastCol (f.width.toNat - 1 : ℤ) :=
  hasValue_last (hf.width_le.trans (by norm_num))

theorem hasValue_lastRow : HasValue f.lastRow (f.height.toNat - 1 : ℤ) :=
  hasValue_last (hf.height_le.trans (by norm_num))

/-- The pixels of a row between two bounds, of which one is not beyond the other. -/
theorem paints_fillRow? {row : ℕ} (hrow : row < f.height.toNat) {x y : Float} {k l : ℤ} (hx : BoundsAt x k)
    (hy : BoundsAt y l) (hcols : ¬ fmin y f.lastCol < fmax x 0) :
    Paints f (f.fillRow? row (fmax x 0) (fmin y f.lastCol)) [⟨k, row, l, row⟩] := by
  intro c hraster hink
  have hw : c.width = f.width.toNat := congrArg Raster.width hraster
  have hh : c.height = f.height.toNat := congrArg Raster.height hraster
  obtain ⟨hempty, hbounds⟩ := toNat_bounds hx hy hf.width_le (hasValue_lastCol hf)
  rw [hempty, not_lt] at hcols
  obtain ⟨hleft, hright⟩ := hbounds hcols
  have hword : (UInt64.ofNat row).toNat = row := toNat_ofNat_of_lt_toNat hrow
  have hindex {col : UInt64} (hcol : col.toNat < f.width.toNat) :
      (UInt64.ofNat row * f.width + col).toNat = row * c.width + col.toNat := by
    rw [(toNat_index hf.area_lt (UInt64.lt_iff_toNat_lt.2 hcol) (UInt64.lt_iff_toNat_lt.2 (hword.trans_lt hrow))).1,
      hword, hw]
  have hpaint : (c.paint [⟨k, row, l, row⟩]).pixels =
      Canvas.fillRows c.ink c.width ((min l (f.width.toNat - 1)).toNat + 1 - k.toNat) c.pixels
        (row * c.width + k.toNat) 1 := by
    have hlength : min (l + 1).toNat c.width - k.toNat = (min l (f.width.toNat - 1)).toNat + 1 - k.toNat := by omega
    have hcount : min ((row : ℤ) + 1).toNat c.height - row = 1 := by omega
    have hpos : (min l (f.width.toNat - 1)).toNat + 1 - k.toNat ≠ 0 := by omega
    simp only [Canvas.paint, List.foldl_cons, List.foldl_nil, Canvas.paintBox, hlength, hcount, hpos, if_false,
      Int.toNat_natCast]
  have hlast : row * c.width + (min l (f.width.toNat - 1)).toNat < c.width * c.height :=
    Canvas.index_lt (by omega) (by omega)
  rw [hpaint, fillRow?, hindex (by omega), hindex (by omega), hleft, hright]
  unfold fill? Canvas.fill
  dsimp only
  rw [if_pos (by rw [c.size_pixels]; omega), hink, Canvas.fillRows, Canvas.fillRows]
  congr 2
  omega

/-- Rows between two bounds, of which one is not beyond the other. -/
theorem paints_sweepRows {x y : Float} {k l : ℤ} (hx : BoundsAt x k) (hy : BoundsAt y l)
    (hrows : ¬ fmin y f.lastRow < fmax x 0) {w : ℕ → Array UInt8 → Option (Array UInt8)} {boxes : ℕ → List Box}
    (h : ∀ row, row < f.height.toNat → Paints f (w row) (boxes row)) :
    Paints f (sweepRows w (fmax x 0) (fmin y f.lastRow))
      ((List.range' k.toNat ((min l (f.height.toNat - 1)).toNat + 1 - k.toNat)).flatMap boxes) := by
  obtain ⟨hempty, hbounds⟩ := toNat_bounds hx hy hf.height_le (hasValue_lastRow hf)
  rw [hempty, not_lt] at hrows
  obtain ⟨htop, hbottom⟩ := hbounds hrows
  unfold sweepRows
  rw [htop, hbottom]
  exact .sweep fun row _ hrow => h row (by omega)

/-! ## Rectangles -/

theorem paints_fillRect {p q : Point} {a b : Cell} (hpx : KeepsPlace p.x a.col) (hpy : KeepsPlace p.y a.row)
    (hqx : KeepsPlace q.x b.col) (hqy : KeepsPlace q.y b.row) : Paints f (f.fillRect p q) [Box.spanned a b] := by
  have hspan {x y : Float} {k l : ℤ} (hx : KeepsPlace x k) (hy : KeepsPlace y l) :
      BoundsAt (fmin x y) (min k l) ∧ BoundsAt (fmax x y) (max k l) := by
    obtain ⟨z, hz, hzk⟩ := hx
    obtain ⟨w, hw, hwl⟩ := hy
    unfold Agrees at hzk hwl
    refine ⟨.inl ⟨_, hasValue_fmin hz hw, ?_⟩, .inl ⟨_, hasValue_fmax hz hw, ?_⟩⟩ <;>
    · unfold Agrees
      omega
  obtain ⟨hleft, hright⟩ := hspan hpx hqx
  obtain ⟨htop, hbottom⟩ := hspan hpy hqy
  have hcols := (toNat_bounds hleft hright hf.width_le (hasValue_lastCol hf)).1
  have hrows := (toNat_bounds htop hbottom hf.height_le (hasValue_lastRow hf)).1
  unfold fillRect
  dsimp only
  split
  · next hempty =>
    rw [hcols, hrows] at hempty
    refine Paints.skip_of_not_mem fun col row hcol hrow b hb => ?_
    obtain rfl := List.mem_singleton.1 hb
    rw [Segment.mem_spanned]
    dsimp only
    omega
  · next hmeets =>
    have hinside := hmeets
    rw [hcols, hrows] at hinside
    rw [not_or] at hmeets
    refine (paints_sweepRows hf htop hbottom hmeets.2 fun row hrow =>
      paints_fillRow? hf hrow hleft hright hmeets.1).congr fun col row hcol hrow => ?_
    simp only [List.mem_flatMap, List.mem_range'_1, List.mem_singleton, exists_eq_left, Segment.mem_spanned]
    constructor
    · rintro ⟨_, ⟨i, hi, rfl⟩, hmem⟩
      obtain ⟨h1, h2, h3, h4⟩ := hmem
      dsimp only at h1 h2 h3 h4
      omega
    · intro h
      refine ⟨_, ⟨row, by omega, rfl⟩, ?_⟩
      refine ⟨?_, ?_, le_rfl, le_rfl⟩ <;> dsimp only <;> omega

/-! ## Circles -/

/-- One row of a filled circle. -/
theorem paints_chord {c : Circle} (hcol : |(c.center.col : ℝ)| ≤ 2 ^ 1000) {row : ℕ} (hrow : row < f.height.toNat) :
    Paints f (fun pixels =>
      match Circle.halfChord? (Float.ofNat c.radius) (Float.ofNat row - Float.ofInt c.center.row).abs with
      | none => some pixels
      | some span =>
        let left := fmax (Float.ofInt c.center.col - span) 0
        let right := fmin (Float.ofInt c.center.col + span) f.lastCol
        if right < left then some pixels else f.fillRow? row left right pixels)
      (c.chord? row).toList := by
  have hchord : c.chord? row = do
      let span ← Circle.halfChord? (Float.ofNat c.radius) (Float.ofNat row - Float.ofInt c.center.row).abs
      let left ← nearestInt? (Float.ofInt c.center.col - span)
      let right ← nearestInt? (Float.ofInt c.center.col + span)
      return ⟨left, row, right, row⟩ := rfl
  rw [hchord]
  cases hspan : Circle.halfChord? (Float.ofNat c.radius) (Float.ofNat row - Float.ofInt c.center.row).abs with
  | none => exact .skip
  | some span =>
    have hends : (∃ k, nearestInt? (Float.ofInt c.center.col - span) = some k ∧
          BoundsAt (Float.ofInt c.center.col - span) k) ∧
        ∃ k, nearestInt? (Float.ofInt c.center.col + span) = some k ∧ BoundsAt (Float.ofInt c.center.col + span) k := by
      rcases halfChord?_cases hspan with ⟨m, hm, hle⟩ | htop
      · obtain ⟨hsub, hadd⟩ := exists_hasValue_run hcol hm (hle.trans (pow_le_pow_right₀ one_le_two (by norm_num)))
        exact ⟨exists_boundsAt (.inl hsub), exists_boundsAt (.inl hadd)⟩
      · have hx := hasValue_ofInt_nearest (hcol.trans (pow_le_pow_right₀ one_le_two (by norm_num)))
        obtain ⟨hsub, hadd⟩ := hx.sub_top htop
        exact ⟨exists_boundsAt (.inr (.inr hsub)), exists_boundsAt (.inr (.inl hadd))⟩
    obtain ⟨⟨k, hk, hleft⟩, l, hl, hright⟩ := hends
    have hrun := (toNat_bounds hleft hright hf.width_le (hasValue_lastCol hf)).1
    simp only [Option.bind_eq_bind, Option.bind_some, hk, hl, Option.pure_def, Option.toList_some]
    by_cases hempty : fmin (Float.ofInt c.center.col + span) f.lastCol < fmax (Float.ofInt c.center.col - span) 0
    · simp only [if_pos hempty]
      rw [hrun] at hempty
      refine Paints.skip_of_not_mem fun col row' hcol' hrow'' b hb => ?_
      obtain rfl := List.mem_singleton.1 hb
      rintro ⟨hmem, hmem', -, -⟩
      dsimp only at hmem hmem'
      omega
    · simp only [if_neg hempty]
      exact paints_fillRow? hf hrow hleft hright hempty

theorem paints_fillCircle {c : Circle} (hcol : |(c.center.col : ℝ)| ≤ 2 ^ 1000)
    (hrow : |(c.center.row : ℝ)| ≤ 2 ^ 1000) (hradius : (c.radius : ℝ) ≤ 2 ^ 1000) :
    Paints f (f.fillCircle c.center.toPoint (Float.ofNat c.radius)) (c.disk f.toRaster) := by
  obtain ⟨m, hm⟩ := exists_nearest_eq_intCast c.radius
  have hvalue := hasValue_ofNat_nearest (hradius.trans (pow_le_pow_right₀ one_le_two (by norm_num)))
  rw [Int.cast_natCast] at hm
  have hle : |(m : ℝ)| ≤ 2 ^ 1000 := by
    rw [← hm]
    exact abs_nearest_le (isBinary_two_pow 1000) (by rwa [Nat.abs_cast])
  rw [hm] at hvalue
  obtain ⟨⟨k, hk⟩, l, hl⟩ := exists_hasValue_run hrow hvalue hle
  have htop : BoundsAt (Float.ofInt c.center.row - Float.ofNat c.radius) k := .inl ⟨k, hk, .inl rfl⟩
  have hbottom : BoundsAt (Float.ofInt c.center.row + Float.ofNat c.radius) l := .inl ⟨l, hl, .inl rfl⟩
  have hrows := (toNat_bounds htop hbottom hf.height_le (hasValue_lastRow hf)).1
  have hdisk : c.disk f.toRaster = (List.range (min ((f.height.toNat : ℤ) - 1) l + 1 - max 0 k).toNat).filterMap
      fun i => c.chord? ((max 0 k).toNat + i) := by
    show (List.range (min ((f.height.toNat : ℤ) - 1)
      (nearestInt (Float.ofInt c.center.row + Float.ofNat c.radius)) + 1 -
        max 0 (nearestInt (Float.ofInt c.center.row - Float.ofNat c.radius))).toNat).filterMap _ = _
    rw [hk.nearestInt_int, hl.nearestInt_int]
  unfold fillCircle
  dsimp only [Cell.toPoint]
  split
  · next hempty =>
    rw [hrows] at hempty
    have hcount : (min ((f.height.toNat : ℤ) - 1) l + 1 - max 0 k).toNat = 0 := by omega
    rw [hdisk, hcount]
    exact .skip
  · next hmeets =>
    have hinside := hmeets
    rw [hrows] at hinside
    have hloop := paints_sweepRows hf htop hbottom hmeets
      fun row hrow' => paints_chord hf hcol hrow'
    refine hloop.congr fun col row _ _ => ?_
    have htop' : (max 0 k).toNat = k.toNat := by omega
    rw [hdisk, htop']
    simp only [List.mem_flatMap, List.mem_range'_1, Option.mem_toList, List.mem_filterMap, List.mem_range]
    constructor
    · rintro ⟨b, ⟨i, hi, hb⟩, hmem⟩
      exact ⟨b, ⟨i - k.toNat, by omega, by rw [Nat.add_sub_cancel' hi.1]; exact hb⟩, hmem⟩
    · rintro ⟨b, ⟨i, hi, hb⟩, hmem⟩
      exact ⟨b, ⟨k.toNat + i, by omega, hb⟩, hmem⟩

/-- The pixels of a ring, tested one by one. -/
theorem paints_inkRing (c : Circle) :
    Paints f (f.inkRing c.center.toPoint (Float.ofNat c.radius))
      ((c.ring f.toRaster (f.toRaster.penSide f.penSize)).map Box.single) := by
  have hside := (toInt_side_bounds hf).1
  have hwidth : f.toRaster.width = f.width.toNat := rfl
  have hheight : f.toRaster.height = f.height.toNat := rfl
  let passes (col row : ℕ) : Prop :=
    (measure (Float.ofNat col - Float.ofInt c.center.col) (Float.ofNat row - Float.ofInt c.center.row) -
      Float.ofNat c.radius).abs ≤ Float.ofInt f.side.toInt / 2
  have hpixel {col row : ℕ} (hcol : col < f.width.toNat) (hrow : row < f.height.toNat) :
      Paints f (fun pixels =>
        if passes col row then write? f.ink pixels (UInt64.ofNat row * f.width + UInt64.ofNat col).toNat
        else some pixels) (if passes col row then [Box.single ⟨col, row⟩] else []) := by
    have hword := toNat_ofNat_of_lt_toNat hcol
    have hword' := toNat_ofNat_of_lt_toNat hrow
    split
    · have hwrite := paints_write hf (UInt64.lt_iff_toNat_lt.2 (hword.trans_lt hcol))
        (UInt64.lt_iff_toNat_lt.2 (hword'.trans_lt hrow))
      rwa [hword, hword'] at hwrite
    · exact .skip
  have hloop : Paints f (f.inkRing c.center.toPoint (Float.ofNat c.radius)) _ :=
    Paints.sweep fun row _ hrow => Paints.sweep fun col _ hcol => hpixel (by omega) (by omega)
  refine hloop.congr fun x y hx hy => ?_
  have hhalf : Float.ofInt f.side.toInt = Float.ofNat (f.toRaster.penSide f.penSize) := congrArg Float.ofInt hside
  rw [Circle.ring_eq_ringBy]
  simp only [Circle.ringBy, List.mem_flatMap, List.mem_range'_1, List.mem_map, List.mem_filterMap, List.mem_range,
    ← hhalf, hwidth, hheight]
  constructor
  · rintro ⟨b, ⟨row, hrow, col, hcol, hb⟩, hmem⟩
    split at hb
    · next h =>
      rw [List.mem_singleton] at hb
      exact ⟨b, ⟨⟨col, row⟩, ⟨row, by omega, col, by omega, if_pos h⟩, hb.symm⟩, hmem⟩
    · exact absurd hb List.not_mem_nil
  · rintro ⟨b, ⟨d, ⟨row, hrow, col, hcol, hd⟩, rfl⟩, hmem⟩
    split at hd
    · next h =>
      cases hd
      exact ⟨_, ⟨row, by omega, col, by omega, by rw [if_pos (show passes col row from h)]; exact List.mem_singleton_self _⟩,
        hmem⟩
    · cases hd

end Framebuffer

end Easel
