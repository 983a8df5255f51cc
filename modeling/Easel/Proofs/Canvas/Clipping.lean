import Easel.Canvas.Segment
import Easel.Proofs.Number.Integral

/-!
# Clipping along an axis

Of the two pairs of opposite edges that a segment along a row or a column is cut at, one pair is along it and keeps
all of it or nothing (`cutAxis_of_eq_zero`). At the other pair the parameters are rounded quotients, but they are
compared only with 0, with 1 and with each other, and rounding leaves such comparisons as they are. So the two edges
do to the ends what `clamp` does to integers (`clamps_cutAxis`).

`clip_of_isAxial`: the four edges together. `clip_eq_self`: any segment that no edge is in the way of.
-/

namespace Easel

/-- The raster with so many more cells on each side. -/
def Raster.grown (r : Raster) (margin : ℕ) : Box := ⟨-margin, -margin, r.width - 1 + margin, r.height - 1 + margin⟩

namespace Segment

open Number

/-- The point is the cell. -/
def IsAt (p : Point) (c : Cell) : Prop := HasValue p.x c.col ∧ HasValue p.y c.row

theorem IsAt.nearest_eq {p : Point} {c : Cell} (h : IsAt p c) : Cell.nearest p = c := by
  rw [Cell.nearest, h.1.nearestInt_int, h.2.nearestInt_int]

theorem isAt_toPoint {c : Cell} (hcol : |c.col| < 2 ^ 53) (hrow : |c.row| < 2 ^ 53) : IsAt c.toPoint c :=
  ⟨hasValue_ofInt hcol, hasValue_ofInt hrow⟩

/-! ## One edge -/

section
variable {v : Visible} {p q : Float} {place : Float → Point} {m n : ℤ}

/-- An edge along the segment keeps all of it or nothing. -/
theorem cut_of_eq_zero (hp : HasValue p (0 : ℤ)) (hq : HasValue q n) :
    v.cut p q place = if n < 0 then none else some v := by
  have hzero : (p == 0) = true := (hp.beq_iff hasValue_zero).2 rfl
  have hneg : q < 0 ↔ n < 0 := by
    rw [hq.lt_iff hasValue_zero]
    exact Int.cast_lt
  simp only [Visible.cut, hzero, if_true, hneg]

theorem beq_zero_eq_false (hp : HasValue p m) (hm : m ≠ 0) : (p == 0) = false := by
  rw [Bool.eq_false_iff, ne_eq, hp.beq_iff hasValue_zero]
  exact_mod_cast hm

/-- An edge that the segment comes in over moves its start. -/
theorem cut_of_neg (hp : HasValue p m) (hm : m < 0) :
    v.cut p q place =
      if v.t1 < q / p then none
      else if v.t0 < q / p then some { v with t0 := q / p, start := place (q / p) } else some v := by
  have hneg : p < 0 := by
    rw [hp.lt_iff hasValue_zero]
    exact_mod_cast hm
  simp only [Visible.cut, beq_zero_eq_false hp hm.ne, Bool.false_eq_true, if_false, hneg, if_true]

/-- An edge that the segment goes out over moves its stop. -/
theorem cut_of_pos (hp : HasValue p m) (hm : 0 < m) :
    v.cut p q place =
      if q / p < v.t0 then none
      else if q / p < v.t1 then some { v with t1 := q / p, stop := place (q / p) } else some v := by
  have hpos : ¬ p < 0 := by
    rw [hp.lt_iff hasValue_zero]
    exact_mod_cast hm.le.not_gt
  simp only [Visible.cut, beq_zero_eq_false hp hm.ne', Bool.false_eq_true, if_false, hpos]

/-- An edge that neither end of a whole segment is beyond leaves it as it is. What there is to go to the edge is
rounded, but not past 0 and not past the way to the other end. -/
theorem cut_eq_self {y : ℝ} (h0 : v.t0 = 0) (h1 : v.t1 = 1) (hp : HasValue p m) (hq : HasValue q (nearest y))
    (hy : 0 ≤ y) (hm : m ≤ y) (hm' : |m| ≤ 2 ^ 53) (hbound : |y| ≤ 2 ^ 1023) : v.cut p q place = some v := by
  have hquotient (hne : m ≠ 0) : HasValue (q / p) (nearest (nearest y / m)) := by
    refine hq.div hp (Int.cast_ne_zero.2 hne) ?_
    have hone : (1 : ℝ) ≤ |(m : ℝ)| := by exact_mod_cast Int.one_le_abs hne
    rw [abs_div]
    exact (div_le_self (abs_nonneg _) hone).trans (abs_nearest_le (isBinary_two_pow 1023) hbound)
  have hy' : 0 ≤ nearest y := le_nearest isBinary_zero hy
  rcases lt_trichotomy m 0 with hneg | rfl | hpos
  · have hle : nearest (nearest y / m) ≤ 0 :=
      nearest_le isBinary_zero (div_nonpos_of_nonneg_of_nonpos hy' (by exact_mod_cast hneg.le))
    have hbeyond : ¬ 1 < q / p := by
      rw [hasValue_one.lt_iff (hquotient hneg.ne), Int.cast_one, not_lt]
      exact hle.trans zero_le_one
    have hbefore : ¬ 0 < q / p := by
      rw [hasValue_zero.lt_iff (hquotient hneg.ne), Int.cast_zero, not_lt]
      exact hle
    rw [cut_of_neg hp hneg, h0, h1, if_neg hbeyond, if_neg hbefore]
  · have hzero : (p == 0) = true := (hp.beq_iff hasValue_zero).2 rfl
    have hwithin : ¬ q < 0 := by
      rw [hq.lt_iff hasValue_zero, Int.cast_zero, not_lt]
      exact hy'
    rw [Visible.cut]
    simp only [hzero, if_true, hwithin, if_false]
  · have hle : 1 ≤ nearest (nearest y / m) := by
      refine le_nearest isBinary_one ?_
      rw [one_le_div (by exact_mod_cast hpos)]
      exact le_nearest (isBinary_intCast hm') hm
    have hbefore : ¬ q / p < 0 := by
      rw [(hquotient hpos.ne').lt_iff hasValue_zero, Int.cast_zero, not_lt]
      exact zero_le_one.trans hle
    have hbeyond : ¬ q / p < 1 := by
      rw [(hquotient hpos.ne').lt_iff hasValue_one, Int.cast_one, not_lt]
      exact hle
    rw [cut_of_pos hp hpos, h0, h1, if_neg hbefore, if_neg hbeyond]

end

/-! ## Two opposite edges -/

/-- The edge that is beyond a coordinate, or else the coordinate. -/
def clamp (low high z : ℤ) : ℤ := max low (min z high)

theorem isAt_clamp_of_lt {axis : ℤ → Cell} {low high z : ℤ} {p : Point} (h : z < low) (hp : IsAt p (axis low)) :
    IsAt p (axis (clamp low high z)) := by
  rwa [clamp, max_eq_left (by omega)]

theorem isAt_clamp_of_gt {axis : ℤ → Cell} {low high z : ℤ} {p : Point} (h : high < z) (hlow : low ≤ high)
    (hp : IsAt p (axis high)) : IsAt p (axis (clamp low high z)) := by
  rwa [clamp, min_eq_right h.le, max_eq_right hlow]

theorem isAt_clamp_of_mem {axis : ℤ → Cell} {low high z : ℤ} {p : Point} (h : low ≤ z) (h' : z ≤ high)
    (hp : IsAt p (axis z)) : IsAt p (axis (clamp low high z)) := by
  rwa [clamp, min_eq_left h', max_eq_right h]

/-- All that is between `a` and `b` is beyond one of two edges. -/
def Misses (low high a b : ℤ) : Prop := max a b < low ∨ high < min a b

instance (low high a b : ℤ) : Decidable (Misses low high a b) := inferInstanceAs (Decidable (_ ∨ _))

theorem clamp_of_not_misses {low high z : ℤ} (h : ¬ Misses low high z z) : clamp low high z = z := by
  unfold Misses at h
  unfold clamp
  omega

/-- What two opposite edges leave of a segment from `a` to `b` along an axis: nothing if all of it is beyond one of
them, and else a segment between the ends that are not beyond, and the edges in place of those that are. -/
def Clamps (axis : ℤ → Cell) (low high a b : ℤ) : Option Visible → Prop
  | none => Misses low high a b
  | some v => ¬ Misses low high a b ∧
      IsAt v.start (axis (clamp low high a)) ∧ IsAt v.stop (axis (clamp low high b))

/-- Cuts at two opposite edges. -/
def cutAxis (p q q' : Float) (place place' : Float → Point) (v : Visible) : Option Visible :=
  (v.cut (-p) q place).bind fun v => v.cut p q' place'

section
variable {axis : ℤ → Cell} {low high a b : ℤ} {start stop : Point} {p q q' : Float} {place place' : Float → Point}
  (hp : HasValue p (b - a : ℤ)) (hq : HasValue q (a - low : ℤ)) (hq' : HasValue q' (high - a : ℤ))
  (hstart : IsAt start (axis a)) (hstop : IsAt stop (axis b))
  (hplace : ∀ t τ, HasValue t τ → IsAt (place t) (axis low))
  (hplace' : ∀ t τ, HasValue t τ → IsAt (place' t) (axis high))
  (hlow : low ≤ high) (ha : |a - low| ≤ 2 ^ 53) (ha' : |high - a| ≤ 2 ^ 53) (hd : |b - a| ≤ 2 ^ 42)
include hp hq hq' hstart hstop hplace hplace' hlow ha ha' hd

theorem clamps_of_lt (hab : a < b) : Clamps axis low high a b (cutAxis p q q' place place' ⟨0, 1, start, stop⟩) := by
  have hd' := (abs_le.1 hd).2
  have hpos : 0 < b - a := by omega
  have ht := hq.div_int hp.neg_int (by omega) ha
  have ht' := hq'.div_int hp hpos.ne' ha'
  have hflip : ((a - low : ℤ) : ℝ) / (-(b - a) : ℤ) = ((low - a : ℤ) : ℝ) / (b - a : ℤ) := by
    rw [Int.cast_neg, ← neg_div_neg_eq, neg_neg, ← Int.cast_neg, neg_sub]
  rw [hflip] at ht
  have hbeyond : 1 < q / -p ↔ b < low := by
    rw [hasValue_one.lt_iff ht, lt_nearest_div hpos hd' (by norm_num)]
    omega
  have hbefore : 0 < q / -p ↔ a < low := by
    rw [hasValue_zero.lt_iff ht, lt_nearest_div hpos hd' (by norm_num)]
    omega
  have hpast : q' / p < 0 ↔ high < a := by
    rw [ht'.lt_iff hasValue_zero, nearest_div_lt hpos hd' (by norm_num)]
    omega
  have hwithin : q' / p < 1 ↔ high < b := by
    rw [ht'.lt_iff hasValue_one, nearest_div_lt hpos hd' (by norm_num)]
    omega
  have horder : ¬ q' / p < q / -p := by
    rw [ht'.lt_iff ht, not_lt]
    refine nearest_mono (div_le_div_of_nonneg_right ?_ (by exact_mod_cast hpos.le))
    exact_mod_cast sub_le_sub_right hlow a
  rw [cutAxis, cut_of_neg hp.neg_int (by omega)]
  simp only [hbeyond, hbefore]
  split
  · exact .inl (by omega)
  split
  · -- The start is on the lower edge now, which is not beyond the upper one.
    rw [Option.bind_some, cut_of_pos hp hpos]
    simp only [horder, if_false, hwithin]
    split
    · exact ⟨by unfold Misses; omega,
        isAt_clamp_of_lt ‹_› (hplace _ _ ht), isAt_clamp_of_gt ‹_› hlow (hplace' _ _ ht')⟩
    · exact ⟨by unfold Misses; omega,
        isAt_clamp_of_lt ‹_› (hplace _ _ ht), isAt_clamp_of_mem (by omega) (by omega) hstop⟩
  · rw [Option.bind_some, cut_of_pos hp hpos]
    simp only [hpast, hwithin]
    split
    · exact .inr (by omega)
    split
    · exact ⟨by unfold Misses; omega,
        isAt_clamp_of_mem (by omega) (by omega) hstart, isAt_clamp_of_gt ‹_› hlow (hplace' _ _ ht')⟩
    · exact ⟨by unfold Misses; omega, isAt_clamp_of_mem (by omega) (by omega) hstart,
        isAt_clamp_of_mem (by omega) (by omega) hstop⟩

theorem clamps_of_gt (hab : b < a) : Clamps axis low high a b (cutAxis p q q' place place' ⟨0, 1, start, stop⟩) := by
  have hd' := (abs_le.1 hd).1
  have hpos : 0 < a - b := by omega
  have hneg : HasValue (-p) (a - b : ℤ) := by
    rw [← neg_sub b a]
    exact hp.neg_int
  have ht := hq.div_int hneg hpos.ne' ha
  have ht' := hq'.div_int hp (by omega) ha'
  have hflip : ((high - a : ℤ) : ℝ) / (b - a : ℤ) = ((a - high : ℤ) : ℝ) / (a - b : ℤ) := by
    rw [← neg_div_neg_eq, ← Int.cast_neg, ← Int.cast_neg, neg_sub, neg_sub]
  rw [hflip] at ht'
  have hpast : q / -p < 0 ↔ a < low := by
    rw [ht.lt_iff hasValue_zero, nearest_div_lt hpos (by omega) (by norm_num)]
    omega
  have hwithin : q / -p < 1 ↔ b < low := by
    rw [ht.lt_iff hasValue_one, nearest_div_lt hpos (by omega) (by norm_num)]
    omega
  have hbeyond : 1 < q' / p ↔ high < b := by
    rw [hasValue_one.lt_iff ht', lt_nearest_div hpos (by omega) (by norm_num)]
    omega
  have hbefore : 0 < q' / p ↔ high < a := by
    rw [hasValue_zero.lt_iff ht', lt_nearest_div hpos (by omega) (by norm_num)]
    omega
  have horder : ¬ q / -p < q' / p := by
    rw [ht.lt_iff ht', not_lt]
    refine nearest_mono (div_le_div_of_nonneg_right ?_ (by exact_mod_cast hpos.le))
    exact_mod_cast sub_le_sub_left hlow a
  rw [cutAxis, cut_of_pos hneg hpos]
  simp only [hpast, hwithin]
  split
  · exact .inl (by omega)
  split
  · -- The stop is on the lower edge now, which is not beyond the upper one.
    rw [Option.bind_some, cut_of_neg hp (by omega)]
    simp only [horder, if_false, hbefore]
    split
    · exact ⟨by unfold Misses; omega,
        isAt_clamp_of_gt ‹_› hlow (hplace' _ _ ht'), isAt_clamp_of_lt ‹_› (hplace _ _ ht)⟩
    · exact ⟨by unfold Misses; omega,
        isAt_clamp_of_mem (by omega) (by omega) hstart, isAt_clamp_of_lt ‹_› (hplace _ _ ht)⟩
  · rw [Option.bind_some, cut_of_neg hp (by omega)]
    simp only [hbeyond, hbefore]
    split
    · exact .inr (by omega)
    split
    · exact ⟨by unfold Misses; omega,
        isAt_clamp_of_gt ‹_› hlow (hplace' _ _ ht'), isAt_clamp_of_mem (by omega) (by omega) hstop⟩
    · exact ⟨by unfold Misses; omega, isAt_clamp_of_mem (by omega) (by omega) hstart,
        isAt_clamp_of_mem (by omega) (by omega) hstop⟩

end

/-- Edges along the segment keep all of it or nothing. -/
theorem cutAxis_of_eq_zero {p q q' : Float} {place place' : Float → Point} {low high a : ℤ} (hp : HasValue p (0 : ℤ))
    (hq : HasValue q (a - low : ℤ)) (hq' : HasValue q' (high - a : ℤ)) :
    cutAxis p q q' place place' = if Misses low high a a then fun _ => none else some := by
  have hneg : HasValue (-p) (0 : ℤ) := by simpa using hp.neg_int
  have hmisses : Misses low high a a ↔ a - low < 0 ∨ high - a < 0 := by
    unfold Misses
    omega
  funext v
  rw [cutAxis, cut_of_eq_zero hneg hq, if_congr hmisses rfl rfl]
  by_cases hbelow : a - low < 0
  · simp [hbelow]
  · by_cases habove : high - a < 0 <;> simp [hbelow, habove, cut_of_eq_zero hp hq']

theorem clamps_cutAxis {axis : ℤ → Cell} {low high a b : ℤ} {start stop : Point} {p q q' : Float}
    {place place' : Float → Point} (hp : HasValue p (b - a : ℤ)) (hq : HasValue q (a - low : ℤ))
    (hq' : HasValue q' (high - a : ℤ)) (hstart : IsAt start (axis a)) (hstop : IsAt stop (axis b))
    (hplace : ∀ t τ, HasValue t τ → IsAt (place t) (axis low))
    (hplace' : ∀ t τ, HasValue t τ → IsAt (place' t) (axis high)) (hlow : low ≤ high) (ha : |a - low| ≤ 2 ^ 53)
    (ha' : |high - a| ≤ 2 ^ 53) (hd : |b - a| ≤ 2 ^ 42) :
    Clamps axis low high a b (cutAxis p q q' place place' ⟨0, 1, start, stop⟩) := by
  rcases lt_trichotomy a b with hab | rfl | hab
  · exact clamps_of_lt hp hq hq' hstart hstop hplace hplace' hlow ha ha' hd hab
  · rw [sub_self] at hp
    rw [cutAxis_of_eq_zero hp hq hq']
    split
    · assumption
    · next hmeets =>
      unfold Misses at hmeets
      exact ⟨by assumption, isAt_clamp_of_mem (by omega) (by omega) hstart,
        isAt_clamp_of_mem (by omega) (by omega) hstop⟩
  · exact clamps_of_gt hp hq hq' hstart hstop hplace hplace' hlow ha ha' hd hab

theorem Clamps.map_eq {axis : ℤ → Cell} {low high a b : ℤ} {cut : Option Visible} (h : Clamps axis low high a b cut) :
    (cut.map fun v => (⟨.nearest v.start, .nearest v.stop⟩ : Segment)) =
      if Misses low high a b then none else some ⟨axis (clamp low high a), axis (clamp low high b)⟩ := by
  cases cut with
  | none =>
    have hmisses : Misses low high a b := h
    rw [if_pos hmisses, Option.map_none]
  | some v => rw [if_neg h.1, Option.map_some, h.2.1.nearest_eq, h.2.2.nearest_eq]

/-! ## Four edges -/

/-- The cell moved onto the edges that it is beyond. -/
def clampCell (r : Raster) (margin : ℕ) (c : Cell) : Cell :=
  ⟨clamp (-margin) (r.width - 1 + margin) c.col, clamp (-margin) (r.height - 1 + margin) c.row⟩

theorem penSide_bounds (r : Raster) (size : Float) :
    1 ≤ r.penSide size ∧ r.penSide size ≤ max 1 (max r.width r.height) := by
  unfold Raster.penSide
  omega

theorem penSide_lt {r : Raster} (size : Float) (hwidth : r.width < 2 ^ 53) (hheight : r.height < 2 ^ 53) :
    r.penSide size < 2 ^ 53 :=
  (penSide_bounds r size).2.trans_lt (by omega)

/-- A segment along a row or a column. -/
def IsAxial (s : Segment) : Prop := s.start.row = s.stop.row ∨ s.start.col = s.stop.col

/-- A cell that doubles can name, and count the way to. -/
def IsNear (c : Cell) : Prop := |c.col| ≤ 2 ^ 41 ∧ |c.row| ≤ 2 ^ 41

theorem IsNear.isAt {c : Cell} (h : IsNear c) : IsAt c.toPoint c :=
  isAt_toPoint (h.1.trans_lt (by norm_num)) (h.2.trans_lt (by norm_num))

/-- The last column or row of a raster that is grown by a margin. -/
theorem hasValue_edge (n margin : ℕ) (h : n + margin < 2 ^ 53) :
    HasValue (Float.ofNat n - 1 + Float.ofNat margin) ((n - 1 + margin : ℤ)) :=
  ((hasValue_natCast (by omega)).sub_int hasValue_one (by rw [abs_le]; omega)).add_int (hasValue_natCast (by omega))
    (by rw [abs_le]; omega)

theorem clip_eq_cutAxis (r : Raster) (margin : ℕ) (s : Segment) :
    s.clip r margin =
      let a := s.start.toPoint
      let b := s.stop.toPoint
      let low := -Float.ofNat margin
      let right := Float.ofNat r.width - 1 + Float.ofNat margin
      let bottom := Float.ofNat r.height - 1 + Float.ofNat margin
      ((cutAxis (b.x - a.x) (a.x - low) (right - a.x) (fun t => ⟨low, a.y + t * (b.y - a.y)⟩)
        (fun t => ⟨right, a.y + t * (b.y - a.y)⟩) ⟨0, 1, a, b⟩).bind
      (cutAxis (b.y - a.y) (a.y - low) (bottom - a.y) (fun t => ⟨a.x + t * (b.x - a.x), low⟩)
        (fun t => ⟨a.x + t * (b.x - a.x), bottom⟩))).map fun v => ⟨.nearest v.start, .nearest v.stop⟩ := by
  simp only [clip, cutAxis, Option.bind_eq_bind, Option.pure_def, Option.bind_assoc, Option.map_eq_bind]
  rfl

/-- The last column or row of a raster that is grown by a margin is where rounding puts it, and that is not before any
integer up to it that is a double. -/
theorem exists_hasValue_edge {n margin : ℕ} (hn : n < 2 ^ 53) (hmargin : margin < 2 ^ 53) :
    ∃ e : ℝ, HasValue (Float.ofNat n - 1 + Float.ofNat margin) e ∧ |e| ≤ 2 ^ 54 ∧
      ∀ z : ℤ, |z| ≤ 2 ^ 53 → z ≤ n - 1 + margin → z ≤ e := by
  have hlast := (hasValue_natCast hn).sub_int hasValue_one (by rw [abs_le]; omega)
  have hsum : |((n - 1 : ℤ) : ℝ) + ((margin : ℤ) : ℝ)| ≤ 2 ^ 54 := by
    rw [← Int.cast_add, ← Int.cast_abs]
    exact_mod_cast (abs_le.2 ⟨by omega, by omega⟩ : |(n - 1 + margin : ℤ)| ≤ 2 ^ 54)
  refine ⟨_, hlast.add (hasValue_natCast hmargin) (hsum.trans ?_), abs_nearest_le (isBinary_two_pow 54) hsum, ?_⟩
  · exact pow_le_pow_right₀ one_le_two (by norm_num)
  · intro z hz hle
    refine le_nearest (isBinary_intCast hz) ?_
    exact_mod_cast hle

/-- Two opposite edges leave a whole segment as it is if its ends are between them. -/
theorem cutAxis_eq_self {v : Visible} {x y : Float} {place place' : Float → Point} {a b : ℤ} {n margin : ℕ}
    (h0 : v.t0 = 0) (h1 : v.t1 = 1) (hx : HasValue x a) (hy : HasValue y b) (hn : n < 2 ^ 53)
    (hmargin : margin < 2 ^ 53) (ha : -margin ≤ a ∧ a ≤ n - 1 + margin) (hb : -margin ≤ b ∧ b ≤ n - 1 + margin)
    (hab : |a| < 2 ^ 53 ∧ |b| < 2 ^ 53 ∧ |b - a| ≤ 2 ^ 53) :
    cutAxis (y - x) (x - -Float.ofNat margin) (Float.ofNat n - 1 + Float.ofNat margin - x) place place' v = some v := by
  obtain ⟨hsize, hsize', hd⟩ := hab
  obtain ⟨e, he, hedge, hge⟩ := exists_hasValue_edge hn hmargin
  have hrate := hy.sub_int hx hd
  have hbound {z : ℝ} (h : |z| ≤ 2 ^ 55) : |z| ≤ 2 ^ 1023 := h.trans (pow_le_pow_right₀ one_le_two (by norm_num))
  have hlow : |(a : ℝ) - (-margin : ℤ)| ≤ 2 ^ 1023 := by
    rw [abs_lt] at hsize
    refine hbound ?_
    exact_mod_cast (abs_le.2 ⟨by omega, by omega⟩ : |a - -margin| ≤ 2 ^ 55)
  have hhigh : |e - a| ≤ 2 ^ 1023 := by
    have ha' : |(a : ℝ)| ≤ 2 ^ 53 := by exact_mod_cast hsize.le
    refine hbound ((abs_sub e a).trans ?_)
    linarith
  -- Neither end is beyond the lower edge, nor beyond the upper one.
  have hleft : (0 : ℝ) ≤ a - (-margin : ℤ) := by exact_mod_cast (by omega : 0 ≤ a - -margin)
  have hleft' : ((-(b - a) : ℤ) : ℝ) ≤ a - (-margin : ℤ) := by exact_mod_cast (by omega : -(b - a) ≤ a - -margin)
  have hright : 0 ≤ e - a := sub_nonneg.2 (hge a hsize.le ha.2)
  have hright' : ((b - a : ℤ) : ℝ) ≤ e - a := by
    rw [Int.cast_sub]
    exact sub_le_sub_right (hge b hsize'.le hb.2) _
  rw [cutAxis, cut_eq_self h0 h1 hrate.neg_int (hx.sub (hasValue_natCast hmargin).neg_int hlow) hleft hleft'
    (by rwa [abs_neg]) hlow, Option.bind_some, cut_eq_self h0 h1 hrate (he.sub hx hhigh) hright hright' hd hhigh]

/-- A segment between two cells of the grown raster is left as it is. -/
theorem clip_eq_self {r : Raster} {margin : ℕ} {s : Segment} (hwidth : r.width < 2 ^ 53) (hheight : r.height < 2 ^ 53)
    (hmargin : margin < 2 ^ 53) (hstart : s.start ∈ r.grown margin) (hstop : s.stop ∈ r.grown margin)
    (hcols : |s.start.col| < 2 ^ 53 ∧ |s.stop.col| < 2 ^ 53 ∧ |s.stop.col - s.start.col| ≤ 2 ^ 53)
    (hrows : |s.start.row| < 2 ^ 53 ∧ |s.stop.row| < 2 ^ 53 ∧ |s.stop.row - s.start.row| ≤ 2 ^ 53) :
    s.clip r margin = some s := by
  have ha := isAt_toPoint hcols.1 hrows.1
  have hb := isAt_toPoint hcols.2.1 hrows.2.1
  obtain ⟨hleft, hright, htop, hbottom⟩ := hstart
  obtain ⟨hleft', hright', htop', hbottom'⟩ := hstop
  rw [clip_eq_cutAxis]
  dsimp only
  rw [cutAxis_eq_self rfl rfl ha.1 hb.1 hwidth hmargin ⟨hleft, hright⟩ ⟨hleft', hright'⟩ hcols, Option.bind_some,
    cutAxis_eq_self rfl rfl ha.2 hb.2 hheight hmargin ⟨htop, hbottom⟩ ⟨htop', hbottom'⟩ hrows, Option.map_some,
    ha.nearest_eq, hb.nearest_eq]

/-- Where a segment does not move along an axis, it is the same on every edge. -/
theorem hasValue_add_mul_zero {a d t : Float} {n : ℤ} {τ : ℝ} (ha : HasValue a n) (hn : |n| ≤ 2 ^ 53)
    (hd : HasValue d (0 : ℤ)) (ht : HasValue t τ) : HasValue (a + t * d) n := by
  have hproduct := ht.mul hd (by simp)
  rw [Int.cast_zero, mul_zero, nearest_zero, ← Int.cast_zero] at hproduct
  have hsum := ha.add_int hproduct (by rwa [add_zero])
  rwa [add_zero] at hsum

/-- A segment along an axis is clipped as its coordinates are, in spite of all rounding. -/
theorem clip_of_isAxial {r : Raster} {margin : ℕ} {s : Segment} (h : s.IsAxial) (hstart : IsNear s.start)
    (hstop : IsNear s.stop) (hwidth : r.width ≤ 2 ^ 24) (hheight : r.height ≤ 2 ^ 24) (hmargin : margin ≤ 2 ^ 24)
    (hpos : 1 ≤ margin) :
    s.clip r margin =
      if Misses (-margin) (r.width - 1 + margin) s.start.col s.stop.col ∨
          Misses (-margin) (r.height - 1 + margin) s.start.row s.stop.row then none
      else some ⟨clampCell r margin s.start, clampCell r margin s.stop⟩ := by
  obtain ⟨⟨x, y⟩, ⟨x', y'⟩⟩ := s
  have ha := hstart.isAt
  have hb := hstop.isAt
  obtain ⟨hx, hy⟩ := hstart
  obtain ⟨hx', hy'⟩ := hstop
  dsimp only at hx hy hx' hy'
  rw [abs_le] at hx hy hx' hy'
  have hlow := (hasValue_natCast (n := margin) (by omega)).neg_int
  have hedge {n : ℕ} (hn : n ≤ 2 ^ 24) := hasValue_edge n margin (by omega)
  have hdx := hb.1.sub_int ha.1 (by rw [abs_le]; dsimp only; omega)
  have hdy := hb.2.sub_int ha.2 (by rw [abs_le]; dsimp only; omega)
  have hleft := ha.1.sub_int hlow (by rw [abs_le]; dsimp only; omega)
  have hright := (hedge hwidth).sub_int ha.1 (by rw [abs_le]; dsimp only; omega)
  have htop := ha.2.sub_int hlow (by rw [abs_le]; dsimp only; omega)
  have hbottom := (hedge hheight).sub_int ha.2 (by rw [abs_le]; dsimp only; omega)
  rw [clip_eq_cutAxis]
  dsimp only at *
  rcases h with hrow | hcol
  · obtain rfl : y = y' := hrow
    rw [sub_self] at hdy
    have hplace {e : Float} {n : ℤ} (he : HasValue e n) (t : Float) (τ : ℝ) (ht : HasValue t τ) :
        IsAt ⟨e, (Cell.mk x y).toPoint.y + t * ((Cell.mk x' y).toPoint.y - (Cell.mk x y).toPoint.y)⟩ ⟨n, y⟩ :=
      ⟨he, hasValue_add_mul_zero ha.2 (by rw [abs_le]; dsimp only; omega) hdy ht⟩
    have hcols : Clamps (fun z => ⟨z, y⟩) (-margin) (r.width - 1 + margin) x x' _ :=
      clamps_cutAxis hdx hleft hright ha hb (hplace hlow) (hplace (hedge hwidth)) (by omega) (by rw [abs_le]; omega)
        (by rw [abs_le]; omega) (by rw [abs_le]; omega)
    rw [cutAxis_of_eq_zero hdy htop hbottom]
    by_cases hrows : Misses (-margin) (r.height - 1 + margin) y y
    · simp [hrows]
    · have hclamp : clamp (-margin) (r.height - 1 + margin) y = y := clamp_of_not_misses hrows
      rw [if_neg hrows, Option.bind_fun_some, hcols.map_eq]
      simp only [hrows, or_false, clampCell, hclamp]
  · obtain rfl : x = x' := hcol
    rw [sub_self] at hdx
    have hplace {e : Float} {n : ℤ} (he : HasValue e n) (t : Float) (τ : ℝ) (ht : HasValue t τ) :
        IsAt ⟨(Cell.mk x y).toPoint.x + t * ((Cell.mk x y').toPoint.x - (Cell.mk x y).toPoint.x), e⟩ ⟨x, n⟩ :=
      ⟨hasValue_add_mul_zero ha.1 (by rw [abs_le]; dsimp only; omega) hdx ht, he⟩
    have hrows : Clamps (fun z => ⟨x, z⟩) (-margin) (r.height - 1 + margin) y y' _ :=
      clamps_cutAxis hdy htop hbottom ha hb (hplace hlow) (hplace (hedge hheight)) (by omega) (by rw [abs_le]; omega)
        (by rw [abs_le]; omega) (by rw [abs_le]; omega)
    rw [cutAxis_of_eq_zero hdx hleft hright]
    by_cases hcols : Misses (-margin) (r.width - 1 + margin) x x
    · simp [hcols]
    · have hclamp : clamp (-margin) (r.width - 1 + margin) x = x := clamp_of_not_misses hcols
      rw [if_neg hcols, Option.bind_some, hrows.map_eq]
      simp only [hcols, false_or, clampCell, hclamp]

end Segment

end Easel
