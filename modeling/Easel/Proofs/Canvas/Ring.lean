import Easel.Proofs.Canvas.Marks

/-!
# Rings

A circle much larger than the raster is not walked: the cells of the raster are tested for their distance from the
center. No pixel of the walk is lost by that. A cell of the walk is nearer to the circle than half a cell, by a margin
that shrinks with the radius only (`abs_distance_sub_le_of_mem_outline`), and up to a radius of `2^20` the margin is
greater than any error that a distance in doubles can have.

`ringBy` leaves open how doubles measure a length, and `IsAccurate` says what is asked for.

`Canvas.pixel?_circle_of_mem_outline`: the pixels of the walk are in the ring, and on the canvas.
-/

namespace Easel

open Number

namespace Number

/-! ## Lengths -/

/-- The function gives the length of a vector with an error of no more than a unit in the last place. That is asked of
vectors with whole coordinates of up to 25 bits. -/
def IsAccurate (hypot : Float → Float → Float) : Prop :=
  ∀ ⦃x y : Float⦄ ⦃m n : ℤ⦄, HasValue x m → HasValue y n → |m| ≤ 2 ^ 25 → |n| ≤ 2 ^ 25 →
    ∃ d, HasValue (hypot x y) d ∧
      |d - √((m : ℝ) ^ 2 + (n : ℝ) ^ 2)| ≤ (2 : ℕ) ^ lastExponent √((m : ℝ) ^ 2 + (n : ℝ) ^ 2)

/-- The nearest double is less than a unit in the last place away. -/
theorem abs_nearest_sub_le_lastExponent (x : ℝ) : |nearest x - x| ≤ 2 ^ lastExponent x := by
  have hpos : (0 : ℝ) < 2 ^ lastExponent x := by positivity
  refine (abs_nearest_sub_le_of_int x ⌊x / 2 ^ lastExponent x⌋).trans ?_
  have hfloor := Int.floor_le (x / 2 ^ lastExponent x)
  have hlt := Int.lt_floor_add_one (x / 2 ^ lastExponent x)
  rw [le_div_iff₀ hpos] at hfloor
  rw [div_lt_iff₀ hpos] at hlt
  rw [abs_le]
  constructor <;> linarith

/-- A unit in the last place of a number below `2^k`. -/
theorem lastExponent_le {x : ℝ} {k : ℤ} (hpos : 0 < x) (hx : x < 2 ^ k) (hk : -1021 ≤ k) : lastExponent x ≤ k - 53 := by
  have hlog : Int.log 2 x < k := (Int.lt_zpow_iff_log_lt one_lt_two hpos).1 hx
  rw [lastExponent, abs_of_pos hpos]
  omega

theorem isAccurate_measure : IsAccurate measure := by
  intro x y m n hx hy hm hn
  have hsq {k : ℤ} (hk : |k| ≤ 2 ^ 25) : k.natAbs * k.natAbs ≤ 2 ^ 50 := by
    have hle : k.natAbs ≤ 2 ^ 25 := by
      rw [Int.abs_eq_natAbs] at hk
      omega
    exact (Nat.mul_le_mul hle hle).trans (by norm_num)
  have hlt : m.natAbs * m.natAbs + n.natAbs * n.natAbs < 2 ^ 53 := by
    have := hsq hm
    have := hsq hn
    omega
  have hcast : ((m.natAbs * m.natAbs + n.natAbs * n.natAbs : ℕ) : ℝ) = (m : ℝ) ^ 2 + (n : ℝ) ^ 2 := by
    have habs (k : ℤ) : ((k.natAbs : ℕ) : ℝ) * k.natAbs = (k : ℝ) ^ 2 := by
      rw [Nat.cast_natAbs, Int.cast_abs, abs_mul_abs_self, sq]
    push_cast
    rw [habs, habs]
  refine ⟨_, ?_, by simpa using abs_nearest_sub_le_lastExponent _⟩
  rw [measure, hx.nearestInt_int, hy.nearestInt_int, length, nearestSqrt, if_pos (by exact hlt), ← hcast]
  refine (hasValue_ofNat hlt).sqrt (Nat.cast_nonneg _) ?_
  calc
    √((m.natAbs * m.natAbs + n.natAbs * n.natAbs : ℕ) : ℝ) ≤ √((2 ^ 53) ^ 2) := by
      refine Real.sqrt_le_sqrt ?_
      exact_mod_cast hlt.le.trans (by norm_num)
    _ = 2 ^ 53 := Real.sqrt_sq (by positivity)
    _ ≤ 2 ^ 1023 := pow_le_pow_right₀ one_le_two (by norm_num)

end Number

namespace Circle

/-- The ring of a circle, where `hypot` measures the distance from the center. -/
def ringBy (hypot : Float → Float → Float) (c : Circle) (r : Raster) (side : Nat) : List Cell :=
  (List.range r.height).flatMap fun row => (List.range r.width).filterMap fun col =>
    let distance := hypot (Float.ofNat col - Float.ofInt c.center.col) (Float.ofNat row - Float.ofInt c.center.row)
    if (distance - Float.ofNat c.radius).abs ≤ Float.ofNat side / 2 then some ⟨col, row⟩ else none

theorem mem_ringBy {hypot : Float → Float → Float} {c : Circle} {r : Raster} {side col row : ℕ} (hcol : col < r.width)
    (hrow : row < r.height)
    (h : (hypot (Float.ofNat col - Float.ofInt c.center.col) (Float.ofNat row - Float.ofInt c.center.row) -
      Float.ofNat c.radius).abs ≤ Float.ofNat side / 2) : (⟨col, row⟩ : Cell) ∈ c.ringBy hypot r side :=
  List.mem_flatMap.2 ⟨row, List.mem_range.2 hrow, List.mem_filterMap.2 ⟨col, List.mem_range.2 hcol, if_pos h⟩⟩

theorem zipIdx_offsets (center : ℤ) (n : ℕ) :
    (offsets center n).zipIdx = (List.range n).map fun i => (nearestInt (Float.ofNat i - Float.ofInt center), i) := by
  refine List.ext_getElem? fun i => ?_
  simp only [List.getElem?_zipIdx, offsets, List.getElem?_map]
  rcases lt_or_ge i n with hi | hi
  · simp [List.getElem?_range hi]
  · simp [hi]

theorem ring_eq_ringBy (c : Circle) (r : Raster) (side : ℕ) : c.ring r side = c.ringBy measure r side := by
  unfold ring ringBy
  simp only [zipIdx_offsets, List.flatMap_map, List.filterMap_map]
  rfl

/-! ## Distances -/

/-- The walk stays nearer to the circle than half a cell. -/
theorem Stage.Follows.abs_sqrt_sub_lt {radius : ℕ} {s : Stage} (hs : s.Follows radius) (hpos : 0 < radius)
    (hradius : radius ≤ 2 ^ 20) : |√((s.x : ℝ) ^ 2 + (s.y : ℝ) ^ 2) - radius| ≤ 1 / 2 - 1 / 2 ^ 24 := by
  have houter : (s.x : ℝ) ^ 2 + (s.y : ℝ) ^ 2 ≤ (radius : ℝ) ^ 2 + radius := by exact_mod_cast hs.outer
  have hinner : (radius : ℝ) ^ 2 + 1 ≤ (s.x : ℝ) ^ 2 + (s.y : ℝ) ^ 2 + radius := by
    have hint : (radius : ℤ) ^ 2 + 1 ≤ (s.x : ℤ) ^ 2 + (s.y : ℤ) ^ 2 + radius := hs.inner.resolve_left hpos.ne'
    exact_mod_cast hint
  have hone : (1 : ℝ) ≤ radius := by exact_mod_cast hpos
  have hmax : (radius : ℝ) ≤ 2 ^ 20 := by exact_mod_cast hradius
  have hupper : √((s.x : ℝ) ^ 2 + (s.y : ℝ) ^ 2) ≤ radius + (1 / 2 - 1 / 2 ^ 24) := by
    rw [Real.sqrt_le_left (by norm_num; linarith)]
    nlinarith
  have hlower : radius - (1 / 2 - 1 / 2 ^ 24) ≤ √((s.x : ℝ) ^ 2 + (s.y : ℝ) ^ 2) := by
    refine Real.le_sqrt_of_sq_le ?_
    nlinarith
  rw [abs_le]
  constructor <;> linarith

theorem abs_distance_sub_le_of_mem_outline {c : Circle} {x y : ℤ}
    (h : (⟨c.center.col + x, c.center.row + y⟩ : Cell) ∈ c.outline) (hpos : 0 < c.radius)
    (hradius : c.radius ≤ 2 ^ 20) : |√((x : ℝ) ^ 2 + (y : ℝ) ^ 2) - c.radius| ≤ 1 / 2 - 1 / 2 ^ 24 := by
  have hoctant {a b : ℕ} (h : (a, b) ∈ octant c.radius) :
      |√((a : ℝ) ^ 2 + (b : ℝ) ^ 2) - c.radius| ≤ 1 / 2 - 1 / 2 ^ 24 := by
    rw [octant_eq_map] at h
    obtain ⟨s, hs, hpoint⟩ := List.mem_map.1 h
    cases hpoint
    exact (follows_of_mem_stages hs).abs_sqrt_sub_lt hpos hradius
  have hsq (k : ℤ) : (k : ℝ) ^ 2 = (k.natAbs : ℝ) ^ 2 := by
    rw [Nat.cast_natAbs, Int.cast_abs, sq_abs]
  rw [mem_outline, mem_quarter] at h
  rw [hsq x, hsq y]
  rcases h with h | h
  · exact hoctant h
  · rw [add_comm]
    exact hoctant h

/-- A cell that the walk comes to passes the test, however lengths are measured. -/
theorem mem_ringBy_of_mem_outline {hypot : Float → Float → Float} (haccurate : IsAccurate hypot) {c : Circle}
    {r : Raster} (hradius : 2 * (r.width + r.height) < c.radius) (hradius' : c.radius ≤ 2 ^ 20)
    (hcenter : |c.center.col| ≤ 2 ^ 24 ∧ |c.center.row| ≤ 2 ^ 24) {col row : ℕ} (hcol : col < r.width)
    (hrow : row < r.height) (h : (⟨col, row⟩ : Cell) ∈ c.outline) : (⟨col, row⟩ : Cell) ∈ c.ringBy hypot r 1 := by
  obtain ⟨hcenterCol, hcenterRow⟩ := hcenter
  rw [abs_le] at hcenterCol hcenterRow
  have hdistance : |√(((col - c.center.col : ℤ) : ℝ) ^ 2 + ((row - c.center.row : ℤ) : ℝ) ^ 2) - c.radius| ≤
      1 / 2 - 1 / 2 ^ 24 := by
    refine abs_distance_sub_le_of_mem_outline ?_ (by omega) hradius'
    rwa [add_sub_cancel, add_sub_cancel]
  have hdifference {n : ℕ} {k : ℤ} (hn : n ≤ 2 ^ 20) (hk : -2 ^ 24 ≤ k ∧ k ≤ 2 ^ 24) :
      HasValue (Float.ofNat n - Float.ofInt k) (n - k : ℤ) :=
    (hasValue_natCast (by omega)).sub_int (hasValue_ofInt (by rw [abs_lt]; omega)) (by rw [abs_le]; omega)
  have hx := hdifference (n := col) (by omega) hcenterCol
  have hy := hdifference (n := row) (by omega) hcenterRow
  obtain ⟨d, hd, hulp⟩ := haccurate hx hy (by rw [abs_le]; omega) (by rw [abs_le]; omega)
  rw [Nat.cast_ofNat] at hulp
  generalize √(((col - c.center.col : ℤ) : ℝ) ^ 2 + ((row - c.center.row : ℤ) : ℝ) ^ 2) = distance at hdistance hulp
  have hnear : |d - c.radius| ≤ 1 / 2 := by
    have hone : (1 : ℝ) ≤ c.radius := by exact_mod_cast (by omega : 1 ≤ c.radius)
    have hmax : (c.radius : ℝ) ≤ 2 ^ 20 := by exact_mod_cast hradius'
    obtain ⟨hlower, hupper⟩ := abs_le.1 hdistance
    have hpos : 0 < distance := by linarith
    have hlt : distance < 2 ^ (21 : ℤ) := by
      calc
        distance ≤ 2 ^ 20 + 1 / 2 := by linarith
        _ < 2 ^ (21 : ℤ) := by norm_num
    have hlast : lastExponent distance ≤ 21 - 53 := lastExponent_le hpos hlt (by norm_num)
    have hulp' : |d - distance| ≤ 1 / 2 ^ 24 :=
      hulp.trans ((zpow_le_zpow_right₀ one_le_two hlast).trans (by norm_num))
    calc
      |d - c.radius| ≤ |d - distance| + |distance - c.radius| := abs_sub_le _ _ _
      _ ≤ 1 / 2 ^ 24 + (1 / 2 - 1 / 2 ^ 24) := add_le_add hulp' hdistance
      _ = 1 / 2 := by ring
  have hhalf : HasValue (Float.ofNat 1 / 2) (1 / 2) := ⟨1 / 2, by decide +kernel, by norm_num⟩
  have hbinary : IsBinary (1 / 2) := ⟨1, -1, by norm_num, by norm_num, by norm_num⟩
  have hroom : |d - c.radius| ≤ 2 ^ 1023 := hnear.trans ((by norm_num : (1 / 2 : ℝ) ≤ 1).trans (one_le_pow₀ one_le_two))
  refine mem_ringBy hcol hrow ?_
  rw [(hd.sub (hasValue_ofNat (by omega)) hroom).abs.le_iff hhalf]
  exact abs_nearest_le hbinary hnear

/-- The ring is drawn if the walk would come to the raster. -/
theorem stroke_of_mem_outline {c : Circle} {r : Raster} (hradius : 2 * (r.width + r.height) < c.radius)
    (hradius' : c.radius ≤ 2 ^ 20) (hcenter : |c.center.col| ≤ 2 ^ 24 ∧ |c.center.row| ≤ 2 ^ 24) {col row : ℕ}
    (hcol : col < r.width) (hrow : row < r.height) (h : (⟨col, row⟩ : Cell) ∈ c.outline) :
    c.stroke r 1 = (c.ring r 1).map Box.single := by
  have hreal {k : ℤ} (hk : |k| ≤ 2 ^ 24) : |(k : ℝ)| ≤ 2 ^ 1000 := by
    have hcast : |(k : ℝ)| ≤ 2 ^ 24 := by exact_mod_cast hk
    exact hcast.trans (pow_le_pow_right₀ one_le_two (by norm_num))
  have htouches := touches_of_mem_pen le_rfl h hcol hrow (Box.mem_pen_self le_rfl _)
  have hafar : c.touchesAfar r 1 = c.touches r (c.radius + 1) :=
    touchesAfar_eq_touches (hreal hcenter.1) (hreal hcenter.2) (by omega) (by omega) (by omega)
  rw [stroke, if_pos hradius, if_pos (hafar.trans htouches)]

end Circle

namespace Canvas

/-- On a canvas with a pen of one cell, around a whole center and with a whole radius of up to `2^20`, too great to be
walked: every pixel that the pen would ink on the walk is in the ring, however lengths are measured, and is inked when
the circle is drawn. With the bound that the center has in the drawing, its row is less than `2^23`. -/
theorem pixel?_circle_of_mem_outline (c : Canvas) (hside : c.side = 1) {center : Point} {radius : Float} {x y : ℤ}
    {n : ℕ} (hx : HasValue center.x x) (hy : HasValue center.y y) (hn : HasValue radius n)
    (hlarge : 2 * (c.width + c.height) < n) (hradius : n ≤ 2 ^ 20) (hcenter : |x| ≤ 2 ^ 22 ∧ |y| ≤ 2 ^ 22) :
    let circle : Circle := ⟨⟨x, c.height - 1 - y⟩, n⟩
    ∀ col row : ℕ, col < c.width → row < c.height → (∃ d ∈ circle.outline, (⟨col, row⟩ : Cell) ∈ Box.pen c.side d) →
      (∀ hypot, IsAccurate hypot → (⟨col, row⟩ : Cell) ∈ circle.ringBy hypot c.toRaster c.side) ∧
      (⟨col, row⟩ : Cell) ∈ circle.ring c.toRaster c.side ∧
      (Surface.apply c (.shape (.circle center radius))).pixel? col row = some c.ink := by
  rintro circle col row hcol hrow ⟨d, hd, hpen⟩
  rw [hside, Box.mem_pen_one] at hpen
  subst hpen
  have hcenter' : |circle.center.col| ≤ 2 ^ 24 ∧ |circle.center.row| ≤ 2 ^ 24 := by
    dsimp only [circle]
    simp only [abs_le] at hcenter ⊢
    omega
  have hring (hypot : Float → Float → Float) (haccurate : IsAccurate hypot) :
      (⟨col, row⟩ : Cell) ∈ circle.ringBy hypot c.toRaster 1 :=
    Circle.mem_ringBy_of_mem_outline haccurate hlarge hradius hcenter' hcol hrow hd
  have hdrawn : (⟨col, row⟩ : Cell) ∈ circle.ring c.toRaster 1 := by
    rw [Circle.ring_eq_ringBy]
    exact hring measure isAccurate_measure
  have hcircle : Circle.ofShape? c.toRaster center radius = some circle := by
    have hcell : c.cell? center = some circle.center := by
      rw [Raster.cell?_eq_some_iff, hx.nearestInt?_int (hcenter.1.trans (by norm_num)),
        hy.nearestInt?_int (hcenter.2.trans (by norm_num)), sub_sub_cancel]
      exact ⟨rfl, rfl⟩
    have hnearest : nearestInt? radius = some (n : ℤ) := HasValue.nearestInt?_int hn (by rw [Nat.abs_cast]; omega)
    rw [Circle.ofShape?, hcell, hnearest]
    rfl
  have hinks : (Shape.circle center radius).Inks c.toRaster c.penSize col row := by
    refine ⟨hcol, hrow, Box.single ⟨col, row⟩, ?_, by simp [Box.single, Membership.mem]⟩
    have hpen : c.penSide c.penSize = 1 := hside
    rw [Shape.footprint, hcircle, hpen, Option.map_some, Option.getD_some,
      Circle.stroke_of_mem_outline hlarge hradius hcenter' hcol hrow hd]
    exact List.mem_map_of_mem hdrawn
  rw [hside]
  exact ⟨hring, hdrawn, by rw [pixel?_apply_shape, if_pos hinks]⟩

/-- A pixel on the diagonal of a circle around a center above a small canvas and to the left of it. -/
theorem pixel?_circle_of_mem_outline_diagonal :
    let c := blank 3 2
    let circle : Circle := ⟨⟨-8, -7⟩, 11⟩
    (c.side = 1 ∧ IsAccurate measure ∧ ∃ d ∈ circle.outline, (⟨0, 1⟩ : Cell) ∈ Box.pen c.side d) ∧
    (⟨0, 1⟩ : Cell) ∈ circle.ringBy measure c.toRaster c.side ∧
    (⟨0, 1⟩ : Cell) ∈ circle.ring c.toRaster c.side ∧
    (Surface.apply c (.shape (.circle ⟨-8, 8⟩ 11))).pixel? 0 1 = some 0 := by
  intro c circle
  have hside : c.side = 1 := by decide +kernel
  have hwalk : ∃ d ∈ circle.outline, (⟨0, 1⟩ : Cell) ∈ Box.pen c.side d := ⟨⟨0, 1⟩, by decide +kernel, by decide +kernel⟩
  have hn : HasValue 11 (11 : ℕ) := ⟨11, by decide +kernel, by norm_num⟩
  let center : Point := ⟨-8, 8⟩
  have hx : HasValue center.x (-8 : ℤ) := ⟨-8, by decide +kernel, by norm_num⟩
  have hy : HasValue center.y (8 : ℤ) := ⟨8, by decide +kernel, by norm_num⟩
  obtain ⟨hring, hdrawn⟩ := pixel?_circle_of_mem_outline c hside hx hy hn (by decide) (by norm_num) (by norm_num)
    0 1 (by decide) (by decide) hwalk
  exact ⟨⟨hside, isAccurate_measure, hwalk⟩, hring measure isAccurate_measure, hdrawn⟩

end Canvas

end Easel
