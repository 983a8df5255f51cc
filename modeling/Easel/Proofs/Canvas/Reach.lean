import Easel.Proofs.Canvas.Disk
import Easel.Proofs.Canvas.Outline
import Easel.Proofs.Canvas.Pen
import Easel.Proofs.Canvas.Words
import Easel.Proofs.Number.Limit

/-!
# Outlines that reach the raster

An outline is walked only if the square around it and the pen meets the raster (`Circle.touches`). No pen on an outline
reaches out of that square (`touches_of_mem_pen`), so a circle that is not walked has nothing to show. Centers that are
moved in to the limit of coordinates are among those, wherever they were (`Raster.cell?_cases`).

The test in doubles has the same answer (`touchesAfar_eq_touches`), and where it is yes the center is close enough for
the walk and its squares to be calculated in words (`outline?_eq`).

`pixel?_apply_circle`: outlines on a canvas.
-/

namespace Easel

open Number

/-! ## Centers -/

/-- The cell of a point however far away it is. An infinite point has none, as one with a NaN. -/
def Raster.exactCell? (r : Raster) (p : Point) : Option Cell := do
  let x ← value? p.x
  let y ← value? p.y
  return ⟨roundAway x, r.height - 1 - roundAway y⟩

/-- Far beyond anything that a circle around the cell could reach. -/
def Cell.IsFar (c : Cell) : Prop := 2 ^ 80 ≤ |c.col| ∨ 2 ^ 80 ≤ |c.row|

section
variable {r : Raster} {p : Point} {c : Cell}

theorem Raster.exists_of_cell?_eq_some (h : r.cell? p = some c) :
    ∃ x y, nearestInt? p.x = some x ∧ nearestInt? p.y = some y ∧ c = ⟨x, r.height - 1 - y⟩ := by
  simp only [cell?, Option.bind_eq_bind, Option.bind_eq_some_iff, Option.pure_def, Option.some.injEq] at h
  obtain ⟨x, hx, y, hy, rfl⟩ := h
  exact ⟨x, y, hx, hy, rfl⟩

theorem Raster.exists_of_exactCell?_eq_some (h : r.exactCell? p = some c) :
    ∃ x y, value? p.x = some x ∧ value? p.y = some y ∧ c = ⟨roundAway x, r.height - 1 - roundAway y⟩ := by
  simp only [exactCell?, Option.bind_eq_bind, Option.bind_eq_some_iff, Option.pure_def, Option.some.injEq] at h
  obtain ⟨x, hx, y, hy, rfl⟩ := h
  exact ⟨x, y, hx, hy, rfl⟩

/-- Coordinates are far from the greatest double. -/
theorem Raster.abs_cell?_le (hheight : r.height ≤ 2 ^ 50) (h : r.cell? p = some c) :
    |(c.col : ℝ)| ≤ 2 ^ 1000 ∧ |(c.row : ℝ)| ≤ 2 ^ 1000 := by
  obtain ⟨x, y, hx, hy, rfl⟩ := exists_of_cell?_eq_some h
  have hcol := (abs_nearestInt?_le hx).trans limit_bounds.2
  have hrow := (abs_nearestInt?_le hy).trans limit_bounds.2
  have hdouble : (2 : ℤ) ^ 1000 = 2 ^ 999 * 2 := pow_succ 2 999
  have hroom : (2 : ℤ) ^ 50 ≤ 2 ^ 999 := pow_le_pow_right₀ one_le_two (by norm_num)
  have hrow' : |(r.height - 1 - y : ℤ)| ≤ 2 ^ 1000 := by
    rw [hdouble]
    generalize (2 : ℤ) ^ 999 = bound at hrow hroom
    rw [abs_le] at hrow ⊢
    omega
  have hcol' : |x| ≤ 2 ^ 1000 := hcol.trans (by rw [hdouble]; omega)
  have hreal {k : ℤ} (hk : |k| ≤ 2 ^ 1000) : |(k : ℝ)| ≤ 2 ^ 1000 := by
    have hcast : ((|k| : ℤ) : ℝ) ≤ ((2 ^ 1000 : ℤ) : ℝ) := Int.cast_le.2 hk
    rwa [Int.cast_abs, Int.cast_pow, Int.cast_ofNat] at hcast
  exact ⟨hreal hcol', hreal hrow'⟩

end

/-- The place of a point is its cell, in doubles. -/
theorem Raster.place?_eq (r : Raster) (hheight : r.height ≤ 2 ^ 50) (p : Point) :
    r.place? p = (r.cell? p).map Cell.toPoint := by
  unfold place? cell?
  cases nearestInt? p.x with
  | none => rfl
  | some x =>
    cases hy : nearestInt? p.y with
    | none => rfl
    | some y => exact congrArg (fun row => some (⟨Float.ofInt x, row⟩ : Point)) (last_sub_ofInt hheight hy)

/-- The cell of a point is the exact one, or both are far away. -/
theorem Raster.cell?_cases (r : Raster) (hheight : r.height < 2 ^ 64) (p : Point) :
    r.cell? p = r.exactCell? p ∨ (∀ c, r.cell? p = some c → c.IsFar) ∧ ∀ c, r.exactCell? p = some c → c.IsFar := by
  have hlimit := limit_bounds.1
  have hrow {n : ℤ} (hn : limit ≤ |n|) : 2 ^ 80 ≤ |(r.height - 1 - n : ℤ)| := by
    rw [le_abs] at hn ⊢
    omega
  rcases nearestInt?_cases p.x with hx | ⟨⟨k, hk, hklimit⟩, hx⟩
  · rcases nearestInt?_cases p.y with hy | ⟨⟨k, hk, hklimit⟩, hy⟩
    · left
      simp only [cell?, exactCell?, hx, hy]
      cases value? p.x <;> cases value? p.y <;> rfl
    · refine .inr ⟨fun c hc => .inr ?_, fun c hc => .inr ?_⟩
      · obtain ⟨x, y, -, hy', rfl⟩ := exists_of_cell?_eq_some hc
        obtain rfl : k = y := Option.some.inj (hk.symm.trans hy')
        exact hrow hklimit.ge
      · obtain ⟨x, y, -, hy', rfl⟩ := exists_of_exactCell?_eq_some hc
        exact hrow (hy y hy')
  · refine .inr ⟨fun c hc => .inl ?_, fun c hc => .inl ?_⟩
    · obtain ⟨x, y, hx', -, rfl⟩ := exists_of_cell?_eq_some hc
      obtain rfl : k = x := Option.some.inj (hk.symm.trans hx')
      exact le_trans (by omega) hklimit.ge
    · obtain ⟨x, y, hx', -, rfl⟩ := exists_of_exactCell?_eq_some hc
      exact le_trans (by omega) (hx x hx')

namespace Circle

/-! ## Squares around an outline -/

theorem touches_iff {c : Circle} {r : Raster} {reach : ℕ} :
    c.touches r reach = true ↔
      (0 ≤ c.center.col + reach ∧ c.center.col - reach ≤ r.width - 1) ∧
        0 ≤ c.center.row + reach ∧ c.center.row - reach ≤ r.height - 1 := by
  simp only [touches, Bool.and_eq_true, decide_eq_true_eq, and_assoc]

/-- A pen on the outline meets the raster only if the square around both does. -/
theorem touches_of_mem_pen {c : Circle} {r : Raster} {side : ℕ} (hside : 1 ≤ side) {d : Cell} (hd : d ∈ c.outline)
    {col row : ℕ} (hcol : col < r.width) (hrow : row < r.height) (hpen : (⟨col, row⟩ : Cell) ∈ Box.pen side d) :
    c.touches r (c.radius + side) = true := by
  obtain ⟨hcols, hrows⟩ := abs_sub_center_le hd
  rw [Box.mem_pen_iff hside] at hpen
  dsimp only at hpen
  rw [abs_le] at hcols hrows
  rw [touches_iff]
  omega

/-- The squares that the pen inks are those on the outline, if any of these meets the raster. -/
theorem exists_mem_stroke_iff {c : Circle} {r : Raster} {side : ℕ} (hside : 1 ≤ side)
    (hradius : c.radius ≤ 2 * (r.width + r.height)) {col row : ℕ} (hcol : col < r.width) (hrow : row < r.height) :
    (∃ b ∈ c.stroke r side, (⟨col, row⟩ : Cell) ∈ b) ↔ ∃ d ∈ c.outline, (⟨col, row⟩ : Cell) ∈ Box.pen side d := by
  rw [stroke, if_neg (not_lt.2 hradius)]
  split
  · simp only [List.mem_map, exists_exists_and_eq_and]
  · next hmisses =>
    simp only [List.not_mem_nil, false_and, exists_false, false_iff]
    rintro ⟨d, hd, hpen⟩
    exact hmisses (touches_of_mem_pen hside hd hcol hrow hpen)

/-- A circle around a far cell does not reach the raster. -/
theorem not_touches_of_isFar {c : Circle} {r : Raster} {reach : ℕ} (hfar : c.center.IsFar) (hwidth : r.width < 2 ^ 64)
    (hheight : r.height < 2 ^ 64) (hreach : reach < 2 ^ 70) : ¬ c.touches r reach = true := by
  rw [touches_iff]
  rcases hfar with hfar | hfar
  · rw [le_abs] at hfar
    omega
  · rw [le_abs] at hfar
    omega

/-! ## The test in doubles -/

/-- Rounding does not take a number out of the reach of sums with small ones. -/
theorem abs_nearest_add_le {x y : ℝ} (hx : |x| ≤ 2 ^ 1000) (hy : |y| ≤ 2 ^ 53) : |nearest x + y| ≤ 2 ^ 1023 := by
  have hnearest := abs_nearest_le (isBinary_two_pow 1000) hx
  rw [add_comm, ← sub_neg_eq_add]
  exact abs_sub_le_of_small hy ((abs_neg _).trans_le hnearest)

/-- One axis of the test: rounded, the center is on the same side of whole numbers that have doubles. -/
theorem reaches_iff {x reach last : Float} {n m k : ℤ} (hn : |(n : ℝ)| ≤ 2 ^ 1000) (hx : HasValue x (nearest n))
    (hm : 0 ≤ m) (hreach : HasValue reach m) (hk : m + |k| < 2 ^ 53) (hlast : HasValue last k) :
    (0 ≤ x + reach ↔ 0 ≤ n + m) ∧ (x - reach ≤ last ↔ n - m ≤ k) := by
  have habs := abs_nonneg k
  have hbounds := abs_le.1 (le_refl |k|)
  have hm' : |(m : ℝ)| ≤ 2 ^ 53 := by
    rw [← Int.cast_abs, abs_of_nonneg hm]
    exact_mod_cast (by omega : m ≤ 2 ^ 53)
  have hsum := hx.add hreach (abs_nearest_add_le hn hm')
  have hdifference := hx.sub hreach (by
    rw [← neg_add_eq_sub, add_comm]
    exact abs_nearest_add_le hn ((abs_neg _).trans_le hm'))
  obtain ⟨z, hz⟩ := exists_nearest_eq_intCast n
  have hlower := le_nearest_intCast_iff (k := -m) (n := n) (by rw [abs_lt]; omega)
  have hupper := nearest_intCast_le_iff (k := k + m) (n := n) (by rw [abs_lt]; omega)
  rw [hz, Int.cast_le] at hlower hupper
  rw [hz, ← Int.cast_add] at hsum
  rw [hz, ← Int.cast_sub] at hdifference
  constructor
  · rw [hasValue_zero.le_iff hsum, le_nearest_intCast_iff (by norm_num)]
    omega
  · rw [hdifference.le_iff hlast, nearest_intCast_le_iff (by omega)]
    omega

theorem touchesAfar_eq_touches {c : Circle} {r : Raster} {side : ℕ} (hcol : |(c.center.col : ℝ)| ≤ 2 ^ 1000)
    (hrow : |(c.center.row : ℝ)| ≤ 2 ^ 1000) (hwidth : r.width ≤ 2 ^ 50) (hheight : r.height ≤ 2 ^ 50)
    (hreach : c.radius + side ≤ 2 ^ 52 + 2 ^ 51) : c.touchesAfar r side = c.touches r (c.radius + side) := by
  have hn {n : ℤ} (hn : |(n : ℝ)| ≤ 2 ^ 1000) : HasValue (Float.ofInt n) (nearest n) :=
    hasValue_ofInt_nearest (hn.trans (pow_le_pow_right₀ one_le_two (by norm_num)))
  -- The reach has a double of its own; only the center may have none.
  have hsum : HasValue (Float.ofNat c.radius + Float.ofNat side) (c.radius + side : ℤ) :=
    (hasValue_natCast (by omega)).add_int (hasValue_natCast (by omega)) (by rw [abs_le]; omega)
  have hlast {n : ℕ} (hn : n ≤ 2 ^ 50) : HasValue (Float.ofNat n - 1) (n - 1 : ℤ) :=
    hasValue_last (hn.trans (by norm_num))
  have hroom {n : ℕ} (hn : n ≤ 2 ^ 50) : (c.radius + side + |(n - 1 : ℤ)| : ℤ) < 2 ^ 53 := by
    have : |(n - 1 : ℤ)| ≤ 2 ^ 50 := by
      rw [abs_le]
      omega
    omega
  have hcols := reaches_iff hcol (hn hcol) (by omega) hsum (hroom hwidth) (hlast hwidth)
  have hrows := reaches_iff hrow (hn hrow) (by omega) hsum (hroom hheight) (hlast hheight)
  rw [Bool.eq_iff_iff, touches_iff, touchesAfar]
  simp only [Cell.toPoint, Bool.and_eq_true, decide_eq_true_eq, hcols.1, hcols.2, hrows.1, hrows.2, and_assoc,
    Nat.cast_add]

/-! ## Circles of shapes -/

theorem ofShape?_eq (r : Raster) (center : Point) {radius : Float} {n : ℚ} (hn : value? radius = some n)
    (hlimit : roundAway |n| ≤ limit) :
    ofShape? r center radius = (r.cell? center).map fun cell => ⟨cell, (roundAway |n|).toNat⟩ := by
  rw [roundAway_abs] at hlimit ⊢
  have htoNat : |roundAway n|.toNat = (roundAway n).natAbs := by
    rw [Int.abs_eq_natAbs, Int.toNat_natCast]
  rw [ofShape?, nearestInt?_eq hn hlimit, htoNat]
  cases r.cell? center <;> rfl

/-- It does not matter to the raster whether a circle is around the cell of a point or around the exact one. -/
theorem exists_cell?_iff {r : Raster} {side radius : ℕ} {center : Point} (hwidth : r.width < 2 ^ 64)
    (hheight : r.height < 2 ^ 64) (hside : 1 ≤ side) (hreach : radius + side < 2 ^ 70) {col row : ℕ}
    (hcol : col < r.width) (hrow : row < r.height) :
    (∃ cell, r.cell? center = some cell ∧ ∃ d ∈ outline ⟨cell, radius⟩, (⟨col, row⟩ : Cell) ∈ Box.pen side d) ↔
      ∃ cell, r.exactCell? center = some cell ∧
        ∃ d ∈ outline ⟨cell, radius⟩, (⟨col, row⟩ : Cell) ∈ Box.pen side d := by
  have hmisses {cell d : Cell} (hfar : cell.IsFar) (hd : d ∈ outline ⟨cell, radius⟩) :
      (⟨col, row⟩ : Cell) ∉ Box.pen side d := fun hpen =>
    not_touches_of_isFar hfar hwidth hheight hreach (touches_of_mem_pen hside hd hcol hrow hpen)
  rcases r.cell?_cases hheight center with heq | ⟨hfar, hfar'⟩
  · rw [heq]
  · constructor
    · rintro ⟨cell, hcell, d, hd, hpen⟩
      exact absurd hpen (hmisses (hfar cell hcell) hd)
    · rintro ⟨cell, hcell, d, hd, hpen⟩
      exact absurd hpen (hmisses (hfar' cell hcell) hd)

/-- A circle that reaches the raster is around the exact cell. -/
theorem exactCell?_eq_of_touches {r : Raster} {center : Point} {cell : Cell} {radius reach : ℕ}
    (hcell : r.cell? center = some cell) (h : touches ⟨cell, radius⟩ r reach = true) (hwidth : r.width < 2 ^ 64)
    (hheight : r.height < 2 ^ 64) (hreach : reach < 2 ^ 70) : r.exactCell? center = some cell := by
  rcases r.cell?_cases hheight center with heq | ⟨hfar, -⟩
  · rw [← heq, hcell]
  · exact absurd h (not_touches_of_isFar (hfar cell hcell) hwidth hheight hreach)

/-- A circle that reaches the raster has a center, an outline and squares in words. -/
theorem outline?_bind_eq_of_touches {c : Circle} {r : Raster} {side : ℕ} (h : c.touches r (c.radius + side) = true)
    (hwidth : r.width ≤ 2 ^ 50) (hheight : r.height ≤ 2 ^ 50) (hradius : c.radius ≤ 2 ^ 52) (hside : side ≤ 2 ^ 50) :
    c.outline?.bind (List.mapM (Box.pen? side)) = some (c.outline.map (Box.pen side)) := by
  rw [touches_iff] at h
  have hcol : |c.center.col| ≤ 2 ^ 57 := by
    rw [abs_le]
    omega
  have hrow : |c.center.row| ≤ 2 ^ 57 := by
    rw [abs_le]
    omega
  have hradius' : c.radius ≤ 2 ^ 57 := hradius.trans (by norm_num)
  rw [outline?_eq hcol hrow hradius', Option.bind_some]
  exact Box.mapM_pen?_eq (by omega) fun d hd => isSmall_of_mem_outline hcol hrow hradius' hd

end Circle

namespace Shape

/-- A circle inks what the pen covers anywhere on the outline around the exact center. -/
theorem inks_circle_iff {r : Raster} {size : Float} {center : Point} {radius : Float} {n : ℚ}
    (hwidth : r.width < 2 ^ 64) (hheight : r.height < 2 ^ 64) (hn : value? radius = some n)
    (hradius : roundAway |n| ≤ 2 * (r.width + r.height)) {col row : ℕ} :
    (Shape.circle center radius).Inks r size col row ↔
      col < r.width ∧ row < r.height ∧ ∃ cell, r.exactCell? center = some cell ∧
        ∃ d ∈ Circle.outline ⟨cell, (roundAway |n|).toNat⟩, (⟨col, row⟩ : Cell) ∈ Box.pen (r.penSide size) d := by
  obtain ⟨hpos, hside⟩ := Segment.penSide_bounds r size
  have hlimit := limit_bounds.1
  refine and_congr_right fun hcol => and_congr_right fun hrow => ?_
  rw [← Circle.exists_cell?_iff hwidth hheight hpos (by omega) hcol hrow, footprint,
    Circle.ofShape?_eq r center hn (by omega)]
  cases r.cell? center with
  | none => simp
  | some cell =>
    simp only [Option.map_some, Option.getD_some, Option.some.injEq, exists_eq_left']
    exact Circle.exists_mem_stroke_iff hpos (by dsimp only; omega) hcol hrow

end Shape

namespace Canvas

/-- An outline with a radius up to twice the sum of the sides of a canvas is drawn as if it were walked cell by cell
around the exact center, wherever that is, and all the squares of the pen were inked. -/
theorem pixel?_apply_circle (c : Canvas) (center : Point) (radius : Float) {n : ℚ} (hwidth : c.width < 2 ^ 64)
    (hheight : c.height < 2 ^ 64) (hn : value? radius = some n) (hradius : roundAway |n| ≤ 2 * (c.width + c.height))
    {col row : ℕ} (hcol : col < c.width) (hrow : row < c.height) :
    let circled := Surface.apply c (.shape (.circle center radius))
    let covers : Prop := ∃ cell, c.exactCell? center = some cell ∧
      ∃ d ∈ Circle.outline ⟨cell, (roundAway |n|).toNat⟩, (⟨col, row⟩ : Cell) ∈ Box.pen c.side d
    (covers → circled.pixel? col row = some c.ink) ∧ (¬ covers → circled.pixel? col row = c.pixel? col row) := by
  intro circled covers
  have hinks : (Shape.circle center radius).Inks c.toRaster c.penSize col row ↔ _ :=
    Shape.inks_circle_iff hwidth hheight hn hradius
  refine ⟨fun h => ?_, fun h => ?_⟩
  · rw [pixel?_apply_shape, if_pos (hinks.2 ⟨hcol, hrow, h⟩)]
  · rw [pixel?_apply_shape, if_neg fun h' => h (hinks.1 h').2.2]

end Canvas

end Easel
