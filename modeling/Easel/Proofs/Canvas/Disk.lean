import Easel.Proofs.Canvas.Painting
import Easel.Proofs.Number.Integral

/-!
# Disks

A disk is filled by runs, one for each row of the raster within the radius. Half the length of a run is a rounded
square root, and its whole part is the whole part of the exact one (`halfChord?_eq`), so a run has the cells of its
row that are within the radius (`exists_mem_chord?_iff`), and the rows left out have none (`exists_mem_disk_iff`).

`pixel?_fillCircle`: with rounded coordinates a filled circle is the closed disk of cells.
-/

namespace Easel

open Number

/-- The cell of a point whose rounded coordinates are within the limit. -/
theorem Raster.cell?_eq (r : Raster) {p : Point} {x y : ℚ} (hx : value? p.x = some x) (hy : value? p.y = some y)
    (hxlimit : |roundAway x| ≤ limit) (hylimit : |roundAway y| ≤ limit) :
    r.cell? p = some ⟨roundAway x, r.height - 1 - roundAway y⟩ := by
  simp [Raster.cell?, nearestInt?_eq hx hxlimit, nearestInt?_eq hy hylimit]

namespace Circle

/-! ## Chords -/

/-- The half chord at a distance from the center is the whole root of what the distance leaves of the radius. -/
theorem halfChord?_eq {n d : ℕ} (hd : d ≤ n) (hn : n ≤ 2 ^ 25) {radius dy : Float} (hradius : HasValue radius (n : ℤ))
    (hdy : HasValue dy (d : ℤ)) :
    halfChord? radius dy = some (Float.ofNat (Nat.sqrt (n ^ 2 - d ^ 2))) := by
  have hbound : n ^ 2 - d ^ 2 ≤ 2 ^ 50 := by
    have := Nat.pow_le_pow_left hn 2
    omega
  have hsquare : HasValue ((radius - dy) * (radius + dy)) ((n ^ 2 - d ^ 2 : ℕ) : ℤ) := by
    have hproduct : ((n ^ 2 - d ^ 2 : ℕ) : ℤ) = (n - d) * (n + d) := by
      rw [Nat.cast_sub (Nat.pow_le_pow_left hd 2)]
      push_cast
      ring
    rw [hproduct]
    refine (hradius.sub_int hdy ?_).mul_int (hradius.add_int hdy ?_) ?_
    · rw [abs_le]
      omega
    · rw [abs_le]
      omega
    · rw [← hproduct, Nat.abs_cast]
      exact_mod_cast hbound.trans (by norm_num)
  have hnonneg : ¬ (radius - dy) * (radius + dy) < 0 := by
    rw [hsquare.lt_iff hasValue_zero]
    exact_mod_cast Nat.not_lt_zero _
  rw [Int.cast_natCast] at hsquare
  have hroot : HasValue ((radius - dy) * (radius + dy)).sqrt (nearest √(n ^ 2 - d ^ 2 : ℕ)) := by
    refine hsquare.sqrt (Nat.cast_nonneg _) ?_
    rw [Real.sqrt_le_left (by positivity)]
    calc
      ((n ^ 2 - d ^ 2 : ℕ) : ℝ) ≤ 2 ^ 50 := by exact_mod_cast hbound
      _ ≤ (2 ^ 1023) ^ 2 := by
        rw [← pow_mul]
        exact pow_le_pow_right₀ one_le_two (by norm_num)
  have hspan : wholePart ((radius - dy) * (radius + dy)).sqrt = Nat.sqrt (n ^ 2 - d ^ 2) := by
    obtain ⟨q, hq, hqroot⟩ := hroot
    have hfloor := floor_nearest_sqrt hbound
    rw [← hqroot, Rat.floor_cast] at hfloor
    rw [wholePart_eq_floor, hq, Option.elim_some, hfloor, Int.toNat_natCast]
  rw [halfChord?, if_neg hnonneg]
  dsimp only
  rw [hroot.isInf_eq_false, if_neg Bool.false_ne_true, hspan]

section
variable {c : Circle} (hcol : |c.center.col| + c.radius < 2 ^ 53) (hrow : |c.center.row| + c.radius < 2 ^ 53)
  (hradius : c.radius ≤ 2 ^ 25)
include hcol hrow hradius

/-- The run of a row that the circle reaches goes as far on both sides of the center as the whole root says. -/
theorem chord?_eq {row : ℕ} (hrow' : row < 2 ^ 53) (hreach : (row - c.center.row).natAbs ≤ c.radius) :
    ∃ span : ℕ, span = Nat.sqrt (c.radius ^ 2 - (row - c.center.row).natAbs ^ 2) ∧
      c.chord? row = some ⟨c.center.col - span, row, c.center.col + span, row⟩ := by
  refine ⟨_, rfl, ?_⟩
  rw [← lt_sub_iff_add_lt, abs_lt] at hcol hrow
  have hx : HasValue (Float.ofInt c.center.col) c.center.col := hasValue_ofInt (by rw [abs_lt]; omega)
  have hy : HasValue (Float.ofInt c.center.row) c.center.row := hasValue_ofInt (by rw [abs_lt]; omega)
  have hdy := ((hasValue_natCast (n := row) (by omega)).sub_int hy (by rw [abs_le]; omega)).abs_int
  rw [Int.abs_eq_natAbs] at hdy
  have hroot := halfChord?_eq hreach hradius (hasValue_natCast (by omega)) hdy
  have hspan_le : Nat.sqrt (c.radius ^ 2 - (row - c.center.row).natAbs ^ 2) ≤ c.radius := by
    calc
      Nat.sqrt (c.radius ^ 2 - (row - c.center.row).natAbs ^ 2) ≤ Nat.sqrt (c.radius ^ 2) :=
        Nat.sqrt_le_sqrt (Nat.sub_le _ _)
      _ = c.radius := Nat.sqrt_eq' _
  generalize Nat.sqrt (c.radius ^ 2 - (row - c.center.row).natAbs ^ 2) = span at hroot hspan_le
  have hspan := hasValue_natCast (n := span) (by omega)
  have hleft := (hx.sub_int hspan (by rw [abs_le]; omega)).nearestInt?_int (by rw [abs_le]; omega)
  have hright := (hx.add_int hspan (by rw [abs_le]; omega)).nearestInt?_int (by rw [abs_le]; omega)
  simp only [chord?, hroot, Option.bind_eq_bind, Option.bind_some, hleft, hright, Option.pure_def]

/-- The cells of a run are those of its row that are within the radius. -/
theorem exists_mem_chord?_iff {row : ℕ} (hrow' : row < 2 ^ 53) (hreach : (row - c.center.row).natAbs ≤ c.radius)
    (col : ℤ) :
    (∃ b, c.chord? row = some b ∧ (⟨col, row⟩ : Cell) ∈ b) ↔
      (col - c.center.col) ^ 2 + (row - c.center.row) ^ 2 ≤ (c.radius : ℤ) ^ 2 := by
  obtain ⟨span, hspan, hchord⟩ := chord?_eq hcol hrow hradius hrow' hreach
  have hmem (b : Box) : (⟨col, row⟩ : Cell) ∈ b ↔ b.left ≤ col ∧ col ≤ b.right ∧ b.top ≤ row ∧ row ≤ b.bottom := Iff.rfl
  have hsquare : (col - c.center.col).natAbs ≤ span ↔
      (col - c.center.col) ^ 2 + (row - c.center.row) ^ 2 ≤ (c.radius : ℤ) ^ 2 := by
    rw [hspan, Nat.le_sqrt', Nat.le_sub_iff_add_le (Nat.pow_le_pow_left hreach 2)]
    zify
    rw [sq_abs, sq_abs]
  rw [← hsquare, hchord]
  simp only [Option.some.injEq, exists_eq_left', hmem]
  omega

/-- The rows of the raster that the circle does not reach have no cells within the radius. -/
theorem exists_mem_disk_iff {r : Raster} (hheight : r.height < 2 ^ 53) {row : ℕ} (hrow' : row < r.height) (col : ℤ) :
    (∃ b ∈ c.disk r, (⟨col, row⟩ : Cell) ∈ b) ↔
      (col - c.center.col) ^ 2 + (row - c.center.row) ^ 2 ≤ (c.radius : ℤ) ^ 2 := by
  have habs := abs_lt.1 (lt_sub_iff_add_lt.2 hrow)
  have hy : HasValue (Float.ofInt c.center.row) c.center.row := hasValue_ofInt (by rw [abs_lt]; omega)
  have hn : HasValue (Float.ofNat c.radius) (c.radius : ℤ) := hasValue_natCast (by omega)
  have htop := (hy.sub_int hn (by rw [abs_le]; omega)).nearestInt_int
  have hbottom := (hy.add_int hn (by rw [abs_le]; omega)).nearestInt_int
  have hradius_nonneg : (0 : ℤ) ≤ c.radius := Int.natCast_nonneg _
  simp only [disk, htop, hbottom, List.mem_filterMap, List.mem_range]
  constructor
  · rintro ⟨b, ⟨i, hi, hb⟩, hmem⟩
    have hreach : (((max 0 (c.center.row - c.radius)).toNat + i : ℕ) - c.center.row).natAbs ≤ c.radius := by omega
    have hsame : row = (max 0 (c.center.row - c.radius)).toNat + i := by
      obtain ⟨span, -, hchord⟩ := chord?_eq hcol hrow hradius (by omega) hreach
      rw [hchord] at hb
      cases hb
      obtain ⟨-, -, htop_le, hle_bottom⟩ := hmem
      dsimp only at htop_le hle_bottom
      omega
    rw [← hsame] at hreach hb
    exact (exists_mem_chord?_iff hcol hrow hradius (by omega) hreach col).1 ⟨b, hb, hmem⟩
  · intro h
    have hreach : (row - c.center.row).natAbs ≤ c.radius := by
      have hle : |(row : ℤ) - c.center.row| ≤ c.radius := by
        refine abs_le_of_sq_le_sq ?_ hradius_nonneg
        have := sq_nonneg (col - c.center.col)
        linarith
      rw [abs_le] at hle
      omega
    obtain ⟨b, hb, hmem⟩ := (exists_mem_chord?_iff hcol hrow hradius (by omega) hreach col).2 h
    have hindex : (max 0 (c.center.row - c.radius)).toNat + (row - (max 0 (c.center.row - c.radius)).toNat) = row := by
      omega
    exact ⟨b, ⟨row - (max 0 (c.center.row - c.radius)).toNat, by omega, by rw [hindex]; exact hb⟩, hmem⟩

end

end Circle

namespace Canvas

/-- On a canvas of whatever width and of a height up to `2^24`, with a center and a radius that round to integers up to
`2^25`, a filled circle inks a pixel if its distance from the rounded center is no more than the rounded radius, and
leaves it as it is otherwise. -/
theorem pixel?_fillCircle (c : Canvas) (center : Point) (radius : Float) {x y n : ℚ} (hheight : c.height ≤ 2 ^ 24)
    (hx : value? center.x = some x) (hy : value? center.y = some y) (hn : value? radius = some n)
    (hxbound : |roundAway x| ≤ 2 ^ 25) (hybound : |roundAway y| ≤ 2 ^ 25) (hnbound : |roundAway n| ≤ 2 ^ 25)
    (col row : ℕ) :
    (Surface.apply c (.shape (.fillCircle center radius))).pixel? col row =
      if col < c.width ∧ row < c.height ∧
          (col - roundAway x) ^ 2 + (row - (c.height - 1 - roundAway y)) ^ 2 ≤ roundAway |n| ^ 2 then
        some c.ink
      else c.pixel? col row := by
  have hlimit {k : ℤ} (h : |k| ≤ 2 ^ 25) : |k| ≤ limit := (h.trans (by norm_num)).trans limit_ge
  have hcircle : Circle.ofShape? c.toRaster center radius =
      some ⟨⟨roundAway x, c.height - 1 - roundAway y⟩, (roundAway n).natAbs⟩ := by
    simp [Circle.ofShape?, c.toRaster.cell?_eq hx hy (hlimit hxbound) (hlimit hybound),
      nearestInt?_eq hn (hlimit hnbound)]
  rw [pixel?_apply_shape]
  refine if_congr ?_ rfl rfl
  rw [Shape.Inks, Shape.footprint, hcircle, Option.map_some, Option.getD_some, roundAway_abs, sq_abs]
  refine and_congr_right fun _ => and_congr_right fun hrow => ?_
  rw [abs_le] at hxbound hybound hnbound
  rw [Circle.exists_mem_disk_iff (by rw [← lt_sub_iff_add_lt, abs_lt]; dsimp only; omega)
    (by rw [← lt_sub_iff_add_lt, abs_lt]; dsimp only; omega) (by dsimp only; omega) (by omega) hrow]
  simp [sq_abs]

/-- A disk around a cell to the left of the raster; the center rounds away from zero, and the sign of the radius does
not count. -/
theorem pixel?_fillCircle_beside :
    value? (-0.5) = some (-1 / 2) ∧ value? 1.25 = some (5 / 4) ∧ value? (-1.5) = some (-3 / 2) ∧
      (Surface.apply (blank 4 3) (.shape (.fillCircle ⟨-0.5, 1.25⟩ (-1.5)))).pixel? 1 1 = some 0 ∧
      (Surface.apply (blank 4 3) (.shape (.fillCircle ⟨-0.5, 1.25⟩ (-1.5)))).pixel? 1 0 = some 255 := by
  have hx : value? (-0.5) = some (-1 / 2) := by decide +kernel
  have hy : value? 1.25 = some (5 / 4) := by decide +kernel
  have hn : value? (-1.5) = some (-3 / 2) := by decide +kernel
  have hpixel := pixel?_fillCircle (blank 4 3) ⟨-0.5, 1.25⟩ (-1.5) (by decide) hx hy hn (by decide +kernel)
    (by decide +kernel) (by decide +kernel)
  refine ⟨hx, hy, hn, (hpixel 1 1).trans (if_pos ?_), (hpixel 1 0).trans ((if_neg ?_).trans ?_)⟩
  · decide +kernel
  · decide +kernel
  · decide +kernel

end Canvas

end Easel
