import Easel.Proofs.Canvas.Clipping
import Easel.Proofs.Canvas.Disk
import Easel.Proofs.Canvas.Walk

/-!
# Dots

A line from a point to itself is one square of the pen (`Segment.stroke_self`). The square is laid around its cell with
a side that is no longer than the raster is, and a square of that side has to lie on the raster whole to cover it. So a
larger pen leaves out pixels that a square of its own side would cover, unless the limited square reaches as far to
all four sides (`Box.pen_agree_iff`).

`apply_pen_dot`: pens of any size on a canvas.
-/

namespace Easel

open Number

/-! ## Squares -/

/-- A square of the pen reaches to the right and to the bottom by half its side, and to the left and to the top by half
of the rest. -/
theorem Box.mem_pen_iff {side : ℕ} (hside : 1 ≤ side) {c d : Cell} :
    d ∈ Box.pen side c ↔
      (c.col - ((side - 1) / 2 : ℕ) ≤ d.col ∧ d.col ≤ c.col + (side / 2 : ℕ)) ∧
        c.row - ((side - 1) / 2 : ℕ) ≤ d.row ∧ d.row ≤ c.row + (side / 2 : ℕ) := by
  have hmem : d ∈ Box.pen side c ↔
      (Box.pen side c).left ≤ d.col ∧ d.col ≤ (Box.pen side c).right ∧
        (Box.pen side c).top ≤ d.row ∧ d.row ≤ (Box.pen side c).bottom := Iff.rfl
  rw [hmem]
  simp only [Box.pen]
  omega

/-- Along one axis, a shorter reach shows the same of `0` to `n - 1` as a longer one if it misses nothing there. -/
theorem reach_agree_iff {n z : ℤ} {low high low' high' : ℕ} (hz : 0 ≤ z) (hz' : z < n) (hlow : low ≤ low')
    (hhigh : high ≤ high') :
    (∀ i, 0 ≤ i → i < n → z - low' ≤ i → i ≤ z + high' → z - low ≤ i ∧ i ≤ z + high) ↔
      min z low' ≤ low ∧ min (n - 1 - z) high' ≤ high := by
  constructor
  · intro h
    have hleft := h (z - min z low') (by omega) (by omega) (by omega) (by omega)
    have hright := h (z + min (n - 1 - z) high') (by omega) (by omega) (by omega) (by omega)
    omega
  · intro h i h0 hn hlow hhigh
    omega

/-- The pixels that a smaller pen covers around a cell are all that a larger one does, if the smaller one reaches as far
as the larger one or the raster, to each side. -/
theorem Box.pen_agree_iff {r : Raster} {side side' : ℕ} {c : Cell} (hpos : 1 ≤ side) (hside : side ≤ side')
    (hcol : 0 ≤ c.col ∧ c.col < r.width) (hrow : 0 ≤ c.row ∧ c.row < r.height) :
    (∀ col row : ℕ, col < r.width → row < r.height →
        ((⟨col, row⟩ : Cell) ∈ Box.pen side c ↔ (⟨col, row⟩ : Cell) ∈ Box.pen side' c)) ↔
      (min c.col ((side' - 1) / 2 : ℕ) ≤ ((side - 1) / 2 : ℕ) ∧
        min (r.width - 1 - c.col) (side' / 2 : ℕ) ≤ (side / 2 : ℕ)) ∧
      min c.row ((side' - 1) / 2 : ℕ) ≤ ((side - 1) / 2 : ℕ) ∧
        min (r.height - 1 - c.row) (side' / 2 : ℕ) ≤ (side / 2 : ℕ) := by
  have hlow : (side - 1) / 2 ≤ (side' - 1) / 2 := by omega
  have hhigh : side / 2 ≤ side' / 2 := by omega
  rw [← reach_agree_iff hcol.1 hcol.2 hlow hhigh, ← reach_agree_iff hrow.1 hrow.2 hlow hhigh]
  simp only [Box.mem_pen_iff hpos, Box.mem_pen_iff (hpos.trans hside)]
  constructor
  · intro h
    refine ⟨fun i h0 hi hleft hright => ?_, fun i h0 hi htop hbottom => ?_⟩
    · have hsame := h i.toNat c.row.toNat (by omega) (by omega)
      omega
    · have hsame := h c.col.toNat i.toNat (by omega) (by omega)
      omega
  · rintro ⟨hcols, hrows⟩ col row hcol' hrow'
    have hcols := hcols col (by omega) (by omega)
    have hrows := hrows row (by omega) (by omega)
    omega

/-! ## Lines of one point -/

namespace Segment

/-- The raster itself is within any margin of it. -/
theorem mem_grown {r : Raster} {c : Cell} (hcol : 0 ≤ c.col ∧ c.col < r.width) (hrow : 0 ≤ c.row ∧ c.row < r.height)
    (margin : ℕ) : c ∈ r.grown margin :=
  ⟨by dsimp only [Raster.grown]; omega, by dsimp only [Raster.grown]; omega, by dsimp only [Raster.grown]; omega,
    by dsimp only [Raster.grown]; omega⟩

/-- Clipping leaves a segment between two cells of the raster. -/
theorem clip_of_mem {r : Raster} {margin : ℕ} {s : Segment} (hwidth : r.width < 2 ^ 53) (hheight : r.height < 2 ^ 53)
    (hmargin : margin < 2 ^ 53) (hcol : 0 ≤ s.start.col ∧ s.start.col < r.width)
    (hrow : 0 ≤ s.start.row ∧ s.start.row < r.height) (hcol' : 0 ≤ s.stop.col ∧ s.stop.col < r.width)
    (hrow' : 0 ≤ s.stop.row ∧ s.stop.row < r.height) : s.clip r margin = some s := by
  have hfits {n m : ℤ} {size : ℕ} (hsize : size < 2 ^ 53) (hn : 0 ≤ n ∧ n < size) (hm : 0 ≤ m ∧ m < size) :
      |n| < 2 ^ 53 ∧ |m| < 2 ^ 53 ∧ |m - n| ≤ 2 ^ 53 := by
    simp only [abs_lt, abs_le]
    omega
  exact clip_eq_self hwidth hheight hmargin (mem_grown hcol hrow margin) (mem_grown hcol' hrow' margin)
    (hfits hwidth hcol hcol') (hfits hheight hrow hrow')

theorem walk_self (c : Cell) : walk ⟨c, c⟩ = [c] := by
  simp [walk_eq_map, course, Course.turns, Course.after, Course.along_zero]

theorem stroke_self {r : Raster} {side : ℕ} {c : Cell} (hwidth : r.width < 2 ^ 53) (hheight : r.height < 2 ^ 53)
    (hside : side < 2 ^ 53) (hcol : 0 ≤ c.col ∧ c.col < r.width) (hrow : 0 ≤ c.row ∧ c.row < r.height) :
    stroke r side ⟨c, c⟩ = [Box.pen side c] := by
  simp only [stroke, clip_of_mem (s := ⟨c, c⟩) hwidth hheight hside hcol hrow hcol hrow, walk_self, List.map_cons,
    List.map_nil]

end Segment

namespace Canvas

/-- Where a pen of any size is put on one cell, the pixels of its square become the ink. -/
theorem pixel?_pen_dot (c : Canvas) (size : Float) {p : Point} {cell : Cell} (hwidth : c.width < 2 ^ 53)
    (hheight : c.height < 2 ^ 53) (hp : c.cell? p = some cell) (hcol : 0 ≤ cell.col ∧ cell.col < c.width)
    (hrow : 0 ≤ cell.row ∧ cell.row < c.height) (col row : ℕ) :
    (Surface.apply (Surface.apply c (.pen size)) (.shape (.line p p))).pixel? col row =
      if col < c.width ∧ row < c.height ∧ (⟨col, row⟩ : Cell) ∈ Box.pen (c.penSide size) cell then some c.ink
      else c.pixel? col row := by
  have hside := Segment.penSide_lt size hwidth hheight
  have hraster : (Surface.apply c (.pen size)).toRaster = c.toRaster := rfl
  have hsize : (Surface.apply c (.pen size)).penSize = size := rfl
  rw [pixel?_apply_shape, hraster, hsize]
  refine if_congr ?_ rfl rfl
  simp only [Shape.Inks, Shape.footprint, Shape.withCells, hp,
    Segment.stroke_self hwidth hheight hside hcol hrow, List.mem_singleton, exists_eq_left]

/-- A pen of any size that is put on one cell of a canvas inks its square there, with a side that is limited to the
longer side of the canvas. The pixels of that are those of the square with the side that was asked for if the limited
one reaches as far as that or as the canvas, to each side. -/
theorem apply_pen_dot (c : Canvas) (size : Float) (p : Point) {n x y : ℚ} (hwidth : c.width ≤ 2 ^ 50)
    (hheight : c.height ≤ 2 ^ 50) (hsize : value? size = some n) (hx : value? p.x = some x) (hy : value? p.y = some y)
    (hcol : 0 ≤ roundAway x ∧ roundAway x < c.width) (hrow : 0 ≤ roundAway y ∧ roundAway y < c.height) :
    let cell : Cell := ⟨roundAway x, c.height - 1 - roundAway y⟩
    let side := max 1 (roundAway n).toNat
    let limited := min side (max c.width c.height)
    let dotted := Surface.apply (Surface.apply c (.pen size)) (.shape (.line p p))
    (∀ col row : ℕ, dotted.pixel? col row =
      if col < c.width ∧ row < c.height ∧ (⟨col, row⟩ : Cell) ∈ Box.pen limited cell then some c.ink
      else c.pixel? col row) ∧
    ((∀ col row : ℕ, col < c.width → row < c.height →
        ((⟨col, row⟩ : Cell) ∈ Box.pen limited cell ↔ (⟨col, row⟩ : Cell) ∈ Box.pen side cell)) ↔
      (min cell.col ((side - 1) / 2 : ℕ) ≤ ((limited - 1) / 2 : ℕ) ∧
        min (c.width - 1 - cell.col) (side / 2 : ℕ) ≤ (limited / 2 : ℕ)) ∧
      min cell.row ((side - 1) / 2 : ℕ) ≤ ((limited - 1) / 2 : ℕ) ∧
        min (c.height - 1 - cell.row) (side / 2 : ℕ) ≤ (limited / 2 : ℕ)) := by
  intro cell side limited dotted
  have hlimit {k : ℤ} {m : ℕ} (hm : m ≤ 2 ^ 50) (hk : 0 ≤ k ∧ k < m) : |k| ≤ limit := by
    refine le_trans ?_ limit_ge
    rw [abs_le]
    omega
  have hp : c.cell? p = some cell := c.toRaster.cell?_eq hx hy (hlimit hwidth hcol) (hlimit hheight hrow)
  have hrow' : 0 ≤ cell.row ∧ cell.row < c.height := by
    dsimp only [cell]
    omega
  have hlimited : c.penSide size = limited := by
    rw [Raster.penSide, nearestInt_eq hsize]
    dsimp only [limited, side]
    omega
  rw [← hlimited]
  refine ⟨pixel?_pen_dot c size (by omega) (by omega) hp hcol hrow', ?_⟩
  exact Box.pen_agree_iff (Segment.penSide_bounds c.toRaster size).1 (hlimited.trans_le (min_le_left _ _)) hcol hrow'

/-- In the middle of a small canvas a large pen covers all of it, like the square that was asked for. -/
theorem apply_pen_dot_middle :
    (value? 5 = some 5 ∧ value? 1 = some 1) ∧
    (Surface.apply (Surface.apply (blank 3 3) (.pen 5)) (.shape (.line ⟨1, 1⟩ ⟨1, 1⟩))).pixel? 0 0 = some 0 ∧
    ∀ col row : ℕ, col < 3 → row < 3 →
      ((⟨col, row⟩ : Cell) ∈ Box.pen 3 ⟨1, 1⟩ ↔ (⟨col, row⟩ : Cell) ∈ Box.pen 5 ⟨1, 1⟩) := by
  have hsize : value? 5 = some 5 := by decide +kernel
  have hone : value? 1 = some 1 := by decide +kernel
  have hround : roundAway 5 = 5 := roundAway_intCast 5
  have hround' : roundAway 1 = 1 := roundAway_intCast 1
  obtain ⟨hpixel, hagree⟩ := apply_pen_dot (blank 3 3) 5 ⟨1, 1⟩ (by decide) (by decide) hsize hone hone
    (by decide +kernel) (by decide +kernel)
  rw [hround, hround'] at hpixel hagree
  refine ⟨⟨hsize, hone⟩, (hpixel 0 0).trans (if_pos ?_), hagree.2 ?_⟩
  · decide
  · decide

/-- In a corner of a small canvas a large pen covers a part of it only, and the square that was asked for all of it. -/
theorem pixel?_pen_dot_corner :
    (value? 5 = some 5 ∧ roundAway 5 = 5 ∧ value? 0 = some 0 ∧ roundAway 0 = 0) ∧
    ¬ ∀ col row : ℕ, col < 3 → row < 3 →
      ((Surface.apply (Surface.apply (blank 3 3) (.pen 5)) (.shape (.line ⟨0, 0⟩ ⟨0, 0⟩))).pixel? col row = some 0 ↔
        (⟨col, row⟩ : Cell) ∈ Box.pen 5 ⟨0, 2⟩) := by
  have hzero : value? 0 = some 0 := by decide +kernel
  have hround : roundAway 0 = 0 := roundAway_intCast 0
  refine ⟨⟨by decide +kernel, roundAway_intCast 5, hzero, hround⟩, fun h => ?_⟩
  have hcell : (blank 3 3).cell? ⟨0, 0⟩ = some ⟨0, 2⟩ := by decide +kernel
  have hinked := (h 2 0 (by decide) (by decide)).2 (by decide)
  rw [pixel?_pen_dot (blank 3 3) 5 (by decide) (by decide) hcell (by decide) (by decide), if_neg] at hinked
  · revert hinked
    decide +kernel
  · decide +kernel

end Canvas

end Easel
