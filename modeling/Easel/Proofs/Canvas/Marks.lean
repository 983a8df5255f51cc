import Easel.Proofs.Canvas.Bounds
import Easel.Proofs.Canvas.Frame
import Easel.Proofs.Canvas.Reach

/-!
# Marks

Every shape can be drawn at one point only, as a line or a frame or a box from the point to itself, or as a circle or a
disk of radius 0 around it (`Shape.strokes`, `Shape.fills`). A stroke is then one square of the pen and a fill is one
cell (`Shape.inks_of_mem_strokes_iff`, `Shape.inks_of_mem_fills_iff`), around the cell that the point is sampled at.

Clipping, circles and disks calculate in doubles. With less than `2^53` pixels, and no memory holds more, every column
and every row of the canvas is a double, and the calculations are exact where they have to be: a segment on the raster
is not clipped, and the only chord of a disk of radius 0 is its center.

`sample?_apply_mark`: what is drawn at a point is sampled at that point.
-/

namespace Easel

open Number

/-! ## Samples -/

theorem Raster.cell?_eq_some_iff {r : Raster} {p : Point} {d : Cell} :
    r.cell? p = some d ↔ nearestInt? p.x = some d.col ∧ nearestInt? p.y = some (r.height - 1 - d.row) := by
  constructor
  · intro h
    obtain ⟨x, y, hx, hy, rfl⟩ := exists_of_cell?_eq_some h
    exact ⟨hx, by rw [hy, sub_sub_cancel]⟩
  · rintro ⟨hx, hy⟩
    simp only [cell?, hx, hy, Option.bind_eq_bind, Option.bind_some, sub_sub_cancel]
    rfl

namespace Canvas

variable {c : Canvas} {p : Point}

theorem size_lt (hsize : c.pixels.size < 2 ^ 53) {col row : ℕ} (hcol : col < c.width) (hrow : row < c.height) :
    c.width < 2 ^ 53 ∧ c.height < 2 ^ 53 := by
  rw [c.size_pixels] at hsize
  exact ⟨(Nat.le_mul_of_pos_right _ (by omega)).trans_lt hsize, (Nat.le_mul_of_pos_left _ (by omega)).trans_lt hsize⟩

/-- The points that are sampled are those whose rounded coordinates are on the canvas. -/
theorem isSome_sample?_iff_roundAway (hsize : c.pixels.size < 2 ^ 53) :
    (c.sample? p).isSome ↔ ∃ x y : ℚ, value? p.x = some x ∧ value? p.y = some y ∧
      (0 ≤ roundAway x ∧ roundAway x < c.width) ∧ 0 ≤ roundAway y ∧ roundAway y < c.height := by
  have hlimit {k : ℤ} {n : ℕ} (hn : n < 2 ^ 53) (hk : 0 ≤ k ∧ k < n) : |k| < limit := by
    refine lt_of_lt_of_le ?_ limit_ge
    rw [abs_lt]
    omega
  rw [isSome_sample?_iff]
  constructor
  · rintro ⟨col, row, hcell, hcol, hrow⟩
    obtain ⟨hwidth, hheight⟩ := size_lt hsize hcol hrow
    obtain ⟨hx, hy⟩ := Raster.cell?_eq_some_iff.1 hcell
    dsimp only at hx hy
    obtain ⟨x, hx, hround⟩ := (nearestInt?_eq_some_iff (hlimit hwidth ⟨by omega, by omega⟩)).1 hx
    obtain ⟨y, hy, hround'⟩ := (nearestInt?_eq_some_iff (hlimit hheight ⟨by omega, by omega⟩)).1 hy
    exact ⟨x, y, hx, hy, by omega, by omega⟩
  · rintro ⟨x, y, hx, hy, hcol, hrow⟩
    obtain ⟨hwidth, hheight⟩ := size_lt hsize (show 0 < c.width by omega) (show 0 < c.height by omega)
    refine ⟨(roundAway x).toNat, (c.height - 1 - roundAway y).toNat, ?_, by omega, by omega⟩
    rw [Raster.cell?_eq_some_iff, Int.toNat_of_nonneg (by omega), Int.toNat_of_nonneg (by omega), sub_sub_cancel]
    exact ⟨(nearestInt?_eq_some_iff (hlimit hwidth hcol)).2 ⟨x, hx, rfl⟩,
      (nearestInt?_eq_some_iff (hlimit hheight hrow)).2 ⟨y, hy, rfl⟩⟩

end Canvas

/-! ## Shapes at one point -/

theorem Box.mem_pen_one {d e : Cell} : e ∈ Box.pen 1 d ↔ e = d := by
  obtain ⟨x, y⟩ := d
  obtain ⟨x', y'⟩ := e
  rw [mem_pen_iff le_rfl, Cell.mk.injEq]
  dsimp only
  omega

theorem Box.mem_pen_self {side : ℕ} (hside : 1 ≤ side) (d : Cell) : d ∈ Box.pen side d := by
  rw [mem_pen_iff hside]
  omega

namespace Shape

/-- What the pen can draw at one point. -/
def strokes (p : Point) : List Shape := [.line p p, .rect p p, .circle p 0]

/-- What can be filled at one point. -/
def fills (p : Point) : List Shape := [.fillRect p p, .fillCircle p 0]

section
variable {r : Raster} (size : Float) {p : Point} {d : Cell} (hp : r.cell? p = some d)
  (hwidth : r.width < 2 ^ 53) (hheight : r.height < 2 ^ 53) (hcol : 0 ≤ d.col ∧ d.col < r.width)
  (hrow : 0 ≤ d.row ∧ d.row < r.height)
include hp

theorem ofShape?_zero : Circle.ofShape? r p 0 = some ⟨d, 0⟩ := by
  have hzero : nearestInt? 0 = some 0 := hasValue_zero.nearestInt?_int (by norm_num)
  rw [Circle.ofShape?, hp, hzero]
  rfl

include hwidth hheight hcol hrow

/-- A stroke at one point inks the square of the pen. -/
theorem inks_of_mem_strokes_iff {s : Shape} (hs : s ∈ strokes p) (col row : ℕ) :
    s.Inks r size col row ↔ col < r.width ∧ row < r.height ∧ (⟨col, row⟩ : Cell) ∈ Box.pen (r.penSide size) d := by
  have hline : Segment.stroke r (r.penSide size) ⟨d, d⟩ = [Box.pen (r.penSide size) d] :=
    Segment.stroke_self hwidth hheight (Segment.penSide_lt size hwidth hheight) hcol hrow
  refine and_congr_right fun hcol' => and_congr_right fun hrow' => ?_
  simp only [strokes, List.mem_cons, List.not_mem_nil, or_false] at hs
  rcases hs with rfl | rfl | rfl
  · simp [footprint, withCells, hp, hline]
  · simp [footprint, withCells, hp, sides, hline]
  · have houtline : ∀ e, e ∈ Circle.outline ⟨d, 0⟩ ↔ e = d := by
      simp [Circle.outline, Circle.octant, Circle.octantFrom, Circle.reflections]
    rw [footprint, ofShape?_zero hp, Option.map_some, Option.getD_some,
      Circle.exists_mem_stroke_iff (Segment.penSide_bounds r size).1 (Nat.zero_le _) hcol' hrow']
    simp only [houtline, exists_eq_left]

/-- A fill at one point inks the cell of the point. -/
theorem inks_of_mem_fills_iff {s : Shape} (hs : s ∈ fills p) (col row : ℕ) :
    s.Inks r size col row ↔ col < r.width ∧ row < r.height ∧ (⟨col, row⟩ : Cell) = d := by
  refine and_congr_right fun hcol' => and_congr_right fun hrow' => ?_
  obtain ⟨x, y⟩ := d
  rw [Cell.mk.injEq]
  simp only [fills, List.mem_cons, List.not_mem_nil, or_false] at hs
  rcases hs with rfl | rfl
  · simp only [footprint, withCells, hp, List.mem_singleton, exists_eq_left, Segment.mem_spanned, min_self, max_self]
    omega
  · have hfits {k : ℤ} {n : ℕ} (hn : n < 2 ^ 53) (hk : 0 ≤ k ∧ k < n) : |k| + (0 : ℕ) < 2 ^ 53 := by
      rw [Nat.cast_zero, add_zero, abs_lt]
      omega
    have hdisk := Circle.exists_mem_disk_iff (c := ⟨⟨x, y⟩, 0⟩) (hfits hwidth hcol) (hfits hheight hrow)
      (Nat.zero_le _) hheight hrow' col
    rw [footprint, ofShape?_zero hp, Option.map_some, Option.getD_some, hdisk, Nat.cast_zero, zero_pow two_ne_zero]
    have hcols := sq_nonneg (col - x)
    have hrows := sq_nonneg (row - y)
    constructor
    · intro h
      exact ⟨sub_eq_zero.1 (pow_eq_zero_iff two_ne_zero |>.1 (by linarith)),
        sub_eq_zero.1 (pow_eq_zero_iff two_ne_zero |>.1 (by linarith))⟩
    · rintro ⟨rfl, rfl⟩
      simp

/-- A shape at one point inks the cell of the point, and no other one with a pen of one cell. -/
theorem inks_of_mem {s : Shape} (hs : s ∈ strokes p ++ fills p) :
    (∀ col row : ℕ, (⟨col, row⟩ : Cell) = d → s.Inks r size col row) ∧
      (r.penSide size = 1 → ∀ col row : ℕ, s.Inks r size col row → (⟨col, row⟩ : Cell) = d) := by
  have hraster {col row : ℕ} (h : (⟨col, row⟩ : Cell) = d) : col < r.width ∧ row < r.height := by
    subst h
    dsimp only at hcol hrow
    omega
  rcases List.mem_append.1 hs with hs | hs
  · have hinks := inks_of_mem_strokes_iff size hp hwidth hheight hcol hrow hs
    refine ⟨fun col row h => (hinks col row).2 ?_, fun hone col row h => ?_⟩
    · rw [h]
      exact ⟨(hraster h).1, (hraster h).2, Box.mem_pen_self (Segment.penSide_bounds r size).1 d⟩
    · obtain ⟨-, -, hpen⟩ := (hinks col row).1 h
      rwa [hone, Box.mem_pen_one] at hpen
  · have hinks := inks_of_mem_fills_iff size hp hwidth hheight hcol hrow hs
    exact ⟨fun col row h => (hinks col row).2 ⟨(hraster h).1, (hraster h).2, h⟩,
      fun _ col row h => ((hinks col row).1 h).2.2⟩

end

/-- A line between two cells of the raster inks both. -/
theorem inks_line {r : Raster} {size : Float} {p q : Point} {d e : Cell} (hp : r.cell? p = some d)
    (hq : r.cell? q = some e) (hwidth : r.width < 2 ^ 53) (hheight : r.height < 2 ^ 53)
    (hd : (0 ≤ d.col ∧ d.col < r.width) ∧ 0 ≤ d.row ∧ d.row < r.height)
    (he : (0 ≤ e.col ∧ e.col < r.width) ∧ 0 ≤ e.row ∧ e.row < r.height) {col row : ℕ}
    (h : (⟨col, row⟩ : Cell) = d ∨ (⟨col, row⟩ : Cell) = e) : (Shape.line p q).Inks r size col row := by
  have hclip : Segment.clip r (r.penSide size) ⟨d, e⟩ = some ⟨d, e⟩ :=
    Segment.clip_of_mem hwidth hheight (Segment.penSide_lt size hwidth hheight) hd.1 hd.2 he.1 he.2
  have hwalk : (⟨col, row⟩ : Cell) ∈ Segment.walk ⟨d, e⟩ := by
    rcases h with h | h
    · rw [h]
      exact Segment.start_mem_walk ⟨d, e⟩
    · rw [h]
      exact Segment.stop_mem_walk ⟨d, e⟩
  have hraster : col < r.width ∧ row < r.height := by
    rcases h with rfl | rfl
    · dsimp only at hd
      omega
    · dsimp only at he
      omega
  refine ⟨hraster.1, hraster.2, Box.pen (r.penSide size) ⟨col, row⟩, ?_,
    Box.mem_pen_self (Segment.penSide_bounds r size).1 _⟩
  simp only [footprint, withCells, hp, hq, Segment.stroke, hclip]
  exact List.mem_map_of_mem hwalk

end Shape

namespace Canvas

section
variable {c : Canvas} {p : Point} {col row : ℕ}

theorem sample?_eq_pixel? (hp : c.cell? p = some ⟨col, row⟩) : c.sample? p = c.pixel? col row := by
  have hnonneg : ¬ ((col : ℤ) < 0 ∨ (row : ℤ) < 0) := by omega
  rw [sample?, hp, Option.bind_eq_bind, Option.bind_some, if_neg hnonneg, Int.toNat_natCast, Int.toNat_natCast]

theorem sample?_apply_of_inks {s : Shape} (hp : c.cell? p = some ⟨col, row⟩)
    (hs : s.Inks c.toRaster c.penSize col row) :
    (Surface.apply c (.shape s)).sample? p = some c.ink := by
  rw [sample?_eq_pixel? (by rw [toRaster_apply_shape, hp]), pixel?_apply_shape, if_pos hs]

end

/-- A canvas of less than `2^53` pixels has a sample wherever the rounded coordinates of a point are on it. Whatever is
drawn at such a point, by whatever pen, the sample there is the ink, and with a pen of one cell no other pixel changes.
A line between two such points has the ink at both of them. -/
theorem sample?_apply_mark (c : Canvas) (hsize : c.pixels.size < 2 ^ 53) :
    (∀ p, (c.sample? p).isSome ↔ ∃ x y : ℚ, value? p.x = some x ∧ value? p.y = some y ∧
      (0 ≤ roundAway x ∧ roundAway x < c.width) ∧ 0 ≤ roundAway y ∧ roundAway y < c.height) ∧
    (∀ p, (c.sample? p).isSome → ∀ s ∈ [Shape.line p p, .rect p p, .circle p 0, .fillRect p p, .fillCircle p 0],
      (Surface.apply c (.shape s)).sample? p = some c.ink ∧
      (c.side = 1 → ∀ col row : ℕ, c.cell? p ≠ some ⟨col, row⟩ →
        (Surface.apply c (.shape s)).pixel? col row = c.pixel? col row)) ∧
    ∀ p q, (c.sample? p).isSome → (c.sample? q).isSome →
      (Surface.apply c (.shape (.line p q))).sample? p = some c.ink ∧
        (Surface.apply c (.shape (.line p q))).sample? q = some c.ink := by
  refine ⟨fun p => isSome_sample?_iff_roundAway hsize, fun p hp s hs => ?_, fun p q hp hq => ?_⟩
  · obtain ⟨col, row, hcell, hcol, hrow⟩ := (isSome_sample?_iff c p).1 hp
    obtain ⟨hwidth, hheight⟩ := size_lt hsize hcol hrow
    have hcol' : (0 : ℤ) ≤ col ∧ (col : ℤ) < c.width := by omega
    have hrow' : (0 : ℤ) ≤ row ∧ (row : ℤ) < c.height := by omega
    have hinks := Shape.inks_of_mem c.penSize hcell hwidth hheight hcol' hrow' hs
    refine ⟨sample?_apply_of_inks hcell (hinks.1 col row rfl), fun hone i j hne => ?_⟩
    have hnot : ¬ s.Inks c.toRaster c.penSize i j := fun h =>
      hne (hcell.trans (congrArg some (hinks.2 hone i j h).symm))
    rw [pixel?_apply_shape, if_neg hnot]
  · obtain ⟨col, row, hcell, hcol, hrow⟩ := (isSome_sample?_iff c p).1 hp
    obtain ⟨col', row', hcell', hcol', hrow'⟩ := (isSome_sample?_iff c q).1 hq
    obtain ⟨hwidth, hheight⟩ := size_lt hsize hcol hrow
    have hd : ((0 : ℤ) ≤ col ∧ (col : ℤ) < c.width) ∧ (0 : ℤ) ≤ row ∧ (row : ℤ) < c.height := by omega
    have he : ((0 : ℤ) ≤ col' ∧ (col' : ℤ) < c.width) ∧ (0 : ℤ) ≤ row' ∧ (row' : ℤ) < c.height := by omega
    exact ⟨sample?_apply_of_inks hcell (Shape.inks_line hcell hcell' hwidth hheight hd he (.inl rfl)),
      sample?_apply_of_inks hcell' (Shape.inks_line hcell hcell' hwidth hheight hd he (.inr rfl))⟩

/-- On a small canvas a circle of radius 0 at a point between cells, and a line from it into a corner. -/
theorem sample?_apply_mark_blank :
    let c := blank 5 4
    let p : Point := ⟨1.4, 2.5⟩
    let q : Point := ⟨4, -0.25⟩
    (c.pixels.size < 2 ^ 53 ∧ (c.sample? p).isSome ∧ (c.sample? q).isSome) ∧
      (Surface.apply c (.shape (.circle p 0))).sample? p = some 0 ∧
      (Surface.apply c (.shape (.line p q))).sample? q = some 0 := by
  intro c p q
  have hsize : c.pixels.size < 2 ^ 53 := by decide
  have hp : (c.sample? p).isSome := by decide +kernel
  have hq : (c.sample? q).isSome := by decide +kernel
  obtain ⟨-, hmark, hline⟩ := sample?_apply_mark c hsize
  exact ⟨⟨hsize, hp, hq⟩, (hmark p hp _ (by simp)).1, (hline p q hp hq).2⟩

end Canvas

end Easel
