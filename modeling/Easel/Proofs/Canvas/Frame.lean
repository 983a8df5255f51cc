import Easel.Proofs.Canvas.Clipping
import Easel.Proofs.Canvas.Disk
import Easel.Proofs.Canvas.Walk

/-!
# Frames

A walk along an axis is at every cell between its ends (`mem_walk_of_isAxial`), and what the clipping takes off it is
so far off the raster that no pen there reaches it (`not_mem_pen`). So the stroke of a side inks what the pen covers
anywhere on that side (`exists_mem_stroke_iff`), and four strokes ink what it covers on the boundary of a box
(`Shape.inks_rect_iff`), in which the order of the corners does not count.

`apply_rect`: frames on a canvas.
-/

namespace Easel

open Number

namespace Segment

theorem mem_spanned {a b d : Cell} :
    d ∈ Box.spanned a b ↔
      (min a.col b.col ≤ d.col ∧ d.col ≤ max a.col b.col) ∧ min a.row b.row ≤ d.row ∧ d.row ≤ max a.row b.row :=
  and_assoc.symm

/-! ## Walks along an axis -/

theorem Course.along_of_rows_eq_zero {w : Course} (h : w.rows = 0) (k : ℕ) : w.along k = (k, 0) := by
  rw [along_of_le w (by omega), h, Nat.mul_zero, nearestQuotient_zero]

theorem Course.along_of_cols_eq_zero {w : Course} (h : w.cols = 0) {k : ℕ} (hk : k ≤ w.turns) :
    w.along k = (0, k) := by
  unfold turns at hk
  rcases Nat.eq_zero_or_pos w.rows with hzero | hpos
  · obtain rfl : k = 0 := by omega
    exact w.along_zero
  · rw [along_of_lt w (by omega), h, Nat.mul_zero, nearestQuotient_zero]

/-- A walk along an axis is at every cell between its ends. -/
theorem mem_walk_of_isAxial {s : Segment} (h : s.IsAxial) {d : Cell} : d ∈ s.walk ↔ d ∈ Box.spanned s.start s.stop := by
  rw [walk_eq_map, List.mem_map]
  simp only [List.mem_range, mem_spanned]
  obtain ⟨⟨x, y⟩, ⟨x', y'⟩⟩ := s
  obtain ⟨col, row⟩ := d
  rcases h with h | h <;> dsimp only at h <;> subst h
  · have hrows : (Segment.mk ⟨x, y⟩ ⟨x', y⟩).course.rows = 0 := by simp [course]
    simp only [Course.along_of_rows_eq_zero hrows]
    simp only [Course.after, Course.turns, course, Cell.mk.injEq, Nat.cast_zero, zero_mul, add_zero]
    constructor
    · rintro ⟨k, hk, rfl, rfl⟩
      split <;> omega
    · intro hmem
      refine ⟨(col - x).natAbs, by omega, ?_, by omega⟩
      split <;> omega
  · have hcols : (Segment.mk ⟨x, y⟩ ⟨x, y'⟩).course.cols = 0 := by simp [course]
    have hturns : (Segment.mk ⟨x, y⟩ ⟨x, y'⟩).course.turns = (y' - y).natAbs := by simp [course, Course.turns]
    rw [hturns]
    constructor
    · rintro ⟨k, hk, hcell⟩
      rw [Course.along_of_cols_eq_zero hcols (by omega)] at hcell
      simp only [Course.after, course, Cell.mk.injEq, Nat.cast_zero, zero_mul, add_zero] at hcell
      dsimp only
      split at hcell <;> omega
    · dsimp only
      intro hmem
      refine ⟨(row - y).natAbs, by omega, ?_⟩
      rw [Course.along_of_cols_eq_zero hcols (by omega)]
      simp only [Course.after, course, Cell.mk.injEq, Nat.cast_zero, zero_mul, add_zero]
      refine ⟨by omega, ?_⟩
      split <;> omega

/-! ## Strokes along an axis -/

/-- The square of a pen at a cell beyond the raster and its margin is off the raster. -/
theorem not_mem_pen {r : Raster} {side : ℕ} {d : Cell} {col row : ℕ} (hcol : col < r.width) (hrow : row < r.height)
    (hside : 1 ≤ side) (h : clampCell r side d ≠ d) : (⟨col, row⟩ : Cell) ∉ Box.pen side d := by
  intro hmem
  apply h
  obtain ⟨hleft, hright, htop, hbottom⟩ := hmem
  obtain ⟨x, y⟩ := d
  simp only [Box.pen] at hleft hright htop hbottom
  simp only [clampCell, clamp, Cell.mk.injEq]
  omega

/-- Clamping the ends keeps what is between them, and between the edges. -/
theorem between_clamp_iff {low high a b z : ℤ} (hz : clamp low high z = z) (h : ¬ Misses low high a b) :
    min (clamp low high a) (clamp low high b) ≤ z ∧ z ≤ max (clamp low high a) (clamp low high b) ↔
      min a b ≤ z ∧ z ≤ max a b := by
  unfold clamp at *
  unfold Misses at h
  omega

theorem not_between_of_misses {low high a b z : ℤ} (hz : clamp low high z = z) (hlow : low ≤ high)
    (h : Misses low high a b) : ¬ (min a b ≤ z ∧ z ≤ max a b) := by
  unfold clamp at hz
  unfold Misses at h
  omega

/-- A segment along an axis inks the pixels that the pen covers at any of its cells, on the raster or off it. -/
theorem exists_mem_stroke_iff {r : Raster} {side : ℕ} {s : Segment} (h : s.IsAxial) (hstart : IsNear s.start)
    (hstop : IsNear s.stop) (hwidth : r.width ≤ 2 ^ 24) (hheight : r.height ≤ 2 ^ 24) (hside : side ≤ 2 ^ 24)
    (hpos : 1 ≤ side) {col row : ℕ} (hcol : col < r.width) (hrow : row < r.height) :
    (∃ b ∈ s.stroke r side, (⟨col, row⟩ : Cell) ∈ b) ↔
      ∃ d ∈ Box.spanned s.start s.stop, (⟨col, row⟩ : Cell) ∈ Box.pen side d := by
  have hclamped {d : Cell} (hpen : (⟨col, row⟩ : Cell) ∈ Box.pen side d) :
      clamp (-side) (r.width - 1 + side) d.col = d.col ∧ clamp (-side) (r.height - 1 + side) d.row = d.row := by
    have hd : clampCell r side d = d := by
      by_contra hd
      exact not_mem_pen hcol hrow hpos hd hpen
    exact ⟨congrArg Cell.col hd, congrArg Cell.row hd⟩
  rw [stroke, clip_of_isAxial h hstart hstop hwidth hheight hside hpos]
  by_cases hmisses : Misses (-side) (r.width - 1 + side) s.start.col s.stop.col ∨
      Misses (-side) (r.height - 1 + side) s.start.row s.stop.row
  · rw [if_pos hmisses]
    simp only [List.not_mem_nil, false_and, exists_false, false_iff, not_exists, not_and]
    rintro d ⟨hleft, hright, htop, hbottom⟩ hpen
    rcases hmisses with hmisses | hmisses
    · exact not_between_of_misses (hclamped hpen).1 (by omega) hmisses ⟨hleft, hright⟩
    · exact not_between_of_misses (hclamped hpen).2 (by omega) hmisses ⟨htop, hbottom⟩
  · rw [if_neg hmisses]
    rw [not_or] at hmisses
    have haxial : (Segment.mk (clampCell r side s.start) (clampCell r side s.stop)).IsAxial := by
      refine h.imp (fun h => ?_) fun h => ?_
      · simp [clampCell, h]
      · simp [clampCell, h]
    simp only [List.mem_map, exists_exists_and_eq_and, mem_walk_of_isAxial haxial]
    refine exists_congr fun d => and_congr_left fun hpen => ?_
    rw [mem_spanned, mem_spanned]
    exact and_congr (between_clamp_iff (hclamped hpen).1 hmisses.1) (between_clamp_iff (hclamped hpen).2 hmisses.2)

end Segment

/-! ## Sides -/

/-- The cell is on a side of the box. -/
def Box.IsBoundary (b : Box) (d : Cell) : Prop :=
  d ∈ b ∧ (d.col = b.left ∨ d.col = b.right ∨ d.row = b.top ∨ d.row = b.bottom)

instance (b : Box) (d : Cell) : Decidable (b.IsBoundary d) := inferInstanceAs (Decidable (_ ∧ _))

namespace Shape

open Segment

theorem isAxial_of_mem_sides {a b : Cell} {s : Segment} (h : s ∈ sides a b) : s.IsAxial := by
  simp only [sides, List.mem_cons, List.not_mem_nil, or_false] at h
  rcases h with rfl | rfl | rfl | rfl <;> simp [IsAxial]

theorem isNear_of_mem_sides {a b : Cell} {s : Segment} (ha : IsNear a) (hb : IsNear b) (h : s ∈ sides a b) :
    IsNear s.start ∧ IsNear s.stop := by
  simp only [sides, List.mem_cons, List.not_mem_nil, or_false] at h
  rcases h with rfl | rfl | rfl | rfl <;> simp only [IsNear] at * <;> tauto

/-- The four sides make up the boundary, whatever the order of the corners. -/
theorem exists_mem_sides_iff {a b d : Cell} :
    (∃ s ∈ sides a b, d ∈ Box.spanned s.start s.stop) ↔ (Box.spanned a b).IsBoundary d := by
  simp only [sides, List.mem_cons, List.not_mem_nil, or_false, exists_eq_or_imp, exists_eq_left, Box.IsBoundary,
    mem_spanned, min_self, max_self]
  dsimp only [Box.spanned]
  rcases le_total a.col b.col with hcol | hcol <;> rcases le_total a.row b.row with hrow | hrow <;>
    simp only [hcol, hrow, min_eq_left, min_eq_right, max_eq_left, max_eq_right] <;> omega

section
variable {r : Raster} {size : Float} {p q : Point} {a b : Cell} (hp : r.cell? p = some a) (hq : r.cell? q = some b)
include hp hq

theorem inks_fillRect_iff {col row : ℕ} :
    (Shape.fillRect p q).Inks r size col row ↔
      col < r.width ∧ row < r.height ∧ (⟨col, row⟩ : Cell) ∈ Box.spanned a b := by
  simp [Shape.Inks, footprint, withCells, hp, hq]

/-- A frame inks the pixels that the pen covers at any cell of the boundary. -/
theorem inks_rect_iff (hwidth : r.width ≤ 2 ^ 24) (hheight : r.height ≤ 2 ^ 24) (ha : IsNear a) (hb : IsNear b)
    {col row : ℕ} :
    (Shape.rect p q).Inks r size col row ↔
      col < r.width ∧ row < r.height ∧
        ∃ d, (Box.spanned a b).IsBoundary d ∧ (⟨col, row⟩ : Cell) ∈ Box.pen (r.penSide size) d := by
  have hside : 1 ≤ r.penSide size ∧ r.penSide size ≤ 2 ^ 24 :=
    (penSide_bounds r size).imp_right fun hle => hle.trans (by omega)
  refine and_congr_right fun hcol => and_congr_right fun hrow => ?_
  simp only [footprint, withCells, hp, hq, List.mem_flatMap, ← exists_mem_sides_iff]
  have hstroke {s : Segment} (hs : s ∈ sides a b) :=
    exists_mem_stroke_iff (isAxial_of_mem_sides hs) (isNear_of_mem_sides ha hb hs).1 (isNear_of_mem_sides ha hb hs).2
      hwidth hheight hside.2 hside.1 hcol hrow
  constructor
  · rintro ⟨box, ⟨s, hs, hbox⟩, hmem⟩
    obtain ⟨d, hd, hpen⟩ := (hstroke hs).1 ⟨box, hbox, hmem⟩
    exact ⟨d, ⟨s, hs, hd⟩, hpen⟩
  · rintro ⟨d, ⟨s, hs, hd⟩, hpen⟩
    obtain ⟨box, hbox, hmem⟩ := (hstroke hs).2 ⟨d, hd, hpen⟩
    exact ⟨box, ⟨s, hs, hbox⟩, hmem⟩

end

end Shape

namespace Canvas

open Segment

/-- Shapes that ink the same pixels are drawn alike. -/
theorem apply_shape_congr (c : Canvas) {s t : Shape}
    (h : ∀ col row, s.Inks c.toRaster c.penSize col row ↔ t.Inks c.toRaster c.penSize col row) :
    Surface.apply c (.shape s) = Surface.apply c (.shape t) := by
  refine ext_pixel? (by simp) (by simp) (by simp) fun col row => ?_
  rw [pixel?_apply_shape, pixel?_apply_shape]
  exact if_congr (h col row) rfl rfl

/-- A shape drawn over one that inks all its pixels changes nothing. -/
theorem apply_shape_of_inks (c : Canvas) {s t : Shape}
    (h : ∀ col row, t.Inks c.toRaster c.penSize col row → s.Inks c.toRaster c.penSize col row) :
    Surface.apply (Surface.apply c (.shape s)) (.shape t) = Surface.apply c (.shape s) := by
  refine ext_pixel? (by simp) (by simp) (by simp) fun col row => ?_
  simp only [pixel?_apply_shape, toRaster_apply_shape, penSize_apply_shape, ink_apply_shape]
  have := h col row
  split <;> simp_all

/-- Frames between corners that span the same box are drawn alike. -/
theorem apply_rect_congr (c : Canvas) (hwidth : c.width ≤ 2 ^ 24) (hheight : c.height ≤ 2 ^ 24) {p q p' q' : Point}
    {a b a' b' : Cell} (hp : c.cell? p = some a) (hq : c.cell? q = some b) (hp' : c.cell? p' = some a')
    (hq' : c.cell? q' = some b') (ha : IsNear a) (hb : IsNear b) (ha' : IsNear a') (hb' : IsNear b')
    (h : Box.spanned a b = Box.spanned a' b') :
    Surface.apply c (.shape (.rect p q)) = Surface.apply c (.shape (.rect p' q')) := by
  refine apply_shape_congr c fun col row => ?_
  rw [Shape.inks_rect_iff hp hq hwidth hheight ha hb, Shape.inks_rect_iff hp' hq' hwidth hheight ha' hb', h]

/-- On a canvas with sides up to `2^24`, whatever its pen, a frame between corners that round to integers up to `2^40`
inks the pixels that the pen covers at any cell on the boundary of the box that the rounded corners span, and leaves
the others as they are. So corners may be exchanged, in either coordinate or in both; and a pen of one cell inks
nothing beyond the filled rectangle. -/
theorem apply_rect (c : Canvas) (p q : Point) {x y x' y' : ℚ} (hwidth : c.width ≤ 2 ^ 24) (hheight : c.height ≤ 2 ^ 24)
    (hx : value? p.x = some x) (hy : value? p.y = some y) (hx' : value? q.x = some x') (hy' : value? q.y = some y')
    (hxbound : |roundAway x| ≤ 2 ^ 40) (hybound : |roundAway y| ≤ 2 ^ 40) (hxbound' : |roundAway x'| ≤ 2 ^ 40)
    (hybound' : |roundAway y'| ≤ 2 ^ 40) :
    let frame := Box.spanned ⟨roundAway x, c.height - 1 - roundAway y⟩ ⟨roundAway x', c.height - 1 - roundAway y'⟩
    let framed := Surface.apply c (.shape (.rect p q))
    (∀ col row, col < c.width → row < c.height →
      ((∃ d, frame.IsBoundary d ∧ (⟨col, row⟩ : Cell) ∈ Box.pen c.side d) → framed.pixel? col row = some c.ink) ∧
      ((∀ d, frame.IsBoundary d → (⟨col, row⟩ : Cell) ∉ Box.pen c.side d) →
        framed.pixel? col row = c.pixel? col row)) ∧
    Surface.apply c (.shape (.rect ⟨q.x, p.y⟩ ⟨p.x, q.y⟩)) = framed ∧
    Surface.apply c (.shape (.rect ⟨p.x, q.y⟩ ⟨q.x, p.y⟩)) = framed ∧
    Surface.apply c (.shape (.rect q p)) = framed ∧
    (c.side = 1 →
      (∀ col row, (Shape.rect p q).Inks c.toRaster c.penSize col row →
        (Shape.fillRect p q).Inks c.toRaster c.penSize col row) ∧
      Surface.apply (Surface.apply c (.shape (.fillRect p q))) (.shape (.rect p q)) =
        Surface.apply c (.shape (.fillRect p q))) := by
  intro frame framed
  have hlimit {k : ℤ} (h : |k| ≤ 2 ^ 40) : |k| ≤ limit := (h.trans (by norm_num)).trans limit_ge
  have hnear {m n : ℤ} (hm : |m| ≤ 2 ^ 40) (hn : |n| ≤ 2 ^ 40) : IsNear ⟨m, c.height - 1 - n⟩ := by
    rw [abs_le] at hm hn
    exact ⟨by rw [abs_le]; dsimp only; omega, by rw [abs_le]; dsimp only; omega⟩
  have hcell {s : Point} {m n : ℚ} (hm : value? s.x = some m) (hn : value? s.y = some n)
      (hmbound : |roundAway m| ≤ 2 ^ 40) (hnbound : |roundAway n| ≤ 2 ^ 40) :=
    c.toRaster.cell?_eq hm hn (hlimit hmbound) (hlimit hnbound)
  have hp := hcell hx hy hxbound hybound
  have hq := hcell hx' hy' hxbound' hybound'
  have ha := hnear hxbound hybound
  have hb := hnear hxbound' hybound'
  refine ⟨fun col row hcol hrow => ⟨fun h => ?_, fun h => ?_⟩, ?_, ?_, ?_, fun hside => ?_⟩
  · rw [pixel?_apply_shape, if_pos]
    exact (Shape.inks_rect_iff hp hq hwidth hheight ha hb).2 ⟨hcol, hrow, h⟩
  · rw [pixel?_apply_shape, if_neg]
    intro hmem
    obtain ⟨-, -, d, hd, hpen⟩ := (Shape.inks_rect_iff hp hq hwidth hheight ha hb).1 hmem
    exact h d hd hpen
  · refine apply_rect_congr c hwidth hheight (hcell hx' hy hxbound' hybound) (hcell hx hy' hxbound hybound') hp hq
      (hnear hxbound' hybound) (hnear hxbound hybound') ha hb ?_
    simp only [Box.spanned, min_comm (roundAway x'), max_comm (roundAway x')]
  · refine apply_rect_congr c hwidth hheight (hcell hx hy' hxbound hybound') (hcell hx' hy hxbound' hybound) hp hq
      (hnear hxbound hybound') (hnear hxbound' hybound) ha hb ?_
    simp only [Box.spanned, min_comm, max_comm]
  · refine apply_rect_congr c hwidth hheight hq hp hp hq hb ha ha hb ?_
    simp only [Box.spanned, min_comm, max_comm]
  · have hbeyond : ∀ col row, (Shape.rect p q).Inks c.toRaster c.penSize col row →
        (Shape.fillRect p q).Inks c.toRaster c.penSize col row := by
      intro col row h
      obtain ⟨hcol, hrow, d, hd, hpen⟩ := (Shape.inks_rect_iff hp hq hwidth hheight ha hb).1 h
      have hsame : d = ⟨col, row⟩ := by
        have hone : c.penSide c.penSize = 1 := hside
        rw [hone] at hpen
        obtain ⟨hleft, hright, htop, hbottom⟩ := hpen
        obtain ⟨x, y⟩ := d
        simp only [Box.pen] at hleft hright htop hbottom
        simp only [Cell.mk.injEq]
        omega
      rw [hsame] at hd
      exact (Shape.inks_fillRect_iff hp hq).2 ⟨hcol, hrow, hd.1⟩
    exact ⟨hbeyond, apply_shape_of_inks c hbeyond⟩

/-- A frame that is far larger than the raster on three sides keeps the edges that cross it. -/
theorem apply_rect_huge :
    (value? (-1000.5) = some (-2001 / 2) ∧ value? 1.5 = some (3 / 2) ∧ value? 2.5 = some (5 / 2) ∧
      value? 1000000000 = some 1000000000 ∧ (blank 5 4).side = 1) ∧
    (Surface.apply (blank 5 4) (.shape (.rect ⟨-1000.5, 1.5⟩ ⟨2.5, 1000000000⟩))).pixel? 3 0 = some 0 ∧
    (Surface.apply (blank 5 4) (.shape (.rect ⟨-1000.5, 1.5⟩ ⟨2.5, 1000000000⟩))).pixel? 0 0 = some 255 ∧
    Surface.apply (blank 5 4) (.shape (.rect ⟨2.5, 1000000000⟩ ⟨-1000.5, 1.5⟩)) =
      Surface.apply (blank 5 4) (.shape (.rect ⟨-1000.5, 1.5⟩ ⟨2.5, 1000000000⟩)) ∧
    Surface.apply (Surface.apply (blank 5 4) (.shape (.fillRect ⟨-1000.5, 1.5⟩ ⟨2.5, 1000000000⟩)))
        (.shape (.rect ⟨-1000.5, 1.5⟩ ⟨2.5, 1000000000⟩)) =
      Surface.apply (blank 5 4) (.shape (.fillRect ⟨-1000.5, 1.5⟩ ⟨2.5, 1000000000⟩)) := by
  have hx : value? (-1000.5) = some (-2001 / 2) := by decide +kernel
  have hy : value? 1.5 = some (3 / 2) := by decide +kernel
  have hx' : value? 2.5 = some (5 / 2) := by decide +kernel
  have hy' : value? 1000000000 = some 1000000000 := by decide +kernel
  have hside : (blank 5 4).side = 1 := by decide +kernel
  obtain ⟨hpixel, -, -, hswap, hfill⟩ := apply_rect (blank 5 4) ⟨-1000.5, 1.5⟩ ⟨2.5, 1000000000⟩ (by decide) (by decide)
    hx hy hx' hy' (by decide +kernel) (by decide +kernel) (by decide +kernel) (by decide +kernel)
  rw [hside] at hpixel
  refine ⟨⟨hx, hy, hx', hy', hside⟩, (hpixel 3 0 (by decide) (by decide)).1 ⟨⟨3, 0⟩, ?_, ?_⟩,
    ((hpixel 0 0 (by decide) (by decide)).2 ?_).trans ?_, hswap, (hfill hside).2⟩
  · decide +kernel
  · decide
  · rintro ⟨x, y⟩ hd ⟨hleft, hright, htop, hbottom⟩
    obtain rfl : x = 0 := by
      simp only [Box.pen] at hleft hright
      omega
    obtain rfl : y = 0 := by
      simp only [Box.pen] at htop hbottom
      omega
    revert hd
    decide +kernel
  · decide +kernel

end Canvas

end Easel
