import Easel.Proofs.Canvas.Buffer
import Easel.Proofs.Canvas.Pen
import Easel.Proofs.Canvas.Words

/-!
# Loops that paint

The loops of a framebuffer leave what boxes painted on a canvas leave (`Framebuffer.Paints`): a pen its square
(`paints_stamp`), a line the squares along its walk (`paints_strokeFrom`), an outline those on the reflections of its
octant (`paints_strokeOutline`).

Words do not wrap around there, since sides are of 50 bits and cells of 58. So each loop takes the turns of the walk on
paper.
-/

namespace Easel

open Number
open Canvas (sweep write?)

/-- The canvas in a machine. -/
def Canvas.toFramebuffer (c : Canvas) : Framebuffer where
  width := UInt64.ofNat c.width
  height := UInt64.ofNat c.height
  pixels := c.pixels
  penSize := c.penSize
  ink := c.ink

/-- Both coordinates are finite, and the nearest cell is far from the limits of a word. -/
structure Point.IsSmall (p : Point) : Prop where
  x : (value? p.x).isSome
  y : (value? p.y).isSome
  cell : (Cell.nearest p).IsSmall

namespace Framebuffer

/-- The pixels of a canvas of this size with this ink become those of the canvas with these boxes painted on it. -/
def Paints (f : Framebuffer) (write : Array UInt8 → Option (Array UInt8)) (boxes : List Box) : Prop :=
  ∀ c : Canvas, c.toRaster = f.toRaster → c.ink = f.ink → write c.pixels = some (c.paint boxes).pixels

namespace Paints

variable {f : Framebuffer} {a b : Array UInt8 → Option (Array UInt8)} {boxes boxes' : List Box}

theorem skip : Paints f some [] := fun _ _ _ => rfl

theorem bind (ha : Paints f a boxes) (hb : Paints f b boxes') : Paints f (fun pixels => a pixels >>= b) (boxes ++ boxes') := by
  intro c hraster hink
  obtain ⟨hraster', -, hink'⟩ := Canvas.frame_paint c boxes
  have hpaint : c.paint (boxes ++ boxes') = (c.paint boxes).paint boxes' := List.foldl_append
  dsimp only
  rw [ha c hraster hink, hpaint]
  exact hb _ (hraster'.trans hraster) (hink'.trans hink)

/-- Only the cells on the raster count. -/
theorem congr (ha : Paints f a boxes) (h : ∀ col row : ℕ, col < f.width.toNat → row < f.height.toNat →
    ((∃ b ∈ boxes, (⟨col, row⟩ : Cell) ∈ b) ↔ ∃ b ∈ boxes', (⟨col, row⟩ : Cell) ∈ b)) : Paints f a boxes' := by
  intro c hraster hink
  obtain ⟨hraster', hsize, hink'⟩ := Canvas.frame_paint c boxes
  obtain ⟨hraster'', hsize', hink''⟩ := Canvas.frame_paint c boxes'
  have hpaint : c.paint boxes = c.paint boxes' := by
    refine Canvas.ext_pixel? (hraster'.trans hraster''.symm) (hsize.trans hsize'.symm) (hink'.trans hink''.symm)
      fun col row => ?_
    rw [Canvas.pixel?_paint, Canvas.pixel?_paint]
    by_cases hin : col < c.width ∧ row < c.height
    · rw [hraster] at hin
      simp only [h col row hin.1 hin.2]
    · have hout : c.pixel? col row = none := if_neg hin
      simp only [hout, Option.map_none, ite_self]
  rw [ha c hraster hink, hpaint]

/-- Boxes off the raster leave nothing. -/
theorem skip_of_not_mem (h : ∀ col row : ℕ, col < f.width.toNat → row < f.height.toNat → ∀ b ∈ boxes,
    (⟨col, row⟩ : Cell) ∉ b) : Paints f some boxes :=
  skip.congr fun col row hcol hrow =>
    iff_of_false (fun ⟨_, hb, _⟩ => List.not_mem_nil hb) fun ⟨b, hb, hmem⟩ => h col row hcol hrow b hb hmem

/-- A loop. -/
theorem sweep {w : ℕ → Array UInt8 → Option (Array UInt8)} {boxes : ℕ → List Box} {i count : ℕ}
    (h : ∀ k, i ≤ k → k < i + count → Paints f (w k) (boxes k)) :
    Paints f (fun pixels => sweep w pixels i count) ((List.range' i count).flatMap boxes) := by
  induction count generalizing i with
  | zero => exact skip
  | succ m ih =>
    rw [List.range'_succ, List.flatMap_cons]
    exact (h i le_rfl (by omega)).bind (ih fun k hk hk' => h k (by omega) (by omega))

end Paints

/-! ## Turns in words -/

section
variable {s : Segment} (hstart : s.start.IsSmall) (hstop : s.stop.IsSmall)

/-- A route in words is the course of a segment. -/
structure Route.IsAlong (r : Route) (s : Segment) : Prop where
  col : r.col.toInt = s.stop.col
  row : r.row.toInt = s.stop.row
  cols : r.cols.toInt = s.course.cols
  rows : r.rows.toInt = -s.course.rows
  stepCol : r.stepCol.toInt = s.course.stepCol
  stepRow : r.stepRow.toInt = s.course.stepRow

/-- A marker in words is where a walk is. -/
structure Marker.IsAt (m : Marker) (v : Segment.Walker) : Prop where
  col : m.col.toInt = v.cell.col
  row : m.row.toInt = v.cell.row
  err : m.err.toInt = v.err

include hstart hstop

theorem isAlong_between {col row col' row' : Int64} (hcol : col.toInt = s.start.col) (hrow : row.toInt = s.start.row)
    (hcol' : col'.toInt = s.stop.col) (hrow' : row'.toInt = s.stop.row) :
    (Route.between col row col' row').IsAlong s := by
  simp only [Cell.IsSmall, abs_le] at hstart hstop
  have hcols : (col' - col).abs.toInt = s.course.cols := by
    have hsub : (col' - col).toInt = s.stop.col - s.start.col := by rw [toInt_sub (by omega), hcol, hcol']
    rw [toInt_abs (by omega), hsub]
    exact Int.abs_eq_natAbs _
  have hrows : (row' - row).abs.toInt = s.course.rows := by
    have hsub : (row' - row).toInt = s.stop.row - s.start.row := by rw [toInt_sub (by omega), hrow, hrow']
    rw [toInt_abs (by omega), hsub]
    exact Int.abs_eq_natAbs _
  have hstep {a b : Int64} {x y : ℤ} (ha : a.toInt = x) (hb : b.toInt = y) :
      (if a < b then (1 : Int64) else -1).toInt = if x < y then 1 else -1 := by
    simp only [Int64.lt_iff_toInt_lt, ha, hb]
    split <;> rfl
  have hdown : (-(row' - row).abs).toInt = -s.course.rows := by
    rw [toInt_neg (by rw [hrows]; dsimp only [Segment.course]; omega), hrows]
  exact ⟨hcol', hrow', hcols, hdown, hstep hcol hcol', hstep hrow hrow'⟩

/-- A turn in words is the turn of the walk. -/
theorem next?_after {r : Route} (hr : r.IsAlong s) {k : ℕ} (hk : k ≤ s.course.turns) {m : Marker}
    (hm : m.IsAt (s.course.after s.start (s.course.along k))) :
    match s.course.turn (s.course.after s.start (s.course.along k)) with
    | .moved next => ∃ m', r.next? m = some m' ∧ m'.IsAt next
    | _ => r.next? m = none := by
  have hsmall := Segment.isSmall_course hstart hstop
  have hturns : s.course.turns ≤ 2 ^ 59 := Nat.max_le.2 ⟨hsmall.cols, hsmall.rows⟩
  have herr := s.course.abs_err_le s.start k
  have hcell := Segment.isSmall_after hstart hstop hk
  have hcol := s.after_col_eq_stop_iff hk
  have hrow := s.after_row_eq_stop_iff hk
  generalize s.course.after s.start (s.course.along k) = v at *
  obtain ⟨err, ⟨x, y⟩, i, j⟩ := v
  obtain ⟨hmcol, hmrow, hmerr⟩ := hm
  obtain ⟨hrcol, hrrow, hrcols, hrrows, hrstep, hrstep'⟩ := hr
  have hcols := hsmall.cols
  have hrows := hsmall.rows
  have hstepCol := abs_le.1 hsmall.stepCol
  have hstepRow := abs_le.1 hsmall.stepRow
  dsimp only at hmcol hmrow hmerr hcol hrow herr
  simp only [Cell.IsSmall, abs_le] at hcell
  have herr' := abs_le.1 (show |err| ≤ 2 ^ 60 by omega)
  rw [← hrcol, ← hmcol, Int64.toInt_inj] at hcol
  rw [← hrrow, ← hmrow, Int64.toInt_inj] at hrow
  have htwice : (2 * m.err).toInt = 2 * err := by rw [toInt_two_mul (by omega), hmerr]
  have hdown : r.rows ≤ 2 * m.err ↔ -(s.course.rows : ℤ) ≤ 2 * err := by
    rw [Int64.le_iff_toInt_le, htwice, hrrows]
  have hacross : 2 * m.err ≤ r.cols ↔ 2 * err ≤ s.course.cols := by rw [Int64.le_iff_toInt_le, htwice, hrcols]
  have hcol' : (m.col + r.stepCol).toInt = x + s.course.stepCol := by rw [toInt_add (by omega), hmcol, hrstep]
  have hrow' : (m.row + r.stepRow).toInt = y + s.course.stepRow := by rw [toInt_add (by omega), hmrow, hrstep']
  have hup : (m.err + r.rows).toInt = err - s.course.rows := by
    rw [toInt_add (by omega), hmerr, hrrows, Int.sub_eq_add_neg]
  simp only [Route.next?, Segment.Course.turn, hcol, hrow, hdown, hacross]
  by_cases harrived : i = 0 ∧ j = 0
  · rw [if_pos harrived, if_pos harrived]
  rw [if_neg harrived, if_neg harrived]
  by_cases hcolumn : -(s.course.rows : ℤ) ≤ 2 * err
  · rw [if_pos hcolumn, if_pos hcolumn]
    cases i with
    | zero => rfl
    | succ i =>
      simp only [Nat.add_one_ne_zero, if_false]
      by_cases hline : 2 * err ≤ s.course.cols
      · rw [if_pos hline, if_pos hline]
        cases j with
        | zero => rfl
        | succ j =>
          refine ⟨_, rfl, hcol', hrow', ?_⟩
          dsimp only
          rw [toInt_add (by omega), hup, hrcols]
      · rw [if_neg hline, if_neg hline]
        exact ⟨_, rfl, hcol', hmrow, hup⟩
  · -- The error is below zero, so the rows are not the only ones that could be stepped on.
    have hline : 2 * err ≤ s.course.cols := by omega
    rw [if_neg hcolumn, if_neg hcolumn, if_pos hline]
    cases j with
    | zero => rfl
    | succ j =>
      refine ⟨_, rfl, hmcol, hrow', ?_⟩
      dsimp only
      rw [toInt_add (by omega), hmerr, hrcols]

end

/-- The words of one turn are the next stage of an octant. -/
theorem toInt_of_next? {radius : ℕ} (hradius : radius ≤ 2 ^ 57) {s t : Circle.Stage} (hs : s.Follows radius)
    (hnext : s.next? = some t) {x y p : Int64} (hx : x.toInt = s.x) (hy : y.toInt = s.y) (hp : p.toInt = s.p) :
    let x' := if p ≤ 0 then x else x - 1
    let p' := if p ≤ 0 then p + (2 * (y + 1) + 1) else p + (2 * (y + 1) - 2 * x' + 1)
    x'.toInt = t.x ∧ (y + 1).toInt = t.y ∧ p'.toInt = t.p := by
  intro x' p'
  obtain ⟨hlt, hty, htx⟩ := Circle.Stage.next?_eq_some hnext
  have hsx := hs.x_le
  have hsp := abs_le.1 hs.abs_p_le
  have hone : (1 : Int64).toInt = 1 := rfl
  have hpsign : p ≤ 0 ↔ s.p ≤ 0 := by rw [Int64.le_iff_toInt_le, hp, Int64.toInt_zero]
  have hy' : (y + 1).toInt = t.y := by
    rw [toInt_add (by omega), hy, hone, hty]
    rfl
  have htwice : (2 * (y + 1)).toInt = 2 * t.y := by rw [toInt_two_mul (by omega), hy']
  rcases htx with ⟨hle, htx, htp⟩ | ⟨hgt, htx, htp⟩
  · have hx' : x' = x := if_pos (hpsign.2 hle)
    have hp' : p' = p + (2 * (y + 1) + 1) := if_pos (hpsign.2 hle)
    have hodd : (2 * (y + 1) + 1).toInt = 2 * t.y + 1 := by rw [toInt_add (by omega), htwice, hone]
    refine ⟨by rw [hx', hx, htx], hy', ?_⟩
    rw [hp', toInt_add (by omega), hp, hodd]
    omega
  · have hpos : ¬ p ≤ 0 := fun h => absurd (hpsign.1 h) (not_le.2 hgt)
    have hx' : x'.toInt = t.x := by
      rw [show x' = x - 1 from if_neg hpos, toInt_sub (by omega), hx, hone]
      omega
    have hp' : p' = p + (2 * (y + 1) - 2 * x' + 1) := if_neg hpos
    have htwice' : (2 * x').toInt = 2 * t.x := by rw [toInt_two_mul (by omega), hx']
    have heven : (2 * (y + 1) - 2 * x').toInt = 2 * t.y - 2 * t.x := by rw [toInt_sub (by omega), htwice, htwice']
    have hodd : (2 * (y + 1) - 2 * x' + 1).toInt = 2 * t.y - 2 * t.x + 1 := by rw [toInt_add (by omega), heven, hone]
    refine ⟨hx', hy', ?_⟩
    rw [hp', toInt_add (by omega), hp, hodd]
    omega

/-! ## Pens -/

/-- The sides are far from the limits of doubles, and the indices of pixels are words. -/
structure IsSmall (f : Framebuffer) : Prop where
  width_le : f.width.toNat ≤ 2 ^ 50
  height_le : f.height.toNat ≤ 2 ^ 50
  area_lt : f.width.toNat * f.height.toNat < 2 ^ 64

variable {f : Framebuffer} (hf : f.IsSmall)
include hf

/-- One pixel. -/
theorem paints_write {col row : UInt64} (hcol : col < f.width) (hrow : row < f.height) :
    Paints f (fun pixels => write? f.ink pixels (row * f.width + col).toNat) [Box.single ⟨col.toNat, row.toNat⟩] := by
  intro c hraster hink
  have hw : c.width = f.width.toNat := congrArg Raster.width hraster
  have hh : c.height = f.height.toNat := congrArg Raster.height hraster
  obtain ⟨hindex, hlt⟩ := toNat_index hf.area_lt hcol hrow
  rw [UInt64.lt_iff_toNat_lt] at hcol hrow
  have hlt' : row.toNat * c.width + col.toNat < c.pixels.size := by
    rw [c.size_pixels, hw, hh, ← hindex]
    exact hlt
  have hpaint : (c.paint [Box.single ⟨col.toNat, row.toNat⟩]).pixels =
      Canvas.fillRows c.ink c.width 1 c.pixels (row.toNat * c.width + col.toNat) 1 := by
    have hcols : min ((col.toNat : ℤ) + 1).toNat c.width - col.toNat = 1 := by omega
    have hrows : min ((row.toNat : ℤ) + 1).toNat c.height - row.toNat = 1 := by omega
    simp only [Canvas.paint, List.foldl_cons, List.foldl_nil, Canvas.paintBox, Box.single, hcols, hrows, one_ne_zero,
      if_false, Int.toNat_natCast]
  rw [hpaint, hindex, ← hw, ← hink]
  simp only [Canvas.fillRows, Canvas.fillRun, write?, dif_pos hlt', Array.setIfInBounds]

/-- One cell, which may lie off the raster. -/
theorem paints_put (col row : Int64) : Paints f (f.put col row) [Box.single ⟨col.toInt, row.toInt⟩] := by
  have hword {a : Int64} (ha : 0 ≤ a) : (a.toUInt64.toNat : ℤ) = a.toInt := by
    rw [Int64.toNat_toUInt64_of_le ha]
    exact Int.toNat_of_nonneg (Int64.le_iff_toInt_le.1 ha)
  unfold put
  split
  · next hon =>
    have hcell := paints_write hf hon.2.2.1 hon.2.2.2
    rwa [hword hon.1, hword hon.2.1] at hcell
  · next hoff =>
    refine Paints.skip_of_not_mem fun x y hx hy b hb => ?_
    obtain rfl := List.mem_singleton.1 hb
    rintro ⟨hleft, hright, htop, hbottom⟩
    dsimp only [Box.single] at hleft hright htop hbottom
    have hcol : 0 ≤ col := Int64.le_iff_toInt_le.2 (by rw [Int64.toInt_zero]; omega)
    have hrow : 0 ≤ row := Int64.le_iff_toInt_le.2 (by rw [Int64.toInt_zero]; omega)
    have hcol' := hword hcol
    have hrow' := hword hrow
    exact hoff ⟨hcol, hrow, UInt64.lt_iff_toNat_lt.2 (by omega), UInt64.lt_iff_toNat_lt.2 (by omega)⟩

/-- The side of the pen. -/
theorem toInt_side_bounds :
    f.side.toInt = f.toRaster.penSide f.penSize ∧ 1 ≤ f.toRaster.penSide f.penSize ∧
      f.toRaster.penSide f.penSize ≤ 2 ^ 50 := by
  obtain ⟨hone, hle⟩ := Segment.penSide_bounds f.toRaster f.penSize
  have hwidth := hf.width_le
  have hheight := hf.height_le
  have hraster : f.toRaster.width = f.width.toNat ∧ f.toRaster.height = f.height.toNat := ⟨rfl, rfl⟩
  exact ⟨toInt_side (by omega) (by omega), hone, hle.trans (by omega)⟩

theorem paints_stamp {col row : Int64} {c : Cell} (hcol : col.toInt = c.col) (hrow : row.toInt = c.row) (hc : c.IsSmall) :
    Paints f (f.stamp col row) [Box.pen (f.toRaster.penSide f.penSize) c] := by
  obtain ⟨hside, hone, hle⟩ := toInt_side_bounds hf
  obtain ⟨hsmall, hsmall'⟩ := hc
  rw [abs_le] at hsmall hsmall'
  have honeWord : (1 : Int64).toInt = 1 := rfl
  have hless : (f.side - 1).toInt = f.side.toInt - 1 := toInt_sub (by omega)
  have hbefore : ((f.side - 1) / 2).toInt = (f.side.toInt - 1) / 2 := by rw [toInt_half (by omega), hless]
  have hcount : f.side.toNatClampNeg = f.toRaster.penSide f.penSize := by
    rw [Int64.toNatClampNeg, hside, Int.toNat_natCast]
  generalize f.toRaster.penSide f.penSize = side at *
  -- A coordinate of the square on both axes.
  have haxis {a : Int64} {z : ℤ} (ha : a.toInt = z) (hz : -2 ^ 58 ≤ z ∧ z ≤ 2 ^ 58) {k : ℕ} (hk : k < side) :
      (a - (f.side - 1) / 2 + Int64.ofNat k).toInt = z - (side - 1) / 2 + k := by
    have hsub : (a - (f.side - 1) / 2).toInt = z - (side - 1) / 2 := by
      rw [toInt_sub (by omega), ha, hbefore, hside]
    have hofNat : (Int64.ofNat k).toInt = k := Int64.toInt_ofNat_of_lt (by omega)
    rw [toInt_add (by omega), hsub, hofNat]
  have hloop : Paints f (f.stamp col row) _ := Paints.sweep fun dy _ hdy => Paints.sweep fun dx _ hdx =>
    paints_put hf (col - (f.side - 1) / 2 + Int64.ofNat dx) (row - (f.side - 1) / 2 + Int64.ofNat dy)
  refine hloop.congr fun x y _ _ => ?_
  rw [hcount]
  simp only [List.mem_flatMap, List.mem_range'_1, List.mem_singleton, Nat.zero_le, true_and, Nat.zero_add,
    exists_eq_left]
  rw [Box.mem_pen_iff hone]
  constructor
  · rintro ⟨b, ⟨dy, hdy, dx, hdx, rfl⟩, hmem⟩
    obtain ⟨hleft, hright, htop, hbottom⟩ := hmem
    dsimp only [Box.single] at hleft hright htop hbottom
    rw [haxis hcol hsmall hdx] at hleft hright
    rw [haxis hrow hsmall' hdy] at htop hbottom
    dsimp only
    omega
  · dsimp only
    intro hmem
    refine ⟨_, ⟨(y - c.row + (side - 1) / 2 : ℤ).toNat, by omega, (x - c.col + (side - 1) / 2 : ℤ).toNat, by omega, rfl⟩, ?_⟩
    have hx := haxis hcol hsmall (k := (x - c.col + (side - 1) / 2 : ℤ).toNat) (by omega)
    have hy := haxis hrow hsmall' (k := (y - c.row + (side - 1) / 2 : ℤ).toNat) (by omega)
    rw [hx, hy]
    refine ⟨?_, ?_, ?_, ?_⟩ <;> dsimp only [Box.single] <;> omega

/-! ## Lines -/

section
variable {s : Segment} (hstart : s.start.IsSmall) (hstop : s.stop.IsSmall)
include hstart hstop

/-- From any turn on, the pen is put on the cells of the turns that follow. -/
theorem paints_strokeFrom {r : Route} (hr : r.IsAlong s) {k rest n : ℕ} (h : k + rest = s.course.turns) (hn : rest < n)
    {m : Marker} (hm : m.IsAt (s.course.after s.start (s.course.along k))) :
    Paints f (fun pixels => f.strokeFrom r m pixels n) ((List.range' k (rest + 1)).map fun k =>
      Box.pen (f.toRaster.penSide f.penSize) (s.course.after s.start (s.course.along k)).cell) := by
  -- On the turns that are left; the closed form keeps the cells small at each of them.
  induction rest generalizing k m n with
  | zero =>
    obtain ⟨n, rfl⟩ := Nat.exists_eq_succ_of_ne_zero hn.ne'
    obtain rfl : k = s.course.turns := h
    have hnext := next?_after hstart hstop hr le_rfl hm
    rw [Segment.Course.turn_after_turns] at hnext
    have hstamp := paints_stamp hf hm.col hm.row (Segment.isSmall_after hstart hstop le_rfl)
    refine (hstamp.bind (b := fun pixels => _) ?_).congr fun _ _ _ _ => Iff.rfl
    simp only [hnext]
    exact .skip
  | succ rest ih =>
    obtain ⟨n, rfl⟩ := Nat.exists_eq_succ_of_ne_zero (Nat.zero_lt_of_lt hn).ne'
    have hnext := next?_after hstart hstop hr (by omega) hm
    rw [Segment.Course.turn_after_along _ _ (by omega)] at hnext
    obtain ⟨m', hm', hat⟩ := hnext
    have hstamp := paints_stamp hf hm.col hm.row (Segment.isSmall_after hstart hstop (by omega))
    rw [List.range'_succ, List.map_cons]
    refine hstamp.bind (b := fun pixels => _) ?_
    simp only [hm']
    exact ih (by omega) (Nat.lt_of_succ_lt_succ hn) hat

end

/-- What can be seen of a segment is what the clipping leaves of it, before that is rounded. -/
theorem map_visible? (s : Segment) :
    (f.visible? s.start.toPoint s.stop.toPoint).map (fun v => ⟨.nearest v.start, .nearest v.stop⟩) =
      s.clip f.toRaster (f.toRaster.penSide f.penSize) := by
  have hside := (toInt_side_bounds hf).1
  simp only [visible?, Segment.clip, hside, Option.bind_eq_bind, Option.map_eq_bind, Option.bind_assoc]
  rfl

theorem paints_strokeLine {s : Segment}
    (hends : ∀ v, f.visible? s.start.toPoint s.stop.toPoint = some v → v.start.IsSmall ∧ v.stop.IsSmall) :
    Paints f (f.strokeLine s.start.toPoint s.stop.toPoint) (s.stroke f.toRaster (f.toRaster.penSide f.penSize)) := by
  have hclip := map_visible? hf s
  unfold strokeLine
  cases hvisible : f.visible? s.start.toPoint s.stop.toPoint with
  | none =>
    rw [hvisible] at hclip
    rw [Segment.stroke, ← hclip]
    exact .skip
  | some v =>
    obtain ⟨hstart, hstop⟩ := hends v hvisible
    rw [hvisible, Option.map_some] at hclip
    let t : Segment := ⟨.nearest v.start, .nearest v.stop⟩
    have hword {x : Float} (hx : (value? x).isSome) (hsmall : |nearestInt x| ≤ 2 ^ 58) :
        (toSignedWord (nearestWhole x)).toInt = nearestInt x := by
      rw [abs_le] at hsmall
      rw [toInt_toSignedWord_nearestWhole hx]
      omega
    have hcol := hword hstart.x hstart.cell.1
    have hrow := hword hstart.y hstart.cell.2
    have hcol' := hword hstop.x hstop.cell.1
    have hrow' := hword hstop.y hstop.cell.2
    have hroute := isAlong_between (s := t) hstart.cell hstop.cell hcol hrow hcol' hrow'
    have hsmall := Segment.isSmall_course (s := t) hstart.cell hstop.cell
    have hcols := hsmall.cols
    have hrows := hsmall.rows
    rw [Segment.stroke, ← hclip]
    dsimp only
    rw [Segment.walk_eq_map, List.map_map, List.range_eq_range']
    refine paints_strokeFrom hf (s := t) hstart.cell hstop.cell hroute (Nat.zero_add _) ?_ ?_
    · rw [hcol, hrow, hcol', hrow']
      show max (nearestInt v.stop.x - nearestInt v.start.x).natAbs
        (nearestInt v.stop.y - nearestInt v.start.y).natAbs < _
      omega
    · rw [t.after_zero]
      refine ⟨hcol, hrow, ?_⟩
      dsimp only
      rw [toInt_add (by rw [hroute.cols, hroute.rows]; omega), hroute.cols, hroute.rows, Int.sub_eq_add_neg]

/-! ## Outlines -/

section
variable {center : Cell} (hcenter : |center.col| ≤ 2 ^ 57 ∧ |center.row| ≤ 2 ^ 57) {col row : Int64}
  (hcol : col.toInt = center.col) (hrow : row.toInt = center.row)
include hcenter hcol hrow

theorem paints_stampReflections {x y : Int64} {a b : ℕ} (hx : x.toInt = a) (hy : y.toInt = b) (ha : a ≤ 2 ^ 57)
    (hb : b ≤ 2 ^ 57) :
    Paints f (f.stampReflections col row x y)
      ((Circle.reflections center a b).map (Box.pen (f.toRaster.penSide f.penSize))) := by
  simp only [abs_le] at hcenter
  have hsmall {z w : ℤ} (hz : -2 ^ 58 ≤ z ∧ z ≤ 2 ^ 58) (hw : -2 ^ 58 ≤ w ∧ w ≤ 2 ^ 58) : (⟨z, w⟩ : Cell).IsSmall :=
    ⟨abs_le.2 hz, abs_le.2 hw⟩
  have hadd {u v : Int64} {z : ℤ} {n : ℕ} (hu : u.toInt = z) (hv : v.toInt = n) (hz : -2 ^ 57 ≤ z ∧ z ≤ 2 ^ 57)
      (hn : n ≤ 2 ^ 57) : (u + v).toInt = z + n := by rw [toInt_add (by omega), hu, hv]
  have hsub {u v : Int64} {z : ℤ} {n : ℕ} (hu : u.toInt = z) (hv : v.toInt = n) (hz : -2 ^ 57 ≤ z ∧ z ≤ 2 ^ 57)
      (hn : n ≤ 2 ^ 57) : (u - v).toInt = z - n := by rw [toInt_sub (by omega), hu, hv]
  have hright := hadd hcol hx hcenter.1 ha
  have hleft := hsub hcol hx hcenter.1 ha
  have hbelow := hadd hrow hy hcenter.2 hb
  have habove := hsub hrow hy hcenter.2 hb
  have hright' := hadd hcol hy hcenter.1 hb
  have hleft' := hsub hcol hy hcenter.1 hb
  have hbelow' := hadd hrow hx hcenter.2 ha
  have habove' := hsub hrow hx hcenter.2 ha
  exact (paints_stamp hf hright hbelow (hsmall (by omega) (by omega))).bind <|
    (paints_stamp hf hleft hbelow (hsmall (by omega) (by omega))).bind <|
    (paints_stamp hf hright habove (hsmall (by omega) (by omega))).bind <|
    (paints_stamp hf hleft habove (hsmall (by omega) (by omega))).bind <|
    (paints_stamp hf hright' hbelow' (hsmall (by omega) (by omega))).bind <|
    (paints_stamp hf hleft' hbelow' (hsmall (by omega) (by omega))).bind <|
    (paints_stamp hf hright' habove' (hsmall (by omega) (by omega))).bind <|
    paints_stamp hf hleft' habove' (hsmall (by omega) (by omega))

/-- From any stage on, the pen is put on the reflections of the stages that follow. -/
theorem paints_strokeOctant {radius : ℕ} (hradius : radius ≤ 2 ^ 57) {s : Circle.Stage} (hs : s.Follows radius)
    {x y p : Int64} (hx : x.toInt = s.x) (hy : y.toInt = s.y) (hp : p.toInt = s.p) {n : ℕ} (hn : s.x ≤ n + s.y) :
    Paints f (fun pixels => f.strokeOctant col row x y p pixels n)
      ((Circle.stagesFrom s).tail.flatMap fun t =>
        (Circle.reflections center t.x t.y).map (Box.pen (f.toRaster.penSide f.penSize))) := by
  induction s using Circle.Stage.induction generalizing x y p n with
  | stop s hnext =>
    rw [Circle.stagesFrom_of_none hnext]
    have hlt : ¬ y < x := by
      rw [Int64.lt_iff_toInt_lt, hx, hy]
      exact_mod_cast not_lt.2 (Circle.Stage.next?_eq_none.1 hnext)
    cases n with
    | zero => exact .skip
    | succ n =>
      simp only [strokeOctant, if_neg hlt]
      exact .skip
  | step s t hnext ih =>
    obtain ⟨hlt, hty, htx⟩ := Circle.Stage.next?_eq_some hnext
    have ht := hs.next hnext
    obtain ⟨n, rfl⟩ := Nat.exists_eq_succ_of_ne_zero (show n ≠ 0 by omega)
    have hlt' : y < x := by
      rw [Int64.lt_iff_toInt_lt, hx, hy]
      exact_mod_cast hlt
    have hsx := hs.x_le
    obtain ⟨hx', hy', hp'⟩ := toInt_of_next? hradius hs hnext hx hy hp
    rw [Circle.stagesFrom_of_some hnext, List.tail_cons, Circle.stagesFrom_eq_cons, List.flatMap_cons]
    simp only [strokeOctant, if_pos hlt']
    exact (paints_stampReflections hf hcenter hcol hrow hx' hy' (by omega) (by omega)).bind
      (ih ht hx' hy' hp' (by omega))

theorem paints_strokeOutline {radius : ℕ} (hradius : radius ≤ 2 ^ 57) {r : Int64} (hr : r.toInt = radius) :
    Paints f (f.strokeOutline col row r)
      ((Circle.outline ⟨center, radius⟩).map (Box.pen (f.toRaster.penSide f.penSize))) := by
  have hone : (1 : Int64).toInt = 1 := rfl
  have hstart := paints_stampReflections hf hcenter hcol hrow hr (b := 0) Int64.toInt_zero hradius (Nat.zero_le _)
  have hrest := paints_strokeOctant hf hcenter hcol hrow hradius (Circle.follows_start radius) hr (y := 0)
    Int64.toInt_zero (p := 1 - r) (by rw [toInt_sub (by omega), hr, hone]) (n := r.toNatClampNeg)
    (by rw [Int64.toNatClampNeg, hr]; dsimp only; omega)
  have hoctant : Circle.octant radius = (Circle.stagesFrom ⟨radius, 0, 1 - radius⟩).map Circle.Stage.point :=
    Circle.octant_eq_map radius
  rw [Circle.stagesFrom_eq_cons] at hoctant
  rw [Circle.outline, hoctant, List.map_flatMap, List.map_cons, List.flatMap_cons, List.flatMap_map]
  exact hstart.bind hrest

end

end Framebuffer

end Easel
