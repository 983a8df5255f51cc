import Easel.Canvas
import Mathlib.Logic.Basic

/-!
# Shapes on a canvas

`Canvas.getElem?_fillRows`, `Canvas.pixel?_paintBox` and `Canvas.pixel?_paint` say what each layer of painting
leaves at a column and a row. A canvas is its size, its pen, its ink and its pixels (`Canvas.ext_pixel?`), so
equations between canvases are read off pixel by pixel.

A shape turns the pixels that it inks into the ink (`Canvas.pixel?_apply_shape`) and changes nothing else. Which
pixels it inks (`Shape.Inks`) is up to the raster, the size of the pen and the shape, as a footprint has it.
-/

namespace Easel

/-- The shape inks this pixel of the raster, if the pen has this size. -/
def Shape.Inks (r : Raster) (size : Float) (s : Shape) (col row : Nat) : Prop :=
  col < r.width ∧ row < r.height ∧ ∃ b ∈ s.footprint r (r.penSide size), (⟨col, row⟩ : Cell) ∈ b

instance (r : Raster) (size : Float) (s : Shape) (col row : Nat) : Decidable (s.Inks r size col row) :=
  inferInstanceAs (Decidable (_ ∧ _ ∧ _))

namespace Canvas

/-! ## Runs and rows -/

theorem getElem?_fillRun (gray : UInt8) (pixels : Array UInt8) (start count i : Nat) :
    (fillRun gray pixels start count)[i]? =
      if start ≤ i ∧ i < start + count then pixels[i]?.map fun _ => gray else pixels[i]? := by
  induction count generalizing pixels start with
  | zero => rw [fillRun, if_neg (by omega)]
  | succ n ih =>
    rw [fillRun, ih, Array.getElem?_setIfInBounds]
    by_cases hi : start = i
    · subst hi
      rw [if_neg (by omega), if_pos rfl, if_pos (show start ≤ start ∧ start < start + (n + 1) by omega)]
      by_cases hbound : start < pixels.size <;> simp [hbound]
    · rw [if_neg hi]
      exact if_congr (by omega) rfl rfl

/-- Rows do not overlap, so an index between two columns of one row lies in that row. -/
theorem mul_add_le_mul_add_iff {width left length col : Nat} (top row : Nat) (hleft : left + length ≤ width)
    (hcol : col < width) :
    top * width + left ≤ row * width + col ∧ row * width + col < top * width + left + length ↔
      row = top ∧ left ≤ col ∧ col < left + length := by
  rcases Nat.lt_trichotomy row top with h | rfl | h
  · have := Nat.mul_le_mul_right width (Nat.succ_le_of_lt h)
    rw [Nat.succ_mul] at this
    omega
  · omega
  · have := Nat.mul_le_mul_right width (Nat.succ_le_of_lt h)
    rw [Nat.succ_mul] at this
    omega

theorem getElem?_fillRows (gray : UInt8) {width left length col : Nat} (pixels : Array UInt8) (top count row : Nat)
    (hleft : left + length ≤ width) (hcol : col < width) :
    (fillRows gray width length pixels (top * width + left) count)[row * width + col]? =
      if (top ≤ row ∧ row < top + count) ∧ left ≤ col ∧ col < left + length then
        pixels[row * width + col]?.map fun _ => gray
      else pixels[row * width + col]? := by
  induction count generalizing pixels top with
  | zero => rw [fillRows, if_neg (by omega)]
  | succ n ih =>
    have hnext : top * width + left + width = (top + 1) * width + left := by
      rw [Nat.succ_mul]
      omega
    rw [fillRows, hnext, ih, getElem?_fillRun]
    simp only [mul_add_le_mul_add_iff top row hleft hcol]
    -- The first run fills the row `top` and the others the rows below, so one of the two conditions decides.
    by_cases hrow : row = top
    · subst hrow
      rw [if_neg (by omega)]
      exact if_congr (by omega) rfl rfl
    · simp only [hrow, false_and, if_false]
      exact if_congr (by omega) rfl rfl

/-! ## Pixels -/

theorem index_lt {width height col row : Nat} (hcol : col < width) (hrow : row < height) :
    row * width + col < width * height := by
  have := Nat.mul_le_mul_right width (Nat.succ_le_of_lt hrow)
  rw [Nat.succ_mul, Nat.mul_comm height] at this
  omega

theorem isSome_pixel?_iff (c : Canvas) (col row : Nat) :
    (c.pixel? col row).isSome ↔ col < c.width ∧ row < c.height := by
  rw [pixel?]
  split
  · next h => simpa [c.size_pixels, h] using index_lt h.1 h.2
  · next h => simpa using h

/-- Canvases of the same size, pen and ink are equal if they are so pixel by pixel. -/
theorem ext_pixel? {c d : Canvas} (hraster : c.toRaster = d.toRaster) (hpen : c.penSize = d.penSize)
    (hink : c.ink = d.ink) (hpixel : ∀ col row, c.pixel? col row = d.pixel? col row) : c = d := by
  obtain ⟨r, pixels, size, ink, hc⟩ := c
  obtain ⟨_, pixels', _, _, hd⟩ := d
  cases hraster
  cases hpen
  cases hink
  have hpixels : pixels = pixels' := by
    refine Array.ext (hc.trans hd.symm) fun i hi hi' => ?_
    -- Every index is that of a column and a row, unless there are no columns.
    have hwidth : 0 < r.width := by
      rcases Nat.eq_zero_or_pos r.width with h | h
      · rw [hc, h, Nat.zero_mul] at hi
        exact absurd hi (Nat.not_lt_zero i)
      · exact h
    have hcol := Nat.mod_lt i hwidth
    have hrow : i / r.width < r.height := Nat.div_lt_of_lt_mul (hc ▸ hi)
    have h := hpixel (i % r.width) (i / r.width)
    simp only [pixel?, hcol, hrow, and_self, if_true, Nat.div_add_mod'] at h
    simpa [hi, hi'] using h
  subst hpixels
  rfl

/-! ## Boxes -/

@[simp] theorem toRaster_paintBox (c : Canvas) (b : Box) : (c.paintBox b).toRaster = c.toRaster := rfl

@[simp] theorem penSize_paintBox (c : Canvas) (b : Box) : (c.paintBox b).penSize = c.penSize := rfl

@[simp] theorem ink_paintBox (c : Canvas) (b : Box) : (c.paintBox b).ink = c.ink := rfl

theorem pixel?_paintBox (c : Canvas) (b : Box) (col row : Nat) :
    (c.paintBox b).pixel? col row =
      if (⟨col, row⟩ : Cell) ∈ b then (c.pixel? col row).map fun _ => c.ink else c.pixel? col row := by
  by_cases hraster : col < c.width ∧ row < c.height
  · obtain ⟨hcol, hrow⟩ := hraster
    have hmem : (⟨col, row⟩ : Cell) ∈ b ↔ b.left ≤ col ∧ col ≤ b.right ∧ b.top ≤ row ∧ row ≤ b.bottom := Iff.rfl
    simp only [pixel?, toRaster_paintBox, hcol, hrow, and_self, if_true]
    by_cases hlength : min (b.right + 1).toNat c.width - b.left.toNat = 0
    · have hout : (⟨col, row⟩ : Cell) ∉ b := by
        rw [hmem]
        omega
      simp [paintBox, hlength, fillRows, hout]
    · simp only [paintBox, hlength, if_false]
      rw [getElem?_fillRows _ _ _ _ _ (by omega) hcol]
      exact if_congr (by rw [hmem]; omega) rfl rfl
  · simp [pixel?, hraster]

theorem frame_paint (c : Canvas) (boxes : List Box) :
    (c.paint boxes).toRaster = c.toRaster ∧ (c.paint boxes).penSize = c.penSize ∧ (c.paint boxes).ink = c.ink := by
  induction boxes generalizing c with
  | nil => exact ⟨rfl, rfl, rfl⟩
  | cons b bs ih => exact ih (c.paintBox b)

/-- Boxes may overlap: a pixel becomes the ink if it lies in any of them. -/
theorem pixel?_paint (c : Canvas) (boxes : List Box) (col row : Nat) :
    (c.paint boxes).pixel? col row =
      if ∃ b ∈ boxes, (⟨col, row⟩ : Cell) ∈ b then (c.pixel? col row).map fun _ => c.ink else c.pixel? col row := by
  induction boxes generalizing c with
  | nil => simp [paint]
  | cons b bs ih =>
    have hcons : c.paint (b :: bs) = (c.paintBox b).paint bs := rfl
    rw [hcons, ih, pixel?_paintBox]
    by_cases hb : (⟨col, row⟩ : Cell) ∈ b <;> by_cases hbs : ∃ b ∈ bs, (⟨col, row⟩ : Cell) ∈ b <;>
      simp [hb, hbs, Function.comp_def]

/-! ## Shapes -/

variable (c : Canvas) (s : Shape)

@[simp] theorem toRaster_apply_shape : (Surface.apply c (.shape s)).toRaster = c.toRaster :=
  (frame_paint c _).1

@[simp] theorem penSize_apply_shape : (Surface.apply c (.shape s)).penSize = c.penSize :=
  (frame_paint c _).2.1

@[simp] theorem ink_apply_shape : (Surface.apply c (.shape s)).ink = c.ink :=
  (frame_paint c _).2.2

theorem pixel?_apply_shape (col row : Nat) :
    (Surface.apply c (.shape s)).pixel? col row =
      if s.Inks c.toRaster c.penSize col row then some c.ink else c.pixel? col row := by
  have happly : Surface.apply c (.shape s) = c.paint (s.footprint c.toRaster c.side) := rfl
  rw [happly, pixel?_paint]
  by_cases hraster : col < c.width ∧ row < c.height
  · obtain ⟨gray, hgray⟩ := Option.isSome_iff_exists.1 ((isSome_pixel?_iff c col row).2 hraster)
    simp [Shape.Inks, hraster, side, hgray]
  · have hout : c.pixel? col row = none := by simp [pixel?, hraster]
    have hnot : ¬ s.Inks c.toRaster c.penSize col row := fun h => hraster ⟨h.1, h.2.1⟩
    simp [hout, hnot]

end Canvas

end Easel
