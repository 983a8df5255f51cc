import Easel.Canvas.Framebuffer
import Easel.Canvas.Preview
import Easel.Proofs.Canvas.Saturation

/-!
# Bounds

A shape fills runs of pixels, one for each row of each of its boxes (`Box.runs`, `Canvas.runs`). The fills of
`Canvas.fillRun` pass over what is not there; those of `Canvas.fill?` refuse a run that is inverted or not
within the buffer. Every run lies in one row of the raster (`Box.fits_of_mem_runs`), so no fill is refused and
both leave the same pixels (`Canvas.pixels?_eq`).

A pixel at a column and a row is there if they are on the raster (`Canvas.pixel?_eq_some`), and a point has a
sample if its cell is (`Canvas.isSome_sample?_iff`).
-/

namespace Easel

/-! ## Runs -/

/-- The run is not inverted and lies in one row of the raster. -/
def Run.Fits (r : Raster) (run : Run) : Prop :=
  run.first ≤ run.last ∧ ∃ row < r.height, row * r.width ≤ run.first ∧ run.last < (row + 1) * r.width

theorem Run.Fits.last_lt {r : Raster} {run : Run} (h : run.Fits r) : run.last < r.width * r.height := by
  obtain ⟨-, row, hrow, -, hlast⟩ := h
  calc
    run.last < (row + 1) * r.width := hlast
    _ ≤ r.height * r.width := Nat.mul_le_mul_right _ hrow
    _ = r.width * r.height := Nat.mul_comm _ _

/-- The runs of pixels that a box has on a raster, one for each row. -/
def Box.runs (r : Raster) (b : Box) : List Run :=
  let left := max 0 b.left
  let right := min b.right ((r.width : Int) - 1)
  let top := max 0 b.top
  let bottom := min b.bottom ((r.height : Int) - 1)
  if right < left ∨ bottom < top then []
  else (List.range' top.toNat (bottom + 1 - top).toNat).map fun row =>
    ⟨row * r.width + left.toNat, row * r.width + right.toNat⟩

theorem Box.fits_of_mem_runs {r : Raster} {b : Box} {run : Run} (h : run ∈ b.runs r) : run.Fits r := by
  rw [Box.runs] at h
  split at h
  · exact absurd h List.not_mem_nil
  · next hmeets =>
    obtain ⟨row, hrow, rfl⟩ := List.mem_map.1 h
    rw [List.mem_range'_1] at hrow
    refine ⟨?_, row, ?_, ?_, ?_⟩
    · show row * r.width + _ ≤ row * r.width + _
      omega
    · omega
    · show row * r.width ≤ row * r.width + _
      omega
    · show row * r.width + _ < (row + 1) * r.width
      rw [Nat.succ_mul]
      omega

/-- A box over a corner of the raster has runs where it meets it. -/
example : (⟨-3, -3, 1, 1⟩ : Box).runs ⟨4, 3⟩ = [⟨0, 1⟩, ⟨4, 5⟩] := by decide

namespace Canvas

/-! ## Checked fills -/

/-- A fill keeps the size of the buffer, so runs within it at the start are within it when their turn comes. -/
theorem foldlM_fill? (gray : UInt8) {pixels : Array UInt8} {runs : List Run}
    (h : ∀ run ∈ runs, run.first ≤ run.last ∧ run.last < pixels.size) :
    runs.foldlM (fill? gray) pixels = some (runs.foldl (fill gray) pixels) := by
  induction runs generalizing pixels with
  | nil => rfl
  | cons run runs ih =>
    have hsize : (fill gray pixels run).size = pixels.size := size_fillRun _ _ _ _
    have hrun : fill? gray pixels run = some (fill gray pixels run) := if_pos (h run List.mem_cons_self)
    rw [List.foldlM_cons, hrun, Option.bind_eq_bind, Option.bind_some, List.foldl_cons]
    exact ih fun run' hrun' => hsize ▸ h run' (List.mem_cons_of_mem run hrun')

theorem fillRows_eq_foldl (gray : UInt8) (width left length : Nat) (pixels : Array UInt8) (top count : Nat) :
    fillRows gray width length pixels (top * width + left) count =
      (List.range' top count).foldl (fun pixels row => fillRun gray pixels (row * width + left) length) pixels := by
  induction count generalizing pixels top with
  | zero => rfl
  | succ n ih =>
    have hnext : top * width + left + width = (top + 1) * width + left := by
      rw [Nat.succ_mul]
      omega
    rw [fillRows, hnext, ih, List.range'_succ, List.foldl_cons]

/-- How many of the first `n` indices lie from `a` to `b`. -/
theorem toNat_clip (a b : Int) (n : Nat) :
    (min b ((n : Int) - 1) + 1 - max 0 a).toNat = min (b + 1).toNat n - a.toNat := by
  omega

theorem pixels_paintBox (c : Canvas) (b : Box) :
    (c.paintBox b).pixels = (b.runs c.toRaster).foldl (fill c.ink) c.pixels := by
  have hpixels : (c.paintBox b).pixels = fillRows c.ink c.width (min (b.right + 1).toNat c.width - b.left.toNat)
      c.pixels (b.top.toNat * c.width + b.left.toNat)
      (if min (b.right + 1).toNat c.width - b.left.toNat = 0 then 0
        else min (b.bottom + 1).toNat c.height - b.top.toNat) := rfl
  have hleft : b.left.toNat = (max 0 b.left).toNat := by omega
  have htop : b.top.toNat = (max 0 b.top).toNat := by omega
  have hnonneg : 0 ≤ max 0 b.left := Int.le_max_left 0 b.left
  rw [hpixels, fillRows_eq_foldl, ← toNat_clip, ← toNat_clip, hleft, htop, Box.runs]
  generalize max 0 b.left = left at hnonneg
  generalize min b.right ((c.width : Int) - 1) = right
  generalize max 0 b.top = top
  generalize min b.bottom ((c.height : Int) - 1) = bottom
  by_cases hmeets : right < left ∨ bottom < top
  · have hcount : (if (right + 1 - left).toNat = 0 then 0 else (bottom + 1 - top).toNat) = 0 := by
      split <;> omega
    rw [hcount, if_pos hmeets]
    rfl
  · have hlength : (right + 1 - left).toNat ≠ 0 := by omega
    have hspan (row : Nat) : row * c.width + right.toNat + 1 - (row * c.width + left.toNat) =
        (right + 1 - left).toNat := by omega
    rw [if_neg hlength, if_neg hmeets, List.foldl_map]
    simp only [fill, hspan]

theorem pixels_paint (c : Canvas) (boxes : List Box) :
    (c.paint boxes).pixels = (boxes.flatMap (Box.runs c.toRaster)).foldl (fill c.ink) c.pixels := by
  induction boxes generalizing c with
  | nil => rfl
  | cons b bs ih =>
    have hcons : c.paint (b :: bs) = (c.paintBox b).paint bs := rfl
    rw [hcons, ih, pixels_paintBox, List.flatMap_cons, List.foldl_append, toRaster_paintBox, ink_paintBox]

/-- The runs of pixels that a call fills. Paper is not filled but laid over the raster. -/
def runs (c : Canvas) : Call → List Run
  | .shape s => (s.footprint c.toRaster c.side).flatMap (Box.runs c.toRaster)
  | _ => []

theorem fits_of_mem_runs {c : Canvas} {call : Call} {run : Run} (h : run ∈ c.runs call) :
    run.Fits c.toRaster := by
  cases call with
  | shape s =>
    obtain ⟨b, -, hrun⟩ := List.mem_flatMap.1 h
    exact Box.fits_of_mem_runs hrun
  | _ => exact absurd h List.not_mem_nil

theorem last_lt_of_mem_runs {c : Canvas} {call : Call} {run : Run} (h : run ∈ c.runs call) :
    run.last < c.pixels.size :=
  c.size_pixels ▸ (fits_of_mem_runs h).last_lt

/-- What a call leaves of the pixels, with fills that may be refused. -/
def pixels? (c : Canvas) : Call → Option (Array UInt8)
  | .paper level => some (c.cover (Level.gray level)).pixels
  | call => (c.runs call).foldlM (fill? c.ink) c.pixels

theorem pixels?_eq (c : Canvas) (call : Call) : c.pixels? call = some (Surface.apply c call).pixels := by
  cases call with
  | shape s =>
    have hruns : ∀ run ∈ c.runs (.shape s), run.first ≤ run.last ∧ run.last < c.pixels.size := fun _ hrun =>
      ⟨(fits_of_mem_runs hrun).1, last_lt_of_mem_runs hrun⟩
    exact (foldlM_fill? c.ink hruns).trans (congrArg some (pixels_paint c _).symm)
  | _ => rfl

/-! ## Reading -/

theorem pixel?_eq_some (c : Canvas) {col row : Nat} (hcol : col < c.width) (hrow : row < c.height) :
    ∃ h : row * c.width + col < c.pixels.size, c.pixel? col row = some c.pixels[row * c.width + col] := by
  have hindex : row * c.width + col < c.pixels.size := c.size_pixels ▸ index_lt hcol hrow
  exact ⟨hindex, by rw [pixel?, if_pos ⟨hcol, hrow⟩, Array.getElem?_eq_getElem hindex]⟩

theorem isSome_sample?_iff (c : Canvas) (p : Point) :
    (c.sample? p).isSome ↔
      ∃ col row : Nat, c.cell? p = some ⟨col, row⟩ ∧ col < c.width ∧ row < c.height := by
  rw [sample?]
  cases hcell : c.cell? p with
  | none => simp
  | some cell =>
    obtain ⟨x, y⟩ := cell
    rw [Option.bind_eq_bind, Option.bind_some]
    dsimp only
    split
    · next hneg =>
      refine iff_of_false Bool.false_ne_true ?_
      rintro ⟨col, row, hxy, -, -⟩
      cases hxy
      omega
    · next hnonneg =>
      rw [isSome_pixel?_iff]
      constructor
      · rintro ⟨hcol, hrow⟩
        refine ⟨x.toNat, y.toNat, ?_, hcol, hrow⟩
        rw [Int.toNat_of_nonneg (by omega), Int.toNat_of_nonneg (by omega)]
      · rintro ⟨col, row, hxy, hcol, hrow⟩
        cases hxy
        exact ⟨hcol, hrow⟩

theorem mul_lt_of_lt_ceilDiv {a b i : Nat} (h : i < ceilDiv a b) : i * b < a := by
  have hle := Nat.mul_le_of_le_div b (i + 1) (a + b - 1) h
  rw [Nat.succ_mul] at hle
  rcases Nat.eq_zero_or_pos b with rfl | hb
  · rw [ceilDiv, Nat.div_zero] at h
    omega
  · omega

end Canvas

end Easel
