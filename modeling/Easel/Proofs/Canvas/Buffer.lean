import Mathlib.Algebra.Order.Floor.Div
import Easel.Proofs.Canvas.Inking
import Easel.Proofs.Number.Conversion

/-!
# Whole buffers

A framebuffer whose buffer has a pixel for each column and row (`Framebuffer.IsWhole`) stays so, whatever is called
(`exists_handle?`, `exists_foldlM_handle?`). While it is so, nothing is refused: no drawing, no pixel, no sample and no
preview (`exists_draw?`, `isSome_pixel?`, `isSome_sample?`, `isSome_preview?`).

`foldlM_handle?_blank` is this for a blank framebuffer and all calls, with the side of the pen. Sides have limits there:
their product has to be a word, both have to be words with a sign, and their doubles have to be exact.
`foldlM_handle?_blank_limits` shows what goes wrong beyond each of them.
-/

namespace Easel.Framebuffer

open Number
open Canvas (fill? sweep)

/-! ## Calls -/

/-- The buffer has a pixel for each column and row, and the sides are words with a sign. -/
structure IsWhole (f : Framebuffer) : Prop where
  fits : f.Fits f.pixels.size
  width_lt : f.width.toNat < 2 ^ 63
  height_lt : f.height.toNat < 2 ^ 63

theorem size_pixels_blank {width height : UInt64} (harea : width.toNat * height.toNat < 2 ^ 64) :
    (blank width height).pixels.size = width.toNat * height.toNat := by
  show (Array.replicate (width * height).toNat 255).size = _
  rw [Array.size_replicate, UInt64.toNat_mul, Nat.mod_eq_of_lt harea]

theorem isWhole_blank {width height : UInt64} (hwidth : width.toNat < 2 ^ 63) (hheight : height.toNat < 2 ^ 63)
    (harea : width.toNat * height.toNat < 2 ^ 64)
    (hsides : width.toNat * height.toNat = 0 ∨ width.toNat ≤ 2 ^ 53 ∧ height.toNat ≤ 2 ^ 53) :
    (blank width height).IsWhole where
  fits := by
    have hsize := size_pixels_blank harea
    refine ⟨hsize, hsize ▸ harea, fun hpos => ?_, fun hpos => ?_⟩
    · rcases hsides with hzero | ⟨hle, -⟩
      · have hwidth : width.toNat = 0 := (Nat.mul_eq_zero.1 hzero).resolve_right (Nat.pos_iff_ne_zero.1 hpos)
        exact hwidth.trans_le (Nat.zero_le _)
      · exact hle
    · rcases hsides with hzero | ⟨-, hle⟩
      · have hheight : height.toNat = 0 := (Nat.mul_eq_zero.1 hzero).resolve_left (Nat.pos_iff_ne_zero.1 hpos)
        exact hheight.trans_le (Nat.zero_le _)
      · exact hle
  width_lt := hwidth
  height_lt := hheight

/-- What no call changes. -/
structure SameSides (f g : Framebuffer) : Prop where
  width_eq : g.width = f.width
  height_eq : g.height = f.height
  size_eq : g.pixels.size = f.pixels.size

theorem SameSides.trans {f g g' : Framebuffer} (h : SameSides f g) (h' : SameSides g g') : SameSides f g' :=
  ⟨h'.width_eq.trans h.width_eq, h'.height_eq.trans h.height_eq, h'.size_eq.trans h.size_eq⟩

theorem IsWhole.of_sameSides {f g : Framebuffer} (hf : f.IsWhole) (h : SameSides f g) : g.IsWhole := by
  obtain ⟨hfits, hwidth, hheight⟩ := hf
  obtain ⟨hw, hh, hs⟩ := h
  exact ⟨⟨by rw [hs, hw, hh]; exact hfits.size_eq, by rw [hs]; exact hfits.size_lt, by rw [hw, hh]; exact hfits.width_le,
    by rw [hw, hh]; exact hfits.height_le⟩, by rwa [hw], by rwa [hh]⟩

theorem sameSides_of_draw? {f g : Framebuffer} {s : Shape} (h : f.draw? s = some g) : SameSides f g := by
  obtain ⟨S, hS, -⟩ := f.exists_writes_drawing f.pixels.size s
  obtain ⟨pixels, hpixels, rfl⟩ := Option.map_eq_some_iff.1 h
  cases S with
  | none =>
    have hnone : f.drawing f.pixels s = none := hS f f.pixels rfl
    rw [hnone] at hpixels
    cases hpixels
  | some S =>
    obtain ⟨after, hafter, hsize, -⟩ := hS f f.pixels rfl
    have hsome : f.drawing f.pixels s = some after := hafter
    rw [hsome, Option.some_inj] at hpixels
    exact ⟨rfl, rfl, hpixels ▸ hsize⟩

theorem sameSides_of_handle? {f g : Framebuffer} {call : Call} (h : f.handle? call = some g) : SameSides f g := by
  cases call with
  | pen size =>
    cases h
    exact ⟨rfl, rfl, rfl⟩
  | color level =>
    cases h
    exact ⟨rfl, rfl, rfl⟩
  | paper level =>
    cases h
    exact ⟨rfl, rfl, Array.size_replicate⟩
  | shape s => exact sameSides_of_draw? h

theorem sameSides_of_foldlM_handle? {f g : Framebuffer} {calls : List Call} (h : calls.foldlM handle? f = some g) :
    SameSides f g := by
  induction calls generalizing f with
  | nil =>
    cases h
    exact ⟨rfl, rfl, rfl⟩
  | cons call calls ih =>
    rw [List.foldlM_cons, Option.bind_eq_bind, Option.bind_eq_some_iff] at h
    obtain ⟨f', hf', h⟩ := h
    exact (sameSides_of_handle? hf').trans (ih h)

theorem exists_draw? {f : Framebuffer} (hf : f.IsWhole) (s : Shape) : ∃ g, f.draw? s = some g ∧ SameSides f g := by
  obtain ⟨S, hS, hsafe⟩ := f.exists_writes_drawing f.pixels.size s
  obtain ⟨S, rfl⟩ := Option.isSome_iff_exists.1 (hsafe hf.fits)
  obtain ⟨pixels, hpixels, -⟩ := hS f f.pixels rfl
  have hdraw : f.draw? s = some { f with pixels := pixels } := Option.map_eq_some_iff.2 ⟨pixels, hpixels, rfl⟩
  exact ⟨_, hdraw, sameSides_of_draw? hdraw⟩

theorem exists_handle? {f : Framebuffer} (hf : f.IsWhole) (call : Call) :
    ∃ g, f.handle? call = some g ∧ SameSides f g := by
  suffices ∃ g, f.handle? call = some g by
    obtain ⟨g, hg⟩ := this
    exact ⟨g, hg, sameSides_of_handle? hg⟩
  cases call with
  | pen size => exact ⟨_, rfl⟩
  | color level => exact ⟨_, rfl⟩
  | paper level => exact ⟨_, rfl⟩
  | shape s =>
    obtain ⟨g, hg, -⟩ := exists_draw? hf s
    exact ⟨g, hg⟩

theorem exists_foldlM_handle? {f : Framebuffer} (hf : f.IsWhole) (calls : List Call) :
    ∃ g, calls.foldlM handle? f = some g ∧ SameSides f g := by
  induction calls generalizing f with
  | nil => exact ⟨f, rfl, rfl, rfl, rfl⟩
  | cons call calls ih =>
    obtain ⟨g, hg, hsides⟩ := exists_handle? hf call
    obtain ⟨g', hg', hsides'⟩ := ih (hf.of_sameSides hsides)
    refine ⟨g', ?_, hsides.trans hsides'⟩
    rw [List.foldlM_cons, hg]
    exact hg'

/-! ## Pens -/

theorem isFinite_iff (x : Float) : x.isFinite = (value? x).isSome := by
  show x.toModel.unpack.isFinite = _
  unfold value?
  cases x.toModel.unpack <;> rfl

/-- The side of the pen is the one on paper, as long as the sides of the raster are words with a sign. -/
theorem toInt_side {f : Framebuffer} (hwidth : f.width.toNat < 2 ^ 63) (hheight : f.height.toNat < 2 ^ 63) :
    f.side.toInt = f.toRaster.penSide f.penSize := by
  have hlimit : (max (max f.width f.height) 1).toInt64.toInt = (max (max f.width.toNat f.height.toNat) 1 : ℕ) := by
    have hmax : (max (max f.width f.height) 1).toNat = max (max f.width.toNat f.height.toNat) 1 := by
      rw [UInt64.toNat_max, UInt64.toNat_max]
      rfl
    rw [toInt_toInt64 (by omega), hmax]
  have hraster : f.toRaster.width = f.width.toNat ∧ f.toRaster.height = f.height.toNat := ⟨rfl, rfl⟩
  have hone : (1 : Int64).toInt = 1 := rfl
  rw [side, Raster.penSide, isFinite_iff, hraster.1, hraster.2]
  cases hvalue : value? f.penSize with
  | none =>
    have hnearest : nearestInt f.penSize = 0 := by
      unfold value? at hvalue
      unfold nearestInt
      cases hform : f.penSize.toModel.unpack with
      | notANumber | infinity | zero => rfl
      | finite =>
        rw [hform] at hvalue
        cases hvalue
    simp only [Option.isSome_none, Bool.false_and, Bool.false_eq_true, if_false, hnearest, hone]
    omega
  | some q =>
    have hx : HasValue f.penSize (q : ℝ) := ⟨q, hvalue, rfl⟩
    have hround := abs_roundAway_sub_le q
    rw [← nearestInt_eq hvalue, abs_le] at hround
    by_cases hle : (1 : Float) ≤ f.penSize
    · have hq : 1 ≤ nearestInt f.penSize := by
        rw [hasValue_one.le_iff hx] at hle
        have hle' : (1 : ℚ) ≤ q := by exact_mod_cast hle
        have hlt : ((0 : ℤ) : ℚ) < nearestInt f.penSize := by
          rw [Int.cast_zero]
          linarith [hround.1]
        exact_mod_cast hlt
      have hsize := toInt_toSignedWord_nearestWhole (x := f.penSize) (by rw [hvalue]; rfl)
      simp only [Option.isSome_some, Bool.true_and, hle, decide_true, if_true, toInt_min, hlimit, hsize]
      omega
    · have hq : nearestInt f.penSize ≤ 1 := by
        rw [hasValue_one.le_iff hx, not_le] at hle
        have hlt : (q : ℚ) < 1 := by exact_mod_cast hle
        have hlt' : (nearestInt f.penSize : ℚ) < (2 : ℤ) := by
          rw [Int.cast_two]
          linarith [hround.2]
        exact Int.lt_add_one_iff.1 (by exact_mod_cast hlt')
      simp only [Option.isSome_some, Bool.true_and, hle, decide_false, Bool.false_eq_true, if_false, hone]
      omega

/-! ## Reading -/

theorem isSome_pixel? {f : Framebuffer} (hf : f.IsWhole) (col row : UInt64) : (f.pixel? col row).isSome := by
  rw [pixel?]
  split
  · next hraster =>
    have hindex := (toNat_index hf.fits.area_lt hraster.1 hraster.2).2
    rw [← hf.fits.size_eq] at hindex
    rw [Array.getElem?_eq_getElem hindex]
    rfl
  · rfl

theorem isSome_sample? {f : Framebuffer} (hf : f.IsWhole) (p : Point) : (f.sample? p).isSome := by
  rw [sample?]
  split
  · rfl
  · split
    · rfl
    · exact isSome_pixel? hf _ _

theorem isSome_mapM {α β : Type*} {f : α → Option β} {l : List α} (h : ∀ a ∈ l, (f a).isSome) : (l.mapM f).isSome := by
  induction l with
  | nil => rfl
  | cons a l ih =>
    rw [List.forall_mem_cons] at h
    obtain ⟨b, hb⟩ := Option.isSome_iff_exists.1 h.1
    obtain ⟨bs, hbs⟩ := Option.isSome_iff_exists.1 (ih h.2)
    rw [List.mapM_cons, hb, hbs]
    rfl

theorem isSome_isDark? {f : Framebuffer} (hf : f.IsWhole) (col row : UInt64) : (f.isDark? col row).isSome := by
  obtain ⟨pixel, hpixel⟩ := Option.isSome_iff_exists.1 (isSome_pixel? hf col row)
  rw [isDark?, hpixel]
  cases pixel <;> rfl

theorem isSome_previewLine? {f : Framebuffer} (hf : f.IsWhole) (step cols i : UInt64) :
    (f.previewLine? step cols i).isSome := by
  refine isSome_mapM fun j _ => ?_
  obtain ⟨top, htop⟩ := Option.isSome_iff_exists.1 (isSome_isDark? hf (UInt64.ofNat j * step) (i * 2 * step))
  obtain ⟨bottom, hbottom⟩ :=
    Option.isSome_iff_exists.1 (isSome_isDark? hf (UInt64.ofNat j * step) (i * 2 * step + step))
  simp only [htop, hbottom]
  rfl

theorem ceilDiv_le_self {a b : ℕ} (hb : 0 < b) : Canvas.ceilDiv a b ≤ a := by
  rw [Canvas.ceilDiv, ← Nat.ceilDiv_eq_add_pred_div]
  exact (ceilDiv_le_iff_le_mul hb).2 (Nat.le_mul_of_pos_left a hb)

theorem ceilDiv_eq_ite {a b : ℕ} (hb : 0 < b) : Canvas.ceilDiv a b = if a % b = 0 then a / b else a / b + 1 := by
  have hsplit : a + b - 1 = b * (a / b) + (a % b + b - 1) := by
    have hdiv := Nat.div_add_mod a b
    omega
  have hlt := Nat.mod_lt a hb
  rw [Canvas.ceilDiv, hsplit, Nat.mul_add_div hb]
  split
  · next h => rw [h, Nat.zero_add, Nat.div_eq_of_lt (Nat.sub_lt hb one_pos), Nat.add_zero]
  · next h =>
    have hone : (a % b + b - 1) / b = 1 := Nat.div_eq_of_lt_le (by omega) (by omega)
    rw [hone]

/-- A quotient of words is rounded up without wrapping around. -/
theorem exists_ceilDiv? {a b : UInt64} (hb : b ≠ 0) :
    ∃ q, ceilDiv? a b = some q ∧ q.toNat = Canvas.ceilDiv a.toNat b.toNat := by
  rw [ceilDiv?, if_neg hb]
  refine ⟨_, rfl, ?_⟩
  have hpos : 0 < b.toNat := Nat.pos_iff_ne_zero.2 fun h => hb (UInt64.toNat_inj.1 h)
  have hrest : a % b = 0 ↔ a.toNat % b.toNat = 0 := by rw [← UInt64.toNat_inj, UInt64.toNat_mod, UInt64.toNat_zero]
  have hle := (ceilDiv_le_self (a := a.toNat) hpos).trans_lt a.toNat_lt
  rw [ceilDiv_eq_ite hpos] at hle ⊢
  split
  · next h => rw [if_pos (hrest.1 h), UInt64.toNat_div]
  · next h =>
    rw [if_neg (mt hrest.2 h)] at hle ⊢
    rw [UInt64.toNat_add, UInt64.toNat_div, UInt64.toNat_one, Nat.mod_eq_of_lt hle]

theorem isSome_preview? {f : Framebuffer} (hf : f.IsWhole) (columns : UInt64) : (f.preview? columns).isSome := by
  rw [preview?]
  split
  · rfl
  · next hempty =>
    rw [not_or, not_or] at hempty
    obtain ⟨q, hq, hceil⟩ := exists_ceilDiv? (a := f.width) hempty.2.2
    have hpos : 0 < columns.toNat := Nat.pos_iff_ne_zero.2 fun h => hempty.2.2 (UInt64.toNat_inj.1 h)
    have hle := hceil.trans_le (ceilDiv_le_self hpos)
    -- A step is at least one, and twice a step is no word that has wrapped around.
    have hstep : (max q 1).toNat = max q.toNat 1 := UInt64.toNat_max q 1
    have hwidth := hf.width_lt
    have hne : max q 1 ≠ 0 := by
      rw [Ne, ← UInt64.toNat_inj, hstep, UInt64.toNat_zero]
      omega
    have hne' : max q 1 * 2 ≠ 0 := by
      have htwo : (2 : UInt64).toNat = 2 := rfl
      rw [Ne, ← UInt64.toNat_inj, UInt64.toNat_mul, hstep, UInt64.toNat_zero, htwo]
      omega
    obtain ⟨cols, hcols, -⟩ := exists_ceilDiv? (a := f.width) hne
    obtain ⟨rows, hrows, -⟩ := exists_ceilDiv? (a := f.height) hne'
    obtain ⟨lines, hlines⟩ := Option.isSome_iff_exists.1 (isSome_mapM
      (f := fun i => f.previewLine? (max q 1) cols (UInt64.ofNat i)) (l := List.range rows.toNat)
      fun i _ => isSome_previewLine? hf _ _ _)
    simp only [hq, Option.bind_eq_bind, Option.bind_some, hcols, hrows, hlines]
    rfl

/-! ## Blank framebuffers -/

/-- Where sides are no doubles, the last column may be rounded to one that lies beyond the raster. -/
theorem draw?_fillRect_wide {pixels : Array UInt8} (hsize : pixels.size = 9007199254740995) (size : Float) (ink : UInt8) :
    (⟨9007199254740995, 1, pixels, size, ink⟩ : Framebuffer).draw? (.fillRect ⟨0, 0⟩ ⟨9007199254740996, 0⟩) = none := by
  have hzero : nearestInt? 0 = some 0 := by decide +kernel
  have hcol : nearestInt? 9007199254740996 = some 9007199254740996 := by decide +kernel
  let left := fmax (fmin (Float.ofInt 0) (Float.ofInt 9007199254740996)) 0
  let right := fmin (fmax (Float.ofInt 0) (Float.ofInt 9007199254740996)) (Float.ofNat 9007199254740995 - 1)
  let row := Float.ofNat 1 - 1 - Float.ofInt 0
  let top := fmax (fmin row row) 0
  let bottom := fmin (fmax row row) (Float.ofNat 1 - 1)
  let run : Run :=
    ⟨(0 * 9007199254740995 + toWord left).toNat, (0 * 9007199254740995 + toWord right).toNat⟩
  have horder : ¬ (right < left ∨ bottom < top) := by decide +kernel
  have hrows : (toWord top).toNat = 0 ∧ (toWord bottom).toNat = 0 := by decide +kernel
  have hlast : run.last = 9007199254740996 := by decide +kernel
  have hfill : fill? ink pixels run = none := if_neg (by rw [hlast, hsize]; omega)
  simp only [draw?, drawing, Raster.place?, hzero, hcol, Option.bind_eq_bind, Option.bind_some, pure]
  refine Option.map_eq_none_iff.2 ((if_neg horder).trans ?_)
  show sweep _ pixels (toWord top).toNat ((toWord bottom).toNat + 1 - (toWord top).toNat) = none
  rw [hrows.1, hrows.2]
  show Option.bind (fill? ink pixels run) _ = none
  rw [hfill]
  rfl

end Easel.Framebuffer
