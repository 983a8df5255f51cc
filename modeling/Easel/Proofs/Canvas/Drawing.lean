import Easel.Proofs.Canvas.Fills
import Easel.Proofs.Canvas.Stroke

/-!
# Drawings in a machine

On a framebuffer of a size that has a buffer, the loops of every shape leave what its footprint painted on the canvas
leaves (`Framebuffer.paints_drawing`), and so does every sequence of calls (`Framebuffer.foldlM_handle?_toFramebuffer`).
What is asked of a line is that the cells its visible part ends at are far from the limits of a word
(`Framebuffer.HasSmallEnds`); lines whose own ends are near have that (`hasSmallEnds_of_isNear`). So with such lines a
blank framebuffer comes to show what a blank canvas does (`foldlM_handle?_blank_of_isNear`).

`draw?_circle`: outlines on a framebuffer.
-/

namespace Easel

open Number Segment

/-- The segments that a shape is drawn with. -/
def Shape.segments (r : Raster) : Shape → List Segment
  | .line p q =>
    match r.cell? p, r.cell? q with
    | some a, some b => [⟨a, b⟩]
    | _, _ => []
  | .rect p q =>
    match r.cell? p, r.cell? q with
    | some a, some b => sides a b
    | _, _ => []
  | _ => []

namespace Framebuffer

/-- The visible parts of the lines of a shape end at cells far from the limits of a word. -/
def HasSmallEnds (f : Framebuffer) (s : Shape) : Prop :=
  ∀ t ∈ s.segments f.toRaster, ∀ v, f.visible? t.start.toPoint t.stop.toPoint = some v → v.start.IsSmall ∧ v.stop.IsSmall

variable {f : Framebuffer} (hf : f.IsSmall)
include hf

/-! ## Outlines -/

/-- The test that comes first has the same answer as on paper. -/
theorem touches_eq (c : Circle) :
    f.touches c.center.toPoint (Float.ofNat c.radius + Float.ofInt f.side.toInt) =
      c.touchesAfar f.toRaster (f.toRaster.penSide f.penSize) := by
  rw [(toInt_side_bounds hf).1]
  rfl

/-- The radius from which on an outline is not walked. -/
theorem lt_ofNat_iff {radius : ℕ} (hradius : (radius : ℝ) ≤ 2 ^ 1000) :
    2 * Float.ofNat (f.width + f.height).toNat < Float.ofNat radius ↔ 2 * (f.width.toNat + f.height.toNat) < radius := by
  have hwidth := hf.width_le
  have hheight := hf.height_le
  have hsum : (f.width + f.height).toNat = f.width.toNat + f.height.toNat := by
    rw [UInt64.toNat_add, Nat.mod_eq_of_lt (by omega)]
  have htwice : HasValue (2 * Float.ofNat (f.width + f.height).toNat) (2 * (f.width.toNat + f.height.toNat) : ℤ) := by
    have htwo : HasValue 2 (2 : ℤ) := hasValue_natCast (n := 2) (by norm_num)
    have hsides : HasValue (Float.ofNat (f.width + f.height).toNat) (f.width.toNat + f.height.toNat : ℤ) := by
      rw [hsum]
      exact_mod_cast hasValue_natCast (n := f.width.toNat + f.height.toNat) (by omega)
    exact htwo.mul_int hsides (by rw [abs_le]; omega)
  have hvalue := hasValue_ofNat_nearest (hradius.trans (pow_le_pow_right₀ one_le_two (by norm_num)))
  rw [htwice.lt_iff hvalue, ← not_le, ← Int.cast_natCast radius, nearest_intCast_le_iff (by rw [abs_lt]; omega)]
  omega

/-- The center of an outline that reaches the raster is so close that the casts keep it. -/
theorem toInt_toSignedWord_of_touches {c : Circle}
    (h : c.touches f.toRaster (c.radius + f.toRaster.penSide f.penSize) = true)
    (hradius : c.radius ≤ 2 * (f.toRaster.width + f.toRaster.height)) :
    (toSignedWord c.center.toPoint.x).toInt = c.center.col ∧ (toSignedWord c.center.toPoint.y).toInt = c.center.row ∧
      (toSignedWord (Float.ofNat c.radius)).toInt = c.radius := by
  obtain ⟨-, -, hside⟩ := toInt_side_bounds hf
  have hwidth : f.toRaster.width ≤ 2 ^ 50 := hf.width_le
  have hheight : f.toRaster.height ≤ 2 ^ 50 := hf.height_le
  rw [Circle.touches_iff] at h
  have hword {n : ℤ} (hn : -2 ^ 53 < n ∧ n < 2 ^ 53) := toInt_toSignedWord_ofInt (abs_lt.2 hn)
  exact ⟨hword (by omega), hword (by omega), hword (n := c.radius) (by omega)⟩

/-- A circle around a cell. -/
theorem paints_strokeCircle {c : Circle} (hcol : |(c.center.col : ℝ)| ≤ 2 ^ 1000) (hrow : |(c.center.row : ℝ)| ≤ 2 ^ 1000)
    (hradius : (c.radius : ℝ) ≤ 2 ^ 1000) :
    Paints f (f.strokeCircle c.center.toPoint (Float.ofNat c.radius))
      (c.stroke f.toRaster (f.toRaster.penSide f.penSize)) := by
  obtain ⟨-, -, hside⟩ := toInt_side_bounds hf
  have hwidth : f.toRaster.width ≤ 2 ^ 50 := hf.width_le
  have hheight : f.toRaster.height ≤ 2 ^ 50 := hf.height_le
  have hlarge := lt_ofNat_iff hf hradius
  unfold strokeCircle Circle.stroke
  rw [touches_eq hf]
  by_cases hradius' : 2 * (f.toRaster.width + f.toRaster.height) < c.radius
  · rw [if_pos hradius']
    split
    · next hmisses =>
      rw [if_neg (by simpa using hmisses)]
      exact .skip
    · next hmeets =>
      rw [if_pos (by simpa using hmeets)]
      simp only [if_pos (hlarge.2 hradius')]
      exact paints_inkRing hf c
  · rw [if_neg hradius', Circle.touchesAfar_eq_touches hcol hrow hwidth hheight (by omega)]
    split
    · next hmisses =>
      rw [if_neg (by simpa using hmisses)]
      exact .skip
    · next hmeets =>
      have hmeets' : c.touches f.toRaster (c.radius + f.toRaster.penSide f.penSize) = true := by simpa using hmeets
      have hbounds := Circle.touches_iff.1 hmeets'
      obtain ⟨hcol', hrow', hradius''⟩ := toInt_toSignedWord_of_touches hf hmeets' (not_lt.1 hradius')
      rw [if_pos hmeets']
      simp only [if_neg (mt hlarge.1 hradius')]
      exact paints_strokeOutline hf (by rw [abs_le, abs_le]; omega) hcol' hrow' (by omega) hradius''

/-! ## Shapes -/

/-- The loops of a shape leave what its footprint leaves. -/
theorem paints_drawing {s : Shape} (hs : f.HasSmallEnds s) :
    Paints f (fun pixels => f.drawing pixels s) (s.footprint f.toRaster (f.toRaster.penSide f.penSize)) := by
  have hplace := f.toRaster.place?_eq hf.height_le
  have hcircle {center : Point} {cell : Cell} {radius : Float} {n : ℤ} (hcell : f.toRaster.cell? center = some cell)
      (hn : nearestInt? radius = some n) :
      (|(cell.col : ℝ)| ≤ 2 ^ 1000 ∧ |(cell.row : ℝ)| ≤ 2 ^ 1000) ∧ (n.natAbs : ℝ) ≤ 2 ^ 1000 := by
    refine ⟨Raster.abs_cell?_le hf.height_le hcell, ?_⟩
    rw [Nat.cast_natAbs, Int.cast_abs]
    exact abs_nearestInt?_cast_le hn
  cases s with
  | line p q =>
    unfold drawing Shape.footprint Shape.withCells
    simp only [hplace]
    cases hp : f.toRaster.cell? p with
    | none => exact .skip
    | some a =>
    cases hq : f.toRaster.cell? q with
    | none => exact .skip
    | some b => exact paints_strokeLine hf (s := ⟨a, b⟩) (hs _ (by simp only [Shape.segments, hp, hq, List.mem_singleton]))
  | rect p q =>
    unfold drawing Shape.footprint Shape.withCells
    simp only [hplace]
    cases hp : f.toRaster.cell? p with
    | none => exact .skip
    | some a =>
    cases hq : f.toRaster.cell? q with
    | none => exact .skip
    | some b =>
    have hside (t : Segment) (ht : t ∈ Shape.sides a b) :=
      paints_strokeLine hf (hs t (by simpa only [Shape.segments, hp, hq]))
    have htop := hside ⟨⟨a.col, a.row⟩, ⟨b.col, a.row⟩⟩ (by simp [Shape.sides])
    have hbottom := hside ⟨⟨a.col, b.row⟩, ⟨b.col, b.row⟩⟩ (by simp [Shape.sides])
    have hleft := hside ⟨⟨a.col, a.row⟩, ⟨a.col, b.row⟩⟩ (by simp [Shape.sides])
    have hright := hside ⟨⟨b.col, a.row⟩, ⟨b.col, b.row⟩⟩ (by simp [Shape.sides])
    simp only [Shape.sides, List.flatMap_cons, List.flatMap_nil, List.append_nil]
    exact htop.bind (hbottom.bind (hleft.bind hright))
  | circle center radius =>
    unfold drawing Shape.footprint Circle.ofShape? radius?
    simp only [hplace]
    cases hcell : f.toRaster.cell? center with
    | none => exact .skip
    | some cell =>
    cases hn : nearestInt? radius with
    | none => exact .skip
    | some n =>
    obtain ⟨⟨hcol, hrow⟩, hradius⟩ := hcircle hcell hn
    exact paints_strokeCircle hf (c := ⟨cell, n.natAbs⟩) hcol hrow hradius
  | fillRect p q =>
    unfold drawing Shape.footprint Shape.withCells
    simp only [hplace]
    cases hp : f.toRaster.cell? p with
    | none => exact .skip
    | some a =>
    cases hq : f.toRaster.cell? q with
    | none => exact .skip
    | some b =>
    obtain ⟨hx, hy⟩ := Raster.keepsPlace_toPoint hf.height_le hp
    obtain ⟨hx', hy'⟩ := Raster.keepsPlace_toPoint hf.height_le hq
    exact paints_fillRect hf hx hy hx' hy'
  | fillCircle center radius =>
    unfold drawing Shape.footprint Circle.ofShape? radius?
    simp only [hplace]
    cases hcell : f.toRaster.cell? center with
    | none => exact .skip
    | some cell =>
    cases hn : nearestInt? radius with
    | none => exact .skip
    | some n =>
    obtain ⟨⟨hcol, hrow⟩, hradius⟩ := hcircle hcell hn
    exact paints_fillCircle hf (c := ⟨cell, n.natAbs⟩) hcol hrow hradius

/-! ## Lines that are near -/

section
variable {s : Segment} (hstart : IsNear s.start) (hstop : IsNear s.stop) (hwidth : f.width.toNat ≤ 2 ^ 24)
  (hheight : f.height.toNat ≤ 2 ^ 24)
include hstart hstop hwidth hheight

/-- What the four edges leave of a segment. -/
theorem leaves_visible? :
    Leaves s (edges f.toRaster (f.toRaster.penSide f.penSize) s) (f.visible? s.start.toPoint s.stop.toPoint) := by
  have hside := (toInt_side_bounds hf).1
  have hmargin : f.toRaster.penSide f.penSize ≤ 2 ^ 24 :=
    (penSide_bounds f.toRaster f.penSize).2.trans (max_le (by norm_num) (max_le hwidth hheight))
  have hlow : HasValue (-Float.ofInt (f.toRaster.penSide f.penSize)) (-(f.toRaster.penSide f.penSize) : ℤ) :=
    (hasValue_natCast (by omega)).neg_int
  have hlow' : |(-(f.toRaster.penSide f.penSize) : ℤ)| ≤ 2 ^ 25 := by
    rw [abs_le]
    omega
  have hhigh {n : ℕ} (hn : n ≤ 2 ^ 24) : |(n - 1 + f.toRaster.penSide f.penSize : ℤ)| ≤ 2 ^ 25 := by
    rw [abs_le]
    omega
  have hright := hasValue_edge f.width.toNat (f.toRaster.penSide f.penSize) (by omega)
  have hbottom := hasValue_edge f.height.toNat (f.toRaster.penSide f.penSize) (by omega)
  have hleaves := ((((leaves_whole hstart hstop).cut (reads_left hstart hstop hlow hlow')).cut
    (reads_right hstart hstop hright (hhigh hwidth))).cut (reads_top hstart hstop hlow hlow')).cut
    (reads_bottom hstart hstop hbottom (hhigh hheight))
  simp only [Option.bind_assoc, Option.bind_some] at hleaves
  rw [visible?, hside]
  exact hleaves

theorem isSmall_of_visible? {v : Visible} (h : f.visible? s.start.toPoint s.stop.toPoint = some v) :
    v.start.IsSmall ∧ v.stop.IsSmall := by
  have hmargin : f.toRaster.penSide f.penSize ≤ 2 ^ 24 :=
    (penSide_bounds f.toRaster f.penSize).2.trans (max_le (by norm_num) (max_le hwidth hheight))
  have hleaves := leaves_visible? hf hstart hstop hwidth hheight
  rw [h] at hleaves
  obtain ⟨a, b, hwindow⟩ := hleaves
  have hend {p : Point} {t : ℝ} (hp : IsAbout s p t) (hat : a ≤ t) (htb : t ≤ b) : p.IsSmall := by
    have hcell := isSmall_of_mem_grown hmargin hwidth hheight (hwindow.mem_grown_of_isAbout hp hat htb)
    obtain ⟨x, y, ⟨q, hq, -⟩, ⟨q', hq', -⟩, -⟩ := hp
    exact ⟨by rw [hq]; rfl, by rw [hq']; rfl, hcell⟩
  exact ⟨hend hwindow.start le_rfl hwindow.le, hend hwindow.stop hwindow.le le_rfl⟩

end

/-- Lines from near to near are cut to the raster and a pen around it. -/
theorem hasSmallEnds_of_isNear {s : Shape} (hs : ∀ t ∈ s.segments f.toRaster, IsNear t.start ∧ IsNear t.stop)
    (hwidth : f.width.toNat ≤ 2 ^ 24) (hheight : f.height.toNat ≤ 2 ^ 24) : f.HasSmallEnds s := fun t ht _ hv =>
  isSmall_of_visible? hf (hs t ht).1 (hs t ht).2 hwidth hheight hv

end Framebuffer

/-! ## Canvases in a machine -/

namespace Canvas

theorem toFramebuffer_blank {width height : ℕ} (h : width * height < 2 ^ 64) :
    (blank width height).toFramebuffer = .blank (UInt64.ofNat width) (UInt64.ofNat height) := by
  have hsize : (UInt64.ofNat width * UInt64.ofNat height).toNat = width * height := by
    rw [UInt64.toNat_mul, UInt64.toNat_ofNat', UInt64.toNat_ofNat', ← Nat.mul_mod, Nat.mod_eq_of_lt h]
  simp only [toFramebuffer, Framebuffer.blank, blank, hsize]

variable {c : Canvas} (hwidth : c.width ≤ 2 ^ 50) (hheight : c.height ≤ 2 ^ 50) (harea : c.width * c.height < 2 ^ 64)
include hwidth hheight

theorem toRaster_toFramebuffer : c.toFramebuffer.toRaster = c.toRaster := by
  have hword {n : ℕ} (hn : n ≤ 2 ^ 50) : (UInt64.ofNat n).toNat = n := by
    rw [UInt64.toNat_ofNat', Nat.mod_eq_of_lt (by omega)]
  show Raster.mk (UInt64.ofNat c.width).toNat (UInt64.ofNat c.height).toNat = _
  rw [hword hwidth, hword hheight]

theorem width_toFramebuffer : c.toFramebuffer.width.toNat = c.width :=
  congrArg Raster.width (toRaster_toFramebuffer hwidth hheight)

theorem height_toFramebuffer : c.toFramebuffer.height.toNat = c.height :=
  congrArg Raster.height (toRaster_toFramebuffer hwidth hheight)

include harea

theorem isSmall_toFramebuffer : c.toFramebuffer.IsSmall := by
  have hw := width_toFramebuffer hwidth hheight
  have hh := height_toFramebuffer hwidth hheight
  exact ⟨by rwa [hw], by rwa [hh], by rwa [hw, hh]⟩

theorem pixel?_toFramebuffer (col row : UInt64) :
    c.toFramebuffer.pixel? col row = some (c.pixel? col.toNat row.toNat) := by
  have hsmall := isSmall_toFramebuffer hwidth hheight harea
  have hw := width_toFramebuffer hwidth hheight
  have hh := height_toFramebuffer hwidth hheight
  unfold Framebuffer.pixel? pixel?
  simp only [UInt64.lt_iff_toNat_lt, hw, hh]
  split
  · next hon =>
    obtain ⟨hindex, -⟩ := Framebuffer.toNat_index hsmall.area_lt (UInt64.lt_iff_toNat_lt.2 (hon.1.trans_eq hw.symm))
      (UInt64.lt_iff_toNat_lt.2 (hon.2.trans_eq hh.symm))
    have hlt : row.toNat * c.width + col.toNat < c.pixels.size := c.size_pixels ▸ index_lt hon.1 hon.2
    rw [hindex, hw, Array.getElem?_eq_getElem hlt]
    exact congrArg _ (Array.getElem?_eq_getElem hlt)
  · rfl

/-- Drawn in a machine or on paper, a shape is the same. -/
theorem draw?_toFramebuffer {s : Shape} (hs : c.toFramebuffer.HasSmallEnds s) :
    c.toFramebuffer.draw? s = some (Surface.apply c (.shape s)).toFramebuffer := by
  have hraster := toRaster_toFramebuffer hwidth hheight
  have hdrawing := Framebuffer.paints_drawing (isSmall_toFramebuffer hwidth hheight harea) hs c hraster.symm rfl
  rw [hraster] at hdrawing
  have hraster' : (Surface.apply c (.shape s)).toRaster = c.toRaster := toRaster_apply_shape c s
  have hframe : (Surface.apply c (.shape s)).toFramebuffer =
      { c.toFramebuffer with pixels := (Surface.apply c (.shape s)).pixels } := by
    simp only [toFramebuffer, hraster', penSize_apply_shape, ink_apply_shape]
  rw [hframe]
  exact congrArg (Option.map fun pixels => { c.toFramebuffer with pixels := pixels }) hdrawing

/-- So is what a call makes of it. -/
theorem handle?_toFramebuffer {call : Call} (hs : ∀ s, call = .shape s → c.toFramebuffer.HasSmallEnds s) :
    c.toFramebuffer.handle? call = some (Surface.apply c call).toFramebuffer := by
  cases call with
  | pen | color => rfl
  | paper level =>
    have hsize : c.toFramebuffer.pixels.size = c.width * c.height := c.size_pixels
    simp only [Framebuffer.handle?, hsize]
    rfl
  | shape s => exact draw?_toFramebuffer hwidth hheight harea (hs s rfl)

end Canvas

namespace Framebuffer

theorem foldlM_handle?_toFramebuffer (calls : List Call) {c : Canvas} (hwidth : c.width ≤ 2 ^ 50)
    (hheight : c.height ≤ 2 ^ 50) (harea : c.width * c.height < 2 ^ 64)
    (hs : ∀ f : Framebuffer, f.toRaster = c.toRaster → ∀ s, .shape s ∈ calls → f.HasSmallEnds s) :
    calls.foldlM handle? c.toFramebuffer = some (calls.foldl Surface.apply c).toFramebuffer := by
  induction calls generalizing c with
  | nil => rfl
  | cons call calls ih =>
    have hcall : c.toFramebuffer.handle? call = _ := Canvas.handle?_toFramebuffer hwidth hheight harea fun s hcall =>
      hs _ (Canvas.toRaster_toFramebuffer hwidth hheight) s (by rw [hcall]; exact List.mem_cons_self)
    have hraster : (Surface.apply c call).toRaster = c.toRaster := Canvas.toRaster_foldl c [call]
    have hw : (Surface.apply c call).width = c.width := congrArg Raster.width hraster
    have hh : (Surface.apply c call).height = c.height := congrArg Raster.height hraster
    rw [List.foldlM_cons, hcall, Option.bind_eq_bind, Option.bind_some, List.foldl_cons]
    exact ih (by rwa [hw]) (by rwa [hh]) (by rwa [hw, hh]) fun f hf s hmem =>
      hs f (hf.trans hraster) s (List.mem_cons_of_mem call hmem)

/-- What is drawn from a blank framebuffer on is what is drawn from a blank canvas on, if the lines are from near to
near. -/
theorem foldlM_handle?_blank_of_isNear {width height : ℕ} (hwidth : width ≤ 2 ^ 24) (hheight : height ≤ 2 ^ 24)
    (calls : List Call)
    (hnear : ∀ s, .shape s ∈ calls → ∀ t ∈ s.segments ⟨width, height⟩, Segment.IsNear t.start ∧ Segment.IsNear t.stop) :
    calls.foldlM handle? (.blank (UInt64.ofNat width) (UInt64.ofNat height)) =
      some (calls.foldl Surface.apply (Canvas.blank width height)).toFramebuffer := by
  have harea : width * height < 2 ^ 64 := (Nat.mul_le_mul hwidth hheight).trans_lt (by norm_num)
  rw [← Canvas.toFramebuffer_blank harea]
  refine foldlM_handle?_toFramebuffer calls (hwidth.trans (by norm_num)) (hheight.trans (by norm_num)) harea
    fun f hf s hs => ?_
  have hw : f.width.toNat = width := congrArg Raster.width hf
  have hh : f.height.toNat = height := congrArg Raster.height hf
  have hsmall : f.IsSmall := ⟨by omega, by omega, by rwa [hw, hh]⟩
  have hraster : f.toRaster = ⟨width, height⟩ := hf
  rw [← hraster] at hnear
  exact hasSmallEnds_of_isNear hsmall (hnear s hs) (by omega) (by omega)

/-! ## Circles -/

/-- The canvas of a framebuffer that is whole. -/
theorem exists_toFramebuffer_eq (f : Framebuffer) (hsize : f.pixels.size = f.width.toNat * f.height.toNat) :
    ∃ c : Canvas, c.toFramebuffer = f ∧ c.toRaster = f.toRaster ∧ c.penSize = f.penSize := by
  refine ⟨⟨f.toRaster, f.pixels, f.penSize, f.ink, hsize⟩, ?_, rfl, rfl⟩
  show Framebuffer.mk (UInt64.ofNat f.width.toNat) (UInt64.ofNat f.height.toNat) _ _ _ = f
  rw [UInt64.ofNat_toNat, UInt64.ofNat_toNat]

section
variable {f : Framebuffer} (hf : f.IsSmall) {center : Point} {radius : Float} {n : ℚ}
  (hradius : roundAway |n| ≤ 2 * (f.width.toNat + f.height.toNat))
include hf hradius

theorem exists_draw?_circle (hsize : f.pixels.size = f.width.toNat * f.height.toNat) (hn : value? radius = some n) :
    ∃ g, f.draw? (.circle center radius) = some g ∧ g.width = f.width ∧ g.height = f.height ∧
      g.pixels.size = f.pixels.size ∧ ∀ col row : UInt64, col < f.width → row < f.height →
        let covers : Prop := ∃ cell, f.toRaster.exactCell? center = some cell ∧
          ∃ d ∈ Circle.outline ⟨cell, (roundAway |n|).toNat⟩,
            (⟨col.toNat, row.toNat⟩ : Cell) ∈ Box.pen (f.toRaster.penSide f.penSize) d
        (covers → g.pixel? col row = some (some f.ink)) ∧ (¬ covers → g.pixel? col row = f.pixel? col row) := by
  obtain ⟨c, rfl, hraster, hpen⟩ := f.exists_toFramebuffer_eq hsize
  have hw : c.width = c.toFramebuffer.width.toNat := congrArg Raster.width hraster
  have hh : c.height = c.toFramebuffer.height.toNat := congrArg Raster.height hraster
  have hwidth : c.width ≤ 2 ^ 50 := hw.trans_le hf.width_le
  have hheight : c.height ≤ 2 ^ 50 := hh.trans_le hf.height_le
  have harea : c.width * c.height < 2 ^ 64 := by
    rw [hw, hh]
    exact hf.area_lt
  let circled : Canvas := Surface.apply c (.shape (.circle center radius))
  have hcircled : circled.toRaster = c.toRaster := Canvas.toRaster_apply_shape c _
  have hw' : circled.width = c.width := congrArg Raster.width hcircled
  have hh' : circled.height = c.height := congrArg Raster.height hcircled
  have hdraw : c.toFramebuffer.draw? (.circle center radius) = some circled.toFramebuffer :=
    Canvas.draw?_toFramebuffer hwidth hheight harea fun _ ht => absurd ht List.not_mem_nil
  refine ⟨circled.toFramebuffer, hdraw, congrArg UInt64.ofNat hw', congrArg UInt64.ofNat hh', ?_,
    fun col row hcol hrow => ?_⟩
  · show circled.pixels.size = c.pixels.size
    rw [circled.size_pixels, c.size_pixels, hw', hh']
  · rw [UInt64.lt_iff_toNat_lt, ← hw] at hcol
    rw [UInt64.lt_iff_toNat_lt, ← hh] at hrow
    rw [Canvas.pixel?_toFramebuffer (hw'.trans_le hwidth) (hh'.trans_le hheight) (by rwa [hw', hh']),
      Canvas.pixel?_toFramebuffer hwidth hheight harea, Option.some_inj, Option.some_inj, ← hraster, ← hpen]
    exact c.pixel?_apply_circle center radius (by omega) (by omega) hn (by omega) hcol hrow

/-- What the test that comes first tells. -/
theorem touches_cases {cell : Cell} (hcell : f.toRaster.cell? center = some cell) :
    let circle : Circle := ⟨cell, (roundAway |n|).toNat⟩
    let side := f.toRaster.penSide f.penSize
    let test := f.touches cell.toPoint (Float.ofNat circle.radius + Float.ofInt f.side.toInt)
    (test = false → ∀ col row : ℕ, col < f.width.toNat → row < f.height.toNat →
      ¬ ∃ cell, f.toRaster.exactCell? center = some cell ∧
        ∃ d ∈ Circle.outline ⟨cell, (roundAway |n|).toNat⟩, (⟨col, row⟩ : Cell) ∈ Box.pen side d) ∧
    (test = true → f.toRaster.exactCell? center = some cell ∧
      (toSignedWord cell.toPoint.x).toInt = cell.col ∧ (toSignedWord cell.toPoint.y).toInt = cell.row ∧
      (toSignedWord (Float.ofNat circle.radius)).toInt = circle.radius ∧
      circle.outline?.bind (List.mapM (Box.pen? side)) = some (circle.outline.map (Box.pen side))) := by
  intro circle side test
  obtain ⟨-, hone, hside⟩ := toInt_side_bounds hf
  obtain ⟨habsCol, habsRow⟩ := Raster.abs_cell?_le hf.height_le hcell
  have hwidth : f.toRaster.width ≤ 2 ^ 50 := hf.width_le
  have hheight : f.toRaster.height ≤ 2 ^ 50 := hf.height_le
  have hle : circle.radius ≤ 2 * (f.toRaster.width + f.toRaster.height) := Int.toNat_le.2 (by exact_mod_cast hradius)
  have htest : test = circle.touches f.toRaster (circle.radius + side) := by
    rw [← Circle.touchesAfar_eq_touches habsCol habsRow hwidth hheight (by omega)]
    exact touches_eq hf circle
  rw [htest]
  refine ⟨fun h col row hcol hrow hcovers => ?_, fun h => ?_⟩
  · have hreach : circle.radius + side < 2 ^ 70 := by omega
    obtain ⟨cell', hcell', d, hd, hpen⟩ :=
      (Circle.exists_cell?_iff (by omega) (by omega) hone hreach hcol hrow).2 hcovers
    obtain rfl : cell = cell' := Option.some.inj (hcell.symm.trans hcell')
    exact absurd (h.symm.trans (Circle.touches_of_mem_pen hone hd hcol hrow hpen)) Bool.false_ne_true
  · obtain ⟨hcol, hrow, hradius'⟩ := toInt_toSignedWord_of_touches hf h hle
    exact ⟨Circle.exactCell?_eq_of_touches hcell h (by omega) (by omega) (by omega), hcol, hrow, hradius',
      Circle.outline?_bind_eq_of_touches h hwidth hheight (by omega) hside⟩

end

end Framebuffer

end Easel
