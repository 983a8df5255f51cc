import Easel.Proofs.Canvas.Bounds
import Easel.Proofs.Canvas.Frame
import Easel.Proofs.Canvas.Reach

/-!
# Filled rectangles

A filled rectangle is the box that its rounded corners span, in whatever order they come. A corner may be infinitely
far away: what is kept of a coordinate is on the same side of every column and row as the coordinate
(`nearestInt?_order`), so the box has the same pixels (`Raster.exists_cell?_iff`).

The bounds of the box on a raster can be calculated in doubles as well (`Raster.fillRuns`). A double that is not the
integer it stands for is as far off the raster as that integer (`KeepsPlace`), so the runs of pixels are the same
(`Raster.fillRuns_eq`).

`apply_fillRect`: filled rectangles on a canvas.
-/

namespace Easel

namespace Number

open Float.Model Float.Model.UnpackedFloat

/-! ## Rounded coordinates -/

/-- The integers, with one below and one above all others. -/
abbrev Extended := WithBot (WithTop ℤ)

def extended (n : ℤ) : Extended := ((n : WithTop ℤ) : WithBot (WithTop ℤ))

theorem extended_le_extended {m n : ℤ} : extended m ≤ extended n ↔ m ≤ n := by
  rw [extended, extended, WithBot.coe_le_coe, WithTop.coe_le_coe]

/-- A double rounded to an integer, halves away from zero. Infinities are their own rounding. -/
def rounded (x : Float) : Extended :=
  match value? x with
  | some q => extended (roundAway q)
  | none => if x < 0 then ⊥ else ⊤

/-- What is kept of a coordinate is on the same side of every number within the limit as the rounded coordinate. -/
theorem nearestInt?_order {x : Float} (hx : x.isNaN = false) :
    ∃ k : ℤ, nearestInt? x = some k ∧
      ∀ n : ℤ, |n| < limit → (extended n ≤ rounded x ↔ n ≤ k) ∧ (rounded x ≤ extended n ↔ k ≤ n) := by
  have hneg : x < 0 ↔ UnpackedFloat.lt x.toModel.unpack (.zero .positive) := decide_eq_true_iff
  cases hform : x.toModel.unpack with
  | notANumber =>
    have hnan : x.toModel.unpack.isNaN = false := hx
    rw [hform] at hnan
    cases hnan
  | zero s =>
    have hrounded : rounded x = extended 0 := by
      simp only [rounded, value?, hform]
      exact congrArg extended (roundAway_intCast 0)
    refine ⟨0, by simp only [nearestInt?, hform], fun n _ => ?_⟩
    rw [hrounded]
    exact ⟨extended_le_extended, extended_le_extended⟩
  | infinity s =>
    rw [hform] at hneg
    cases s with
    | negative =>
      have hrounded : rounded x = ⊥ := by
        simp only [rounded, value?, hform]
        exact if_pos (hneg.2 rfl)
      refine ⟨-limit, by simp only [nearestInt?, hform]; rfl, fun n hn => ?_⟩
      rw [abs_lt] at hn
      rw [hrounded]
      exact ⟨iff_of_false (WithBot.not_coe_le_bot _) (by omega), iff_of_true bot_le (by omega)⟩
    | positive =>
      have hrounded : rounded x = ⊤ := by
        simp only [rounded, value?, hform]
        exact if_neg fun h => Bool.false_ne_true (hneg.1 h)
      refine ⟨limit, by simp only [nearestInt?, hform]; rfl, fun n hn => ?_⟩
      rw [abs_lt] at hn
      rw [hrounded]
      exact ⟨iff_of_true le_top (by omega), iff_of_false (by simp [extended]) (by omega)⟩
  | finite s m e =>
    have hrounded : rounded x = extended (s.apply (nearestScaled m e)) := by
      simp only [rounded, value?, hform, nearestScaled_eq_roundAway]
    refine ⟨s.apply (min (nearestScaled m e) limit), by simp only [nearestInt?, hform], fun n hn => ?_⟩
    rw [abs_lt] at hn
    rw [hrounded, extended_le_extended, extended_le_extended]
    cases s <;> simp only [Sign.apply] <;> omega

/-- A NaN has no nearest integer. -/
theorem nearestInt?_of_isNaN {x : Float} (hx : x.isNaN = true) : nearestInt? x = none := by
  have hnan : x.toModel.unpack.isNaN = true := hx
  cases hform : x.toModel.unpack with
  | notANumber => simp only [nearestInt?, hform]
  | zero | infinity | finite =>
    rw [hform] at hnan
    cases hnan

/-! ## Bounds in doubles -/

/-- The integers are equal, or both are at least `bound` away from zero on the same side. -/
def Agrees (bound z k : ℤ) : Prop := z = k ∨ bound ≤ z ∧ bound ≤ k ∨ z ≤ -bound ∧ k ≤ -bound

/-- The double is this integer, or both are far away on the same side. -/
def KeepsPlace (x : Float) (k : ℤ) : Prop := ∃ z : ℤ, HasValue x z ∧ Agrees (2 ^ 51) z k

/-- The least and the greatest index up to `last` between two doubles, calculated in doubles, if there are any. -/
def span? (x y last : Float) : Option (ℕ × ℕ) :=
  let low := max (min x y) 0
  let high := min (max x y) last
  if high < low then none else some (wholePart low, wholePart high)

theorem exists_nearest_agrees (k : ℤ) : ∃ z : ℤ, nearest k = z ∧ Agrees (2 ^ 52) z k := by
  obtain ⟨z, hz⟩ := exists_nearest_eq_intCast k
  have hupper := le_nearest_intCast_iff (k := 2 ^ 52) (n := k) (by norm_num)
  have hlower := nearest_intCast_le_iff (k := -2 ^ 52) (n := k) (by norm_num)
  rw [hz, Int.cast_le] at hupper hlower
  refine ⟨z, hz, ?_⟩
  unfold Agrees
  rcases le_or_gt |k| (2 ^ 53) with hk | hk
  · rw [nearest_intCast hk, Int.cast_inj] at hz
    exact .inl hz.symm
  · rw [lt_abs] at hk
    omega

theorem keepsPlace_ofInt {k : ℤ} (h : |(k : ℝ)| ≤ 2 ^ 1000) : KeepsPlace (Float.ofInt k) k := by
  obtain ⟨z, hz, hagrees⟩ := exists_nearest_agrees k
  refine ⟨z, hz ▸ hasValue_ofInt_nearest (h.trans (pow_le_pow_right₀ one_le_two (by norm_num))), ?_⟩
  unfold Agrees at *
  omega

theorem hasValue_max {x y : Float} {a b : ℝ} (hx : HasValue x a) (hy : HasValue y b) :
    HasValue (max x y) (max a b) := by
  show HasValue (if x ≤ y then y else x) (max a b)
  split
  · next h => rwa [max_eq_right ((hx.le_iff hy).1 h)]
  · next h => rwa [max_eq_left (le_of_not_ge fun hle => h ((hx.le_iff hy).2 hle))]

theorem hasValue_min {x y : Float} {a b : ℝ} (hx : HasValue x a) (hy : HasValue y b) :
    HasValue (min x y) (min a b) := by
  show HasValue (if x ≤ y then x else y) (min a b)
  split
  · next h => rwa [min_eq_left ((hx.le_iff hy).1 h)]
  · next h => rwa [min_eq_right (le_of_not_ge fun hle => h ((hx.le_iff hy).2 hle))]

theorem HasValue.wholePart_int {x : Float} {n : ℤ} (hx : HasValue x n) : wholePart x = n.toNat := by
  rw [wholePart_eq_floor, hx.value?_int, Option.elim_some, Int.floor_intCast]

/-- The bounds in doubles are those in integers. -/
theorem span?_eq {x y last : Float} {k l : ℤ} {n : ℕ} (hx : KeepsPlace x k) (hy : KeepsPlace y l) (hn : n ≤ 2 ^ 50)
    (hlast : HasValue last (n - 1 : ℤ)) :
    span? x y last =
      if min (max k l) (n - 1) < max 0 (min k l) then none
      else some ((max 0 (min k l)).toNat, (min (max k l) (n - 1)).toNat) := by
  obtain ⟨z, hz, hzk⟩ := hx
  obtain ⟨w, hw, hwl⟩ := hy
  have hlow := hasValue_max (hasValue_min hz hw) hasValue_zero
  have hhigh := hasValue_min (hasValue_max hz hw) hlast
  rw [← Int.cast_min, ← Int.cast_max] at hlow
  rw [← Int.cast_max, ← Int.cast_min] at hhigh
  unfold Agrees at hzk hwl
  simp only [span?, hhigh.lt_iff hlow, Int.cast_lt, hlow.wholePart_int, hhigh.wholePart_int]
  split
  · rw [if_pos (by omega)]
  · rw [if_neg (by omega), Option.some.injEq, Prod.mk.injEq]
    omega

end Number

open Number

namespace Raster

variable {r : Raster} {p q : Point} {a b : Cell}

/-! ## Boxes -/

/-- A coordinate between two others, in either order. -/
def Between (x y n : Extended) : Prop := min x y ≤ n ∧ n ≤ max x y

theorem between_iff {x y : Extended} {k l n : ℤ} (hx : (extended n ≤ x ↔ n ≤ k) ∧ (x ≤ extended n ↔ k ≤ n))
    (hy : (extended n ≤ y ↔ n ≤ l) ∧ (y ≤ extended n ↔ l ≤ n)) :
    Between x y (extended n) ↔ min k l ≤ n ∧ n ≤ max k l := by
  rw [Between, min_le_iff, le_max_iff, min_le_iff, le_max_iff, hx.1, hx.2, hy.1, hy.2]

/-- A point with a NaN has no cell. -/
theorem cell?_of_isNaN (h : p.x.isNaN = true ∨ p.y.isNaN = true) : r.cell? p = none := by
  rcases h with h | h
  · simp only [cell?, nearestInt?_of_isNaN h, Option.bind_eq_bind, Option.bind_none]
  · simp only [cell?, nearestInt?_of_isNaN h, Option.bind_eq_bind, Option.bind_none, Option.bind_fun_none]

/-- On a raster, the box of two cells is what lies between the rounded coordinates. -/
theorem exists_cell?_iff (r : Raster) (hwidth : r.width < 2 ^ 64) (hheight : r.height < 2 ^ 64)
    (hp : p.x.isNaN = false ∧ p.y.isNaN = false) (hq : q.x.isNaN = false ∧ q.y.isNaN = false) :
    ∃ a b, r.cell? p = some a ∧ r.cell? q = some b ∧ ∀ col row : ℕ, col < r.width → row < r.height →
      ((⟨col, row⟩ : Cell) ∈ Box.spanned a b ↔
        Between (rounded p.x) (rounded q.x) (extended col) ∧
          Between (rounded p.y) (rounded q.y) (extended (r.height - 1 - row))) := by
  have hlimit := limit_bounds.1
  obtain ⟨x, hx, hxorder⟩ := nearestInt?_order hp.1
  obtain ⟨y, hy, hyorder⟩ := nearestInt?_order hp.2
  obtain ⟨x', hx', hxorder'⟩ := nearestInt?_order hq.1
  obtain ⟨y', hy', hyorder'⟩ := nearestInt?_order hq.2
  refine ⟨⟨x, r.height - 1 - y⟩, ⟨x', r.height - 1 - y'⟩, by simp [cell?, hx, hy], by simp [cell?, hx', hy'], ?_⟩
  intro col row hcol hrow
  have hcol' : |(col : ℤ)| < limit := by
    rw [abs_lt]
    omega
  have hrow' : |(r.height - 1 - row : ℤ)| < limit := by
    rw [abs_lt]
    omega
  rw [between_iff (hxorder col hcol') (hxorder' col hcol'), between_iff (hyorder _ hrow') (hyorder' _ hrow'),
    Segment.mem_spanned]
  dsimp only
  omega

/-! ## Runs in doubles -/

/-- The runs of pixels of a filled rectangle, with all bounds calculated in doubles. -/
def fillRuns (r : Raster) (p q : Point) : List Run :=
  match r.place? p, r.place? q with
  | some a, some b =>
    match span? a.x b.x (Float.ofNat r.width - 1), span? a.y b.y (Float.ofNat r.height - 1) with
    | some (left, right), some (top, bottom) =>
      (List.range' top (bottom + 1 - top)).map fun row => ⟨row * r.width + left, row * r.width + right⟩
    | _, _ => []
  | _, _ => []

theorem keepsPlace_toPoint (hheight : r.height ≤ 2 ^ 50) (h : r.cell? p = some a) :
    KeepsPlace a.toPoint.x a.col ∧ KeepsPlace a.toPoint.y a.row := by
  obtain ⟨hcol, hrow⟩ := abs_cell?_le hheight h
  exact ⟨keepsPlace_ofInt hcol, keepsPlace_ofInt hrow⟩

/-- The runs calculated in doubles are those of the box. -/
theorem fillRuns_eq (r : Raster) (hwidth : r.width ≤ 2 ^ 50) (hheight : r.height ≤ 2 ^ 50) (side : ℕ) (p q : Point) :
    r.fillRuns p q = ((Shape.fillRect p q).footprint r side).flatMap (Box.runs r) := by
  rw [fillRuns, r.place?_eq hheight p, r.place?_eq hheight q]
  cases hp : r.cell? p with
  | none => simp [Shape.footprint, Shape.withCells, hp]
  | some a =>
  cases hq : r.cell? q with
  | none => simp [Shape.footprint, Shape.withCells, hp, hq]
  | some b =>
  obtain ⟨hx, hy⟩ := keepsPlace_toPoint hheight hp
  obtain ⟨hx', hy'⟩ := keepsPlace_toPoint hheight hq
  have hlast {n : ℕ} (hn : n ≤ 2 ^ 50) : HasValue (Float.ofNat n - 1) (n - 1 : ℤ) :=
    hasValue_last (hn.trans (by norm_num))
  have hfootprint : (Shape.fillRect p q).footprint r side = [Box.spanned a b] := by
    simp only [Shape.footprint, Shape.withCells, hp, hq]
  simp only [Option.map_some, span?_eq hx hx' hwidth (hlast hwidth), span?_eq hy hy' hheight (hlast hheight), hfootprint,
    List.flatMap_cons, List.flatMap_nil, List.append_nil, Box.runs, Box.spanned]
  -- Off the raster there are no runs on either side, and elsewhere the rows are counted alike.
  by_cases hcols : min (max a.col b.col) (r.width - 1) < max 0 (min a.col b.col)
  · simp only [hcols, true_or, if_true]
  by_cases hrows : min (max a.row b.row) (r.height - 1) < max 0 (min a.row b.row)
  · simp only [if_neg hcols, hrows, or_true, if_true]
  have hcount : (min (max a.row b.row) (r.height - 1)).toNat + 1 - (max 0 (min a.row b.row)).toNat =
      (min (max a.row b.row) (r.height - 1) + 1 - max 0 (min a.row b.row)).toNat := by
    omega
  simp only [hcols, hrows, or_self, if_false, hcount]

end Raster

namespace Canvas

open Raster

/-- A filled rectangle on a canvas, whatever the size of its coordinates and the order of its corners, inks the pixels
whose column and row, counted from the bottom, are between the rounded coordinates, and leaves the others as they are.
With a NaN among the coordinates it leaves all of them. And with its bounds calculated in doubles it fills the same
pixels, by runs none of which is refused. -/
theorem apply_fillRect (c : Canvas) (p q : Point) (hwidth : c.width < 2 ^ 64) (hheight : c.height < 2 ^ 64) :
    let filled := Surface.apply c (.shape (.fillRect p q))
    let covers (col row : ℕ) : Prop :=
      Between (rounded p.x) (rounded q.x) (extended col) ∧
        Between (rounded p.y) (rounded q.y) (extended (c.height - 1 - row))
    (p.x.isNaN = false → p.y.isNaN = false → q.x.isNaN = false → q.y.isNaN = false →
      ∀ col row : ℕ, col < c.width → row < c.height →
        (covers col row → filled.pixel? col row = some c.ink) ∧
        (¬ covers col row → filled.pixel? col row = c.pixel? col row)) ∧
    (p.x.isNaN = true ∨ p.y.isNaN = true ∨ q.x.isNaN = true ∨ q.y.isNaN = true → filled = c) ∧
    (c.width ≤ 2 ^ 50 → c.height ≤ 2 ^ 50 →
      (c.fillRuns p q).foldlM (fill? c.ink) c.pixels = some filled.pixels) := by
  intro filled covers
  refine ⟨fun hpx hpy hqx hqy col row hcol hrow => ?_, fun hnan => ?_, fun hwidth' hheight' => ?_⟩
  · obtain ⟨a, b, ha, hb, hmem⟩ := c.exists_cell?_iff hwidth hheight ⟨hpx, hpy⟩ ⟨hqx, hqy⟩
    have hinks : (Shape.fillRect p q).Inks c.toRaster c.penSize col row ↔ covers col row := by
      rw [Shape.inks_fillRect_iff ha hb, hmem col row hcol hrow]
      simp only [hcol, hrow, true_and, covers]
    rw [pixel?_apply_shape]
    exact ⟨fun h => if_pos (hinks.2 h), fun h => if_neg fun h' => h (hinks.1 h')⟩
  · have hnone : c.cell? p = none ∨ c.cell? q = none := by
      rw [← or_assoc] at hnan
      exact hnan.imp cell?_of_isNaN cell?_of_isNaN
    have hfootprint : (Shape.fillRect p q).footprint c.toRaster c.side = [] := by
      rcases hnone with h | h
      · simp only [Shape.footprint, Shape.withCells, h]
      · cases ha : c.cell? p <;> simp only [Shape.footprint, Shape.withCells, h, ha]
    show c.paint ((Shape.fillRect p q).footprint c.toRaster c.side) = c
    rw [hfootprint]
    rfl
  · rw [fillRuns_eq c.toRaster hwidth' hheight' c.side]
    exact c.pixels?_eq (.shape (.fillRect p q))

/-- The part of a canvas to the left of a column and below a row, with corners in the other order and one of them
infinitely far away. -/
theorem apply_fillRect_infinite :
    let left : Float := Float.ofBits 0xFFF0000000000000
    left.isNaN = false ∧
      (Surface.apply (blank 5 4) (.shape (.fillRect ⟨1.5, -0.5⟩ ⟨left, 1.25⟩))).pixel? 2 2 = some 0 ∧
      (Surface.apply (blank 5 4) (.shape (.fillRect ⟨1.5, -0.5⟩ ⟨left, 1.25⟩))).pixel? 2 1 = some 255 := by
  intro left
  have hleft : left.isNaN = false := by decide +kernel
  obtain ⟨hpixel, -, -⟩ := apply_fillRect (blank 5 4) ⟨1.5, -0.5⟩ ⟨left, 1.25⟩ (by decide) (by decide)
  have hpixel' := hpixel (by decide +kernel) (by decide +kernel) hleft (by decide +kernel)
  refine ⟨hleft, (hpixel' 2 2 (by decide) (by decide)).1 ?_, ((hpixel' 2 1 (by decide) (by decide)).2 ?_).trans ?_⟩
  · unfold Between
    decide +kernel
  · unfold Between
    decide +kernel
  · decide +kernel

end Canvas

end Easel
