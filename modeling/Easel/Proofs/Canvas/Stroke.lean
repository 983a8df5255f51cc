import Easel.Proofs.Canvas.Cutting
import Easel.Proofs.Canvas.Words

/-!
# Strokes in any direction

What the clipping leaves of a segment has its ends on the raster grown by the side of the pen (`Window.mem_grown`), and
what is near it is near the whole segment (`Window.passes`). Where a pen square meets the raster its center is well
within the grown raster (`inside_of_mem_pen`), so nothing visible is clipped away (`isSome_clip_of_passes`).

`stroke_bounds`: a stroke is short and calculates in words. `stroke_keeps`: a stroke is near its segment, and complete.
-/

namespace Easel

open Number

namespace Segment

/-- The segment passes by the cell, no further than `d` away along either axis. -/
def Passes (s : Segment) (d : ℝ) (c : Cell) : Prop :=
  ∃ t : ℝ, 0 ≤ t ∧ t ≤ 1 ∧
    |c.col - blend s.start.col s.stop.col t| ≤ d ∧ |c.row - blend s.start.row s.stop.row t| ≤ d

theorem Passes.mono {s : Segment} {c : Cell} {d d' : ℝ} (h : s.Passes d c) (hd : d ≤ d') : s.Passes d' c := by
  obtain ⟨t, h0, h1, hcol, hrow⟩ := h
  exact ⟨t, h0, h1, hcol.trans hd, hrow.trans hd⟩

/-! ## Walks -/

/-- The steps of a walk after `k` turns, as parts of what it has to go. -/
theorem Course.abs_along_sub_le (w : Course) {k : ℕ} (hk : k ≤ w.turns) :
    |((w.along k).1 : ℝ) - k / w.turns * w.cols| ≤ 1 / 2 ∧ |((w.along k).2 : ℝ) - k / w.turns * w.rows| ≤ 1 / 2 := by
  rcases Nat.eq_zero_or_pos w.turns with hzero | hpos
  · obtain rfl : k = 0 := by omega
    simp [along_zero]
  have hpos' : (0 : ℝ) < w.turns := by exact_mod_cast hpos
  have hclose := w.abs_along_le k
  have hpart {i j n m : ℕ} (h : 2 * |(i * n - j * m : ℤ)| ≤ w.turns) (hn : n = w.turns) (hj : j = k) :
      |(i : ℝ) - k / w.turns * m| ≤ 1 / 2 := by
    subst hj hn
    have hsplit : (i : ℝ) - j / w.turns * m = (i * w.turns - j * m) / w.turns := by
      field_simp
    rw [hsplit, abs_div, abs_of_pos hpos', div_le_iff₀ hpos']
    have : 2 * |(i * w.turns - j * m : ℝ)| ≤ w.turns := by exact_mod_cast h
    linarith
  have hexact : |(k : ℝ) - k / w.turns * w.turns| ≤ 1 / 2 := by
    rw [div_mul_cancel₀ _ hpos'.ne', sub_self, abs_zero]
    norm_num
  rcases Nat.lt_or_ge w.cols w.rows with h | h
  · have hturns : w.rows = w.turns := (Nat.max_eq_right h.le).symm
    rw [along_of_lt w h] at hclose ⊢
    rw [abs_sub_comm] at hclose
    refine ⟨hpart hclose hturns rfl, ?_⟩
    rwa [hturns]
  · have hturns : w.cols = w.turns := (Nat.max_eq_left h).symm
    rw [along_of_le w h] at hclose ⊢
    refine ⟨?_, hpart hclose hturns rfl⟩
    rwa [hturns]

/-- Some steps from `a` towards `b`, as an error in the number of steps. -/
theorem abs_add_mul_sub_blend (a b : ℤ) (i : ℕ) (t : ℝ) :
    |((a + i * (if a < b then 1 else -1) : ℤ) : ℝ) - blend a b t| = |i - t * (b - a).natAbs| := by
  rw [Nat.cast_natAbs, blend]
  push_cast
  split
  · next h =>
    have hpos : (0 : ℝ) < b - a := sub_pos.2 (by exact_mod_cast h)
    rw [abs_of_pos hpos]
    congr 1
    ring
  · next h =>
    have hneg : (b : ℝ) - a ≤ 0 := sub_nonpos.2 (by exact_mod_cast not_lt.1 h)
    rw [abs_of_nonpos hneg, ← abs_neg]
    congr 1
    ring

/-- A walk is never further than half a cell from its segment. -/
theorem passes_of_mem_walk {s : Segment} {c : Cell} (h : c ∈ s.walk) : s.Passes (1 / 2) c := by
  rw [walk_eq_map, List.mem_map] at h
  obtain ⟨k, hk, rfl⟩ := h
  rw [List.mem_range, Nat.lt_succ_iff] at hk
  obtain ⟨hcol, hrow⟩ := s.course.abs_along_sub_le hk
  refine ⟨k / s.course.turns, by positivity, div_le_one_of_le₀ (by exact_mod_cast hk) (Nat.cast_nonneg _), ?_, ?_⟩
  · exact (abs_add_mul_sub_blend _ _ _ _).trans_le hcol
  · exact (abs_add_mul_sub_blend _ _ _ _).trans_le hrow

/-! ## Clipped segments -/

/-- Rounding takes a point half a cell further from its place. -/
theorem IsAbout.abs_nearest_sub_le {s : Segment} {p : Point} {t : ℝ} (h : IsAbout s p t) :
    |(Cell.nearest p).col - blend s.start.col s.stop.col t| ≤ 5 / 8 ∧
      |(Cell.nearest p).row - blend s.start.row s.stop.row t| ≤ 5 / 8 := by
  obtain ⟨x, y, hx, hy, hcol, hrow⟩ := h
  have hround := hx.abs_nearestInt_sub_le
  have hround' := hy.abs_nearestInt_sub_le
  have hsum := abs_sub_le (nearestInt p.x : ℝ) x (blend s.start.col s.stop.col t)
  have hsum' := abs_sub_le (nearestInt p.y : ℝ) y (blend s.start.row s.stop.row t)
  exact ⟨by dsimp only [Cell.nearest]; linarith, by dsimp only [Cell.nearest]; linarith⟩

/-- Between two ends that are off by `d` no place is off by more. -/
theorem abs_blend_sub_blend_le {a b m n : ℤ} {p q t d : ℝ} (h0 : 0 ≤ t) (h1 : t ≤ 1) (hp : |m - blend a b p| ≤ d)
    (hq : |n - blend a b q| ≤ d) : |blend m n t - blend a b (p + t * (q - p))| ≤ d := by
  have hsplit : blend m n t - blend a b (p + t * (q - p)) = (1 - t) * (m - blend a b p) + t * (n - blend a b q) := by
    unfold blend
    ring
  calc
    |blend m n t - blend a b (p + t * (q - p))| ≤ (1 - t) * |m - blend a b p| + t * |n - blend a b q| := by
      rw [hsplit]
      refine (abs_add_le _ _).trans_eq ?_
      rw [abs_mul, abs_mul, abs_of_nonneg h0, abs_of_nonneg (sub_nonneg.2 h1)]
    _ ≤ (1 - t) * d + t * d :=
      add_le_add (mul_le_mul_of_nonneg_left hp (sub_nonneg.2 h1)) (mul_le_mul_of_nonneg_left hq h0)
    _ = d := by ring

section
variable {r : Raster} {margin : ℕ} {s : Segment} {v : Visible} {a b : ℝ} (h : Window s (edges r margin s) v a b)
include h

/-- Rounding does not take an end over an edge: the places are as good as within, and the edges are whole numbers. -/
theorem Window.mem_grown_of_isAbout {p : Point} {t : ℝ} (hp : IsAbout s p t) (hat : a ≤ t) (htb : t ≤ b) :
    Cell.nearest p ∈ r.grown margin := by
  obtain ⟨⟨hleft, hright⟩, htop, hbottom⟩ :=
    (forall_mem_edges_iff r margin s (1 / 8) t).1 fun e hmem => h.within e hmem t hat htb
  obtain ⟨hcol, hrow⟩ := hp.abs_nearest_sub_le
  rw [abs_le] at hcol hrow
  have hbound (low high n : ℤ) (hlow : (low : ℝ) - 1 < n) (hhigh : (n : ℝ) < high + 1) : low ≤ n ∧ n ≤ high := by
    have hlow' : low - 1 < n := by exact_mod_cast hlow
    have hhigh' : n < high + 1 := by exact_mod_cast hhigh
    omega
  have hcols := hbound (-margin) (r.width - 1 + margin) (Cell.nearest p).col (by push_cast; linarith)
    (by push_cast; linarith)
  have hrows := hbound (-margin) (r.height - 1 + margin) (Cell.nearest p).row (by push_cast; linarith)
    (by push_cast; linarith)
  exact ⟨hcols.1, hcols.2, hrows.1, hrows.2⟩

theorem Window.mem_grown : Cell.nearest v.start ∈ r.grown margin ∧ Cell.nearest v.stop ∈ r.grown margin :=
  ⟨h.mem_grown_of_isAbout h.start le_rfl h.le, h.mem_grown_of_isAbout h.stop h.le le_rfl⟩

/-- What passes by the clipped segment passes by the whole one: places between the ends are off by no more than
these. -/
theorem Window.passes {c : Cell} {d : ℝ} (hc : Passes ⟨.nearest v.start, .nearest v.stop⟩ d c) :
    s.Passes (d + 5 / 8) c := by
  obtain ⟨t, h0, h1, hcol, hrow⟩ := hc
  obtain ⟨hstartCol, hstartRow⟩ := h.start.abs_nearest_sub_le
  obtain ⟨hstopCol, hstopRow⟩ := h.stop.abs_nearest_sub_le
  have hle : t * (b - a) ≤ b - a := mul_le_of_le_one_left (sub_nonneg.2 h.le) h1
  have hnonneg : 0 ≤ t * (b - a) := mul_nonneg h0 (sub_nonneg.2 h.le)
  refine ⟨a + t * (b - a), add_nonneg h.nonneg hnonneg, by linarith [h.le_one], ?_, ?_⟩
  · exact (abs_sub_le _ _ _).trans (add_le_add hcol (abs_blend_sub_blend_le h0 h1 hstartCol hstopCol))
  · exact (abs_sub_le _ _ _).trans (add_le_add hrow (abs_blend_sub_blend_le h0 h1 hstartRow hstopRow))

end

/-! ## Pens -/

/-- A pen square that meets the raster has its center inside of the grown raster's edges. -/
theorem inside_of_mem_pen {r : Raster} {side : ℕ} {c : Cell} {col row : ℕ} (hcol : col < r.width)
    (hrow : row < r.height) (h : (⟨col, row⟩ : Cell) ∈ Box.pen side c) :
    (-side + 1 ≤ c.col ∧ c.col ≤ r.width - 1 + side - 1) ∧ -side + 1 ≤ c.row ∧ c.row ≤ r.height - 1 + side - 1 := by
  obtain ⟨hleft, hright, htop, hbottom⟩ := h
  simp only [Box.pen] at hleft hright htop hbottom
  omega

section
variable {r : Raster} {side : ℕ} {s : Segment} (hside : side ≤ 2 ^ 24) (hwidth : r.width ≤ 2 ^ 24)
  (hheight : r.height ≤ 2 ^ 24) (hstart : IsNear s.start) (hstop : IsNear s.stop)
include hside hwidth hheight hstart hstop

/-- If a segment passes by the center of a pen square that meets the raster, the clipping leaves something of it. -/
theorem isSome_clip_of_passes {c : Cell} {col row : ℕ} (hcol : col < r.width) (hrow : row < r.height)
    (hpen : (⟨col, row⟩ : Cell) ∈ Box.pen side c) (hpasses : s.Passes 1 c) : (s.clip r side).isSome := by
  obtain ⟨t, h0, h1, hnearCol, hnearRow⟩ := hpasses
  obtain ⟨⟨hleft, hright⟩, htop, hbottom⟩ := inside_of_mem_pen hcol hrow hpen
  rw [abs_le] at hnearCol hnearRow
  have hleft' : (-side + 1 : ℝ) ≤ c.col := by exact_mod_cast hleft
  have hright' : (c.col : ℝ) ≤ r.width - 1 + side - 1 := by exact_mod_cast hright
  have htop' : (-side + 1 : ℝ) ≤ c.row := by exact_mod_cast htop
  have hbottom' : (c.row : ℝ) ≤ r.height - 1 + side - 1 := by exact_mod_cast hbottom
  obtain ⟨v, a, b, -, hclip, -⟩ := exists_window_of_within hstart hstop hwidth hheight hside h0 h1
    ⟨by linarith, by linarith⟩ ⟨by linarith, by linarith⟩
  rw [hclip]
  rfl

theorem clip_start (h : s.start ∈ r.grown side) : ∃ v, s.clip r side = some v ∧ v.start = s.start := by
  obtain ⟨hleft, hright, htop, hbottom⟩ := h
  dsimp only [Raster.grown] at hleft hright htop hbottom
  -- The start is within all edges, so the window begins at parameter 0.
  obtain ⟨v, a, b, hwindow, hclip, hle, -⟩ := exists_window_of_within hstart hstop hwidth hheight hside le_rfl
    zero_le_one (by rw [blend_zero]; exact ⟨by exact_mod_cast hleft, by exact_mod_cast hright⟩)
    (by rw [blend_zero]; exact ⟨by exact_mod_cast htop, by exact_mod_cast hbottom⟩)
  rw [nearest_zero] at hle
  refine ⟨_, hclip, ?_⟩
  rw [hwindow.start_eq (le_antisymm hle hwindow.nonneg)]
  exact hstart.isAt.nearest_eq

theorem clip_stop (h : s.stop ∈ r.grown side) : ∃ v, s.clip r side = some v ∧ v.stop = s.stop := by
  obtain ⟨hleft, hright, htop, hbottom⟩ := h
  dsimp only [Raster.grown] at hleft hright htop hbottom
  obtain ⟨v, a, b, hwindow, hclip, -, hle⟩ := exists_window_of_within hstart hstop hwidth hheight hside zero_le_one
    le_rfl (by rw [blend_one]; exact ⟨by exact_mod_cast hleft, by exact_mod_cast hright⟩)
    (by rw [blend_one]; exact ⟨by exact_mod_cast htop, by exact_mod_cast hbottom⟩)
  rw [nearest_of_isBinary isBinary_one] at hle
  refine ⟨_, hclip, ?_⟩
  rw [hwindow.stop_eq (le_antisymm hwindow.le_one hle)]
  exact hstop.isAt.nearest_eq

end

/-! ## Strokes -/

/-- The cells that the pen is put on along a segment. -/
def centers (r : Raster) (side : ℕ) (s : Segment) : List Cell :=
  match s.clip r side with
  | none => []
  | some visible => visible.walk

theorem stroke_eq_map_centers (r : Raster) (side : ℕ) (s : Segment) :
    s.stroke r side = (s.centers r side).map (Box.pen side) := by
  unfold stroke centers
  cases s.clip r side <;> rfl

/-- A stroke in words, refused also if the pen is put on more cells than `n`. -/
def stroke? (r : Raster) (side n : ℕ) (s : Segment) : Option (List Box) :=
  match s.clip r side with
  | none => some []
  | some visible => do (← visible.walk? n).mapM (Box.pen? side)

theorem isSmall_of_mem_grown {r : Raster} {side : ℕ} (hside : side ≤ 2 ^ 24) (hwidth : r.width ≤ 2 ^ 24)
    (hheight : r.height ≤ 2 ^ 24) {c : Cell} (h : c ∈ r.grown side) : c.IsSmall := by
  obtain ⟨hleft, hright, htop, hbottom⟩ := h
  dsimp only [Raster.grown] at hleft hright htop hbottom
  rw [Cell.IsSmall, abs_le, abs_le]
  omega

theorem turns_lt_of_mem_grown {r : Raster} {side : ℕ} {s : Segment} (hstart : s.start ∈ r.grown side)
    (hstop : s.stop ∈ r.grown side) : s.course.turns < max r.width r.height + 2 * side := by
  obtain ⟨hleft, hright, htop, hbottom⟩ := hstart
  obtain ⟨hleft', hright', htop', hbottom'⟩ := hstop
  dsimp only [Raster.grown] at *
  rw [Course.turns, course]
  dsimp only
  omega

theorem length_walk (s : Segment) : s.walk.length = s.course.turns + 1 := by
  rw [walk_eq_map, List.length_map, List.length_range]

theorem isSmall_of_mem_walk {s : Segment} (hstart : s.start.IsSmall) (hstop : s.stop.IsSmall) {c : Cell}
    (h : c ∈ s.walk) : c.IsSmall := by
  rw [walk_eq_map, List.mem_map] at h
  obtain ⟨k, hk, rfl⟩ := h
  exact isSmall_after hstart hstop (Nat.lt_succ_iff.1 (List.mem_range.1 hk))

/-- Where the clipping leaves a segment on the grown raster, the stroke is short and is one in words. -/
theorem stroke?_eq {r : Raster} {side : ℕ} {s : Segment} (hside : side ≤ 2 ^ 24)
    (hwidth : r.width ≤ 2 ^ 24) (hheight : r.height ≤ 2 ^ 24)
    (hclip : ∀ v, s.clip r side = some v → v.start ∈ r.grown side ∧ v.stop ∈ r.grown side) :
    (s.stroke r side).length ≤ max r.width r.height + 2 * side ∧
      s.stroke? r side (max r.width r.height + 2 * side) = some (s.stroke r side) := by
  unfold stroke stroke?
  cases hvisible : s.clip r side with
  | none => exact ⟨Nat.zero_le _, rfl⟩
  | some v =>
    obtain ⟨hstart, hstop⟩ := hclip v hvisible
    have hstart' := isSmall_of_mem_grown hside hwidth hheight hstart
    have hstop' := isSmall_of_mem_grown hside hwidth hheight hstop
    have hturns := turns_lt_of_mem_grown hstart hstop
    refine ⟨?_, ?_⟩
    · dsimp only
      rw [List.length_map, length_walk]
      exact hturns
    · simp only [walk?_eq hstart' hstop' hturns, Option.bind_eq_bind, Option.bind_some]
      exact Box.mapM_pen?_eq (hside.trans (by norm_num)) fun c hc => isSmall_of_mem_walk hstart' hstop' hc

/-- What the clipping leaves of a segment lies on the raster grown by the side of the pen, with the ends that are there
already as they were. So a stroke puts the pen on no more cells than the longer side of that has, and is never refused
in words. -/
theorem stroke_bounds {r : Raster} {s : Segment} (size : Float) (hwidth : r.width ≤ 2 ^ 24)
    (hheight : r.height ≤ 2 ^ 24) (hstart : IsNear s.start) (hstop : IsNear s.stop) :
    let side := r.penSide size
    (∀ v, s.clip r side = some v → v.start ∈ r.grown side ∧ v.stop ∈ r.grown side) ∧
    (s.start ∈ r.grown side → ∃ v, s.clip r side = some v ∧ v.start = s.start) ∧
    (s.stop ∈ r.grown side → ∃ v, s.clip r side = some v ∧ v.stop = s.stop) ∧
    (s.stroke r side).length ≤ max r.width r.height + 2 * side ∧
    s.stroke? r side (max r.width r.height + 2 * side) = some (s.stroke r side) := by
  intro side
  have hside : side ≤ 2 ^ 24 := (penSide_bounds r size).2.trans (by omega)
  have hgrown : ∀ v, s.clip r side = some v → v.start ∈ r.grown side ∧ v.stop ∈ r.grown side := by
    intro v hv
    obtain ⟨w, a, b, hwindow, rfl⟩ := exists_window_of_clip_eq_some hstart hstop hwidth hheight hside hv
    exact hwindow.mem_grown
  exact ⟨hgrown, clip_start hside hwidth hheight hstart hstop, clip_stop hside hwidth hheight hstart hstop,
    stroke?_eq hside hwidth hheight hgrown⟩

/-- A long diagonal out of a corner keeps that corner, and is cut to what a raster of 18 by 18 has room for. -/
theorem stroke_bounds_diagonal :
    let r : Raster := ⟨10, 10⟩
    let s : Segment := ⟨⟨0, 9⟩, ⟨2 ^ 40, 9 - 2 ^ 40⟩⟩
    (r.penSide 3.5 = 4 ∧ IsNear s.start ∧ IsNear s.stop ∧ s.start ∈ r.grown 4) ∧
    (∃ v, s.clip r 4 = some v ∧ v.start = s.start) ∧
    (s.stroke r 4).length ≤ 18 ∧ s.stroke? r 4 18 = some (s.stroke r 4) := by
  intro r s
  have hside : r.penSide 3.5 = 4 := by decide +kernel
  have hstart : IsNear s.start := by norm_num [s, IsNear]
  have hstop : IsNear s.stop := by norm_num [s, IsNear]
  have hinside : s.start ∈ r.grown 4 := by decide
  have h := stroke_bounds 3.5 (r := r) (by decide) (by decide) hstart hstop
  rw [hside] at h
  exact ⟨⟨hside, hstart, hstop, hinside⟩, h.2.1 hinside, h.2.2.2⟩

/-- The pen is put on cells near the segment only. If it met the raster anywhere on a walk along the whole segment, then
the clipping leaves something; and where both ends are on the grown raster it leaves all. -/
theorem stroke_keeps {r : Raster} {s : Segment} (size : Float) (hwidth : r.width ≤ 2 ^ 24)
    (hheight : r.height ≤ 2 ^ 24) (hstart : IsNear s.start) (hstop : IsNear s.stop) :
    let side := r.penSide size
    s.stroke r side = (s.centers r side).map (Box.pen side) ∧
    (∀ c ∈ s.centers r side, s.Passes (9 / 8) c) ∧
    ((∃ c ∈ s.walk, ∃ col row : ℕ, col < r.width ∧ row < r.height ∧ (⟨col, row⟩ : Cell) ∈ Box.pen side c) →
      (s.clip r side).isSome) ∧
    (s.start ∈ r.grown side → s.stop ∈ r.grown side → s.centers r side = s.walk) := by
  intro side
  have hside : side ≤ 2 ^ 24 := (penSide_bounds r size).2.trans (by omega)
  refine ⟨stroke_eq_map_centers r side s, fun c hc => ?_, ?_, fun h h' => ?_⟩
  · rw [centers] at hc
    cases hclip : s.clip r side with
    | none =>
      rw [hclip] at hc
      cases hc
    | some v =>
      rw [hclip] at hc
      obtain ⟨w, a, b, hwindow, rfl⟩ := exists_window_of_clip_eq_some hstart hstop hwidth hheight hside hclip
      have hpasses := hwindow.passes (passes_of_mem_walk hc)
      norm_num at hpasses
      exact hpasses
  · rintro ⟨c, hc, col, row, hcol, hrow, hpen⟩
    exact isSome_clip_of_passes hside hwidth hheight hstart hstop hcol hrow hpen
      ((passes_of_mem_walk hc).mono (by norm_num))
  · have hfar {n m : ℤ} (hn : |n| ≤ 2 ^ 41) (hm : |m| ≤ 2 ^ 41) : |n| < 2 ^ 53 ∧ |m| < 2 ^ 53 ∧ |m - n| ≤ 2 ^ 53 := by
      rw [abs_le] at hn hm
      simp only [abs_lt, abs_le]
      omega
    rw [centers, clip_eq_self (by omega) (by omega) (by omega) h h' (hfar hstart.1 hstop.1) (hfar hstart.2 hstop.2)]

/-- A flat segment that the raster is in the middle of, and one that it begins and ends next to. -/
theorem stroke_keeps_flat :
    let r : Raster := ⟨10, 10⟩
    let s : Segment := ⟨⟨-30, 5⟩, ⟨40, 8⟩⟩
    let t : Segment := ⟨⟨-3, 5⟩, ⟨12, 8⟩⟩
    (r.penSide 3 = 3 ∧ IsNear s.start ∧ IsNear s.stop ∧ IsNear t.start ∧ IsNear t.stop) ∧
    (∀ c ∈ s.centers r 3, s.Passes (9 / 8) c) ∧ (s.clip r 3).isSome ∧ t.centers r 3 = t.walk := by
  intro r s t
  have hside : r.penSide 3 = 3 := by decide +kernel
  have hs : IsNear s.start ∧ IsNear s.stop := by norm_num [s, IsNear]
  have ht : IsNear t.start ∧ IsNear t.stop := by norm_num [t, IsNear]
  have hmem : (⟨5, 7⟩ : Cell) ∈ s.walk := by
    rw [walk_eq_map]
    exact List.mem_map.2 ⟨35, by decide, by decide⟩
  have h := stroke_keeps 3 (r := r) (by decide) (by decide) hs.1 hs.2
  have h' := stroke_keeps 3 (r := r) (by decide) (by decide) ht.1 ht.2
  rw [hside] at h h'
  exact ⟨⟨hside, hs.1, hs.2, ht⟩, h.2.1, h.2.2.1 ⟨_, hmem, 5, 7, by decide, by decide, by decide⟩,
    h'.2.2.2 (by decide) (by decide)⟩

end Segment

end Easel
