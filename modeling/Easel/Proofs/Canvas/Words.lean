import Easel.Proofs.Canvas.Outline
import Easel.Proofs.Canvas.Walk
import Easel.Proofs.Number.Word

/-!
# Strokes in words

The calculations of a pen, of a walk and of an outline with every result passed through `word?`, one operation at a
time: a sum of three numbers is two sums. They are refused where a result is no word, and else they are the calculations
on integers (`Box.pen?_eq`, `Segment.Course.turn?_eq`, `Circle.Stage.step?_eq`).

`Segment.walk?_eq`, `Circle.outline?_eq`: between cells of 58 bits, and around those of 57 with a radius of 57 bits,
nothing is refused.
-/

namespace Easel

open Number

/-- Cells that are far from the limits of a word. -/
def Cell.IsSmall (c : Cell) : Prop := |c.col| ≤ 2 ^ 58 ∧ |c.row| ≤ 2 ^ 58

/-- A list of calculations none of which is refused. -/
theorem mapM_eq_some_map {α β : Type*} {f : α → Option β} {g : α → β} {l : List α} (h : ∀ a ∈ l, f a = some (g a)) :
    l.mapM f = some (l.map g) := by
  induction l with
  | nil => rfl
  | cons a l ih =>
    rw [List.forall_mem_cons] at h
    rw [List.mapM_cons, h.1, ih h.2]
    rfl

/-! ## Pens -/

/-- The square of a pen in words. All cells of it are between its sides. -/
def Box.pen? (side : ℕ) (c : Cell) : Option Box := do
  let length ← word? (side - 1)
  let left ← word? (c.col - ((side - 1) / 2 : ℕ))
  let top ← word? (c.row - ((side - 1) / 2 : ℕ))
  let right ← word? (left + length)
  let bottom ← word? (top + length)
  return ⟨left, top, right, bottom⟩

theorem Box.pen?_eq {side : ℕ} {c : Cell} (hside : side ≤ 2 ^ 60) (hc : c.IsSmall) :
    Box.pen? side c = some (Box.pen side c) := by
  obtain ⟨hcol, hrow⟩ := hc
  rw [abs_le] at hcol hrow
  rw [Box.pen?, word?_bind (by omega), word?_bind (by omega), word?_bind (by omega), word?_bind (by omega),
    word?_bind (by omega)]
  simp only [Option.pure_def, Box.pen, add_sub_assoc]

theorem Box.mapM_pen?_eq {side : ℕ} {cells : List Cell} (hside : side ≤ 2 ^ 60) (hcells : ∀ c ∈ cells, c.IsSmall) :
    cells.mapM (Box.pen? side) = some (cells.map (Box.pen side)) :=
  mapM_eq_some_map fun c hc => Box.pen?_eq hside (hcells c hc)

namespace Segment

/-! ## Turns -/

/-- One turn of a walk in words. -/
def Course.turn? (w : Course) (v : Walker) : Option Turn :=
  if v.cols = 0 ∧ v.rows = 0 then some .arrived
  else do
    let twice ← word? (2 * v.err)
    if -(w.rows : ℤ) ≤ twice then
      match v.cols with
      | 0 => return .blocked
      | i + 1 =>
        let err ← word? (v.err - w.rows)
        let col ← word? (v.cell.col + w.stepCol)
        if twice ≤ w.cols then
          match v.rows with
          | 0 => return .blocked
          | j + 1 =>
            let err ← word? (err + w.cols)
            let row ← word? (v.cell.row + w.stepRow)
            return .moved ⟨err, ⟨col, row⟩, i, j⟩
        else return .moved ⟨err, ⟨col, v.cell.row⟩, i, v.rows⟩
    else
      match v.rows with
      | 0 => return .blocked
      | j + 1 =>
        let err ← word? (v.err + w.cols)
        let row ← word? (v.cell.row + w.stepRow)
        return .moved ⟨err, ⟨v.cell.col, row⟩, v.cols, j⟩

/-- The steps of a walk go to a neighbor, and it is not too long for words. -/
structure Course.IsSmall (w : Course) : Prop where
  stepCol : |w.stepCol| ≤ 1
  stepRow : |w.stepRow| ≤ 1
  cols : w.cols ≤ 2 ^ 59
  rows : w.rows ≤ 2 ^ 59

theorem Course.turn?_eq {w : Course} (hw : w.IsSmall) {v : Walker} (herr : |v.err| ≤ 2 ^ 60) (hcell : v.cell.IsSmall) :
    w.turn? v = some (w.turn v) := by
  obtain ⟨err, ⟨col, row⟩, i, j⟩ := v
  obtain ⟨hcol, hrow⟩ := hcell
  have hstepCol := abs_le.1 hw.stepCol
  have hstepRow := abs_le.1 hw.stepRow
  have hcols := hw.cols
  have hrows := hw.rows
  dsimp only at herr hcol hrow
  rw [abs_le] at herr hcol hrow
  unfold turn? turn
  dsimp only
  by_cases harrived : i = 0 ∧ j = 0
  · rw [if_pos harrived, if_pos harrived]
  rw [if_neg harrived, if_neg harrived, word?_bind (by omega)]
  by_cases hcolumn : -(w.rows : ℤ) ≤ 2 * err
  · rw [if_pos hcolumn, if_pos hcolumn]
    cases i with
    | zero => rfl
    | succ i =>
      dsimp only
      rw [word?_bind (by omega), word?_bind (by omega)]
      by_cases hline : 2 * err ≤ w.cols
      · rw [if_pos hline, if_pos hline]
        cases j with
        | zero => rfl
        | succ j =>
          dsimp only
          rw [word?_bind (by omega), word?_bind (by omega)]
          rfl
      · rw [if_neg hline, if_neg hline]
        rfl
  · rw [if_neg hcolumn, if_neg hcolumn]
    cases j with
    | zero => rfl
    | succ j =>
      dsimp only
      rw [word?_bind (by omega), word?_bind (by omega)]
      rfl

/-! ## Runs -/

/-- The cells of a walk in words, refused also if there are more than the first argument allows. -/
def Course.walk? (w : Course) : ℕ → Walker → Option (List Cell)
  | 0, _ => none
  | n + 1, v => do
    match ← w.turn? v with
    | .moved next => return v.cell :: (← w.walk? n next)
    | _ => return [v.cell]

/-- The error is what the walk is off by, in small units, and what it has to go next. -/
theorem Course.abs_err_le (w : Course) (start : Cell) (k : ℕ) :
    2 * |(w.after start (w.along k)).err| ≤ 3 * w.turns := by
  have herr : (w.after start (w.along k)).err =
      ((w.along k).2 * w.cols - (w.along k).1 * w.rows) + (w.cols - w.rows : ℤ) := by
    dsimp only [after]
    ring
  have hclose := w.abs_along_le k
  have hnext : |(w.cols - w.rows : ℤ)| ≤ w.turns := by
    rw [turns, abs_le]
    omega
  have hsum := abs_add_le ((w.along k).2 * w.cols - (w.along k).1 * w.rows : ℤ) (w.cols - w.rows)
  rw [herr]
  omega

section
variable {s : Segment} (hstart : s.start.IsSmall) (hstop : s.stop.IsSmall)
include hstart hstop

theorem isSmall_course : s.course.IsSmall := by
  simp only [Cell.IsSmall, abs_le] at hstart hstop
  refine ⟨?_, ?_, by dsimp only [course]; omega, by dsimp only [course]; omega⟩
  · dsimp only [course]
    split <;> decide
  · dsimp only [course]
    split <;> decide

/-- A walk stays between its ends. -/
theorem isSmall_after {k : ℕ} (hk : k ≤ s.course.turns) : (s.course.after s.start (s.course.along k)).cell.IsSmall := by
  have hle := s.course.along_le hk
  generalize s.course.along k = steps at hle
  obtain ⟨i, j⟩ := steps
  obtain ⟨⟨x, y⟩, ⟨x', y'⟩⟩ := s
  simp only [Cell.IsSmall, abs_le] at hstart hstop
  simp only [course] at hle
  simp only [Course.after, course, Cell.IsSmall, abs_le]
  constructor
  · split <;> omega
  · split <;> omega

theorem turn?_after {k : ℕ} (hk : k ≤ s.course.turns) :
    s.course.turn? (s.course.after s.start (s.course.along k)) =
      some (s.course.turn (s.course.after s.start (s.course.along k))) := by
  have hsmall := isSmall_course hstart hstop
  have herr := s.course.abs_err_le s.start k
  have hturns : s.course.turns ≤ 2 ^ 59 := Nat.max_le.2 ⟨hsmall.cols, hsmall.rows⟩
  exact Course.turn?_eq hsmall (by omega) (isSmall_after hstart hstop hk)

/-- From any turn on a walk in words is the walk. -/
theorem walk?_after {k m n : ℕ} (h : k + m = s.course.turns) (hn : m < n) :
    let v := s.course.after s.start (s.course.along k)
    s.course.walk? n v = some (walkFrom s.course v.err v.cell v.cols v.rows) := by
  intro v
  -- On the turns that are left; the closed form keeps the walker small at each of them.
  induction m generalizing k n with
  | zero =>
    obtain ⟨n, rfl⟩ := Nat.exists_eq_succ_of_ne_zero hn.ne'
    obtain rfl : k = s.course.turns := h
    rw [Course.walk?, turn?_after hstart hstop le_rfl, walkFrom_eq_turn, Course.turn_after_turns]
    rfl
  | succ m ih =>
    obtain ⟨n, rfl⟩ := Nat.exists_eq_succ_of_ne_zero (Nat.zero_lt_of_lt hn).ne'
    rw [Course.walk?, turn?_after hstart hstop (by omega), walkFrom_eq_turn, Course.turn_after_along _ _ (by omega)]
    simp only [Option.bind_eq_bind, Option.bind_some, ih (k := k + 1) (by omega) (Nat.lt_of_succ_lt_succ hn)]
    rfl

end

/-- A walk in words, from the differences of its ends on. -/
def walk? (n : ℕ) (s : Segment) : Option (List Cell) := do
  let col ← word? (s.stop.col - s.start.col)
  let cols ← word? |col|
  let row ← word? (s.stop.row - s.start.row)
  let rows ← word? |row|
  let down ← word? (-rows)
  let err ← word? (cols + down)
  s.course.walk? n ⟨err, s.start, cols.toNat, rows.toNat⟩

theorem walk?_eq {n : ℕ} {s : Segment} (hstart : s.start.IsSmall) (hstop : s.stop.IsSmall) (hn : s.course.turns < n) :
    s.walk? n = some s.walk := by
  have hcol := abs_le.1 hstart.1
  have hrow := abs_le.1 hstart.2
  have hcol' := abs_le.1 hstop.1
  have hrow' := abs_le.1 hstop.2
  have hcols : |s.stop.col - s.start.col| = s.course.cols := Int.abs_eq_natAbs _
  have hrows : |s.stop.row - s.start.row| = s.course.rows := Int.abs_eq_natAbs _
  have hsmall := isSmall_course hstart hstop
  have hcols' := hsmall.cols
  have hrows' := hsmall.rows
  have hrun := walk?_after hstart hstop (Nat.zero_add s.course.turns) hn
  rw [after_zero] at hrun
  rw [walk?, word?_bind (by omega), hcols, word?_bind (by omega), word?_bind (by omega), hrows, word?_bind (by omega),
    word?_bind (by omega), word?_bind (by omega), ← Int.sub_eq_add_neg, Int.toNat_natCast, Int.toNat_natCast]
  exact hrun

end Segment

namespace Circle

/-! ## Octants -/

theorem le_radius_of_mem_octant {radius x y : ℕ} (h : (x, y) ∈ octant radius) : x ≤ radius ∧ y ≤ radius := by
  rw [octant_eq_map, List.mem_map] at h
  obtain ⟨s, hs, hpoint⟩ := h
  cases hpoint
  have hfollows := follows_of_mem_stages hs
  refine ⟨hfollows.x_le, ?_⟩
  by_contra hlt
  have houter := hfollows.outer
  have hlt' : (radius : ℤ) + 1 ≤ s.y := by exact_mod_cast not_le.1 hlt
  nlinarith

theorem abs_sub_center_le {c : Circle} {d : Cell} (h : d ∈ c.outline) :
    |d.col - c.center.col| ≤ c.radius ∧ |d.row - c.center.row| ≤ c.radius := by
  rw [outline, List.mem_flatMap] at h
  obtain ⟨⟨x, y⟩, hmem, hd⟩ := h
  obtain ⟨hx, hy⟩ := le_radius_of_mem_octant hmem
  simp only [reflections, List.mem_cons, List.not_mem_nil, or_false] at hd
  rw [abs_le, abs_le]
  rcases hd with rfl | rfl | rfl | rfl | rfl | rfl | rfl | rfl <;> dsimp only <;> omega

/-- One step of the walk on an octant in words, if there is one. -/
def Stage.step? (s : Stage) : Option (Option Stage) :=
  if s.y < s.x then do
    let y ← word? (s.y + 1)
    let row ← word? (2 * y)
    if s.p ≤ 0 then
      let odd ← word? (row + 1)
      let p ← word? (s.p + odd)
      return some ⟨s.x, y.toNat, p⟩
    else
      let x ← word? (s.x - 1)
      let col ← word? (2 * x)
      let even ← word? (row - col)
      let odd ← word? (even + 1)
      let p ← word? (s.p + odd)
      return some ⟨x.toNat, y.toNat, p⟩
  else some none

/-- The number of a stage is no longer than a few radii. -/
theorem Stage.Follows.abs_p_le {radius : ℕ} {s : Stage} (hs : s.Follows radius) : |s.p| ≤ 5 * radius + 3 := by
  have hclose := abs_le.1 hs.abs_sq_sub_le
  have hx : (s.x : ℤ) ≤ radius := by exact_mod_cast hs.x_le
  have hy : (s.y : ℤ) ≤ s.x + 1 := by exact_mod_cast hs.y_le
  have hp : s.p = (s.x ^ 2 + s.y ^ 2 - radius ^ 2 : ℤ) + 2 * s.y + 1 - s.x := by
    rw [hs.p_eq]
    ring
  rw [hp, abs_le]
  constructor <;> linarith

theorem Stage.step?_eq {radius : ℕ} (hradius : radius ≤ 2 ^ 57) {s : Stage} (hs : s.Follows radius) :
    s.step? = some s.next? := by
  have hp := hs.abs_p_le
  have hx := hs.x_le
  obtain ⟨x, y, p⟩ := s
  dsimp only at hp hx
  rw [abs_le] at hp
  have hy : ((y : ℤ) + 1).toNat = y + 1 := by omega
  have hx' : ((x : ℤ) - 1).toNat = x - 1 := by omega
  unfold step? next?
  dsimp only
  by_cases hlt : y < x
  · rw [if_pos hlt, if_pos hlt, word?_bind (by omega), word?_bind (by omega), hy]
    by_cases hle : p ≤ 0
    · rw [if_pos hle, if_pos hle, word?_bind (by omega), word?_bind (by omega), ← add_assoc]
      rfl
    · rw [if_neg hle, if_neg hle, word?_bind (by omega), word?_bind (by omega), word?_bind (by omega),
        word?_bind (by omega), word?_bind (by omega), hx', ← add_assoc, ← add_sub_assoc]
      rfl
  · rw [if_neg hlt, if_neg hlt]

/-- The points from a stage on in words, refused also if there are more than the first argument allows. -/
def octant? : ℕ → Stage → Option (List (ℕ × ℕ))
  | 0, _ => none
  | n + 1, s => do
    match ← s.step? with
    | none => return [s.point]
    | some t => return s.point :: (← octant? n t)

theorem octant?_eq {radius : ℕ} (hradius : radius ≤ 2 ^ 57) {s : Stage} (hs : s.Follows radius) {n : ℕ}
    (hn : s.x - s.y < n) : octant? n s = some ((stagesFrom s).map Stage.point) := by
  obtain ⟨n, rfl⟩ := Nat.exists_eq_succ_of_ne_zero (Nat.zero_lt_of_lt hn).ne'
  induction s using Stage.induction generalizing n with
  | stop s hnext =>
    rw [octant?, Stage.step?_eq hradius hs, hnext, stagesFrom_of_none hnext]
    rfl
  | step s t hnext ih =>
    obtain ⟨hlt, hy, hx⟩ := Stage.next?_eq_some hnext
    obtain ⟨m, rfl⟩ := Nat.exists_eq_succ_of_ne_zero (show n ≠ 0 by omega)
    rw [octant?, Stage.step?_eq hradius hs, hnext, stagesFrom_of_some hnext]
    simp only [Option.bind_eq_bind, Option.bind_some, ih (hs.next hnext) m (by omega)]
    rfl

/-! ## Outlines -/

/-- The reflections of a point in words. -/
def reflections? (c : Cell) (x y : ℤ) : Option (List Cell) := do
  let right ← word? (c.col + x)
  let left ← word? (c.col - x)
  let below ← word? (c.row + y)
  let above ← word? (c.row - y)
  let right' ← word? (c.col + y)
  let left' ← word? (c.col - y)
  let below' ← word? (c.row + x)
  let above' ← word? (c.row - x)
  return [⟨right, below⟩, ⟨left, below⟩, ⟨right, above⟩, ⟨left, above⟩,
    ⟨right', below'⟩, ⟨left', below'⟩, ⟨right', above'⟩, ⟨left', above'⟩]

theorem reflections?_eq {c : Cell} (hc : c.IsSmall) {x y : ℤ} (hx : |x| ≤ 2 ^ 58) (hy : |y| ≤ 2 ^ 58) :
    reflections? c x y = some (reflections c x y) := by
  obtain ⟨hcol, hrow⟩ := hc
  rw [abs_le] at hcol hrow hx hy
  rw [reflections?, word?_bind (by omega), word?_bind (by omega), word?_bind (by omega), word?_bind (by omega),
    word?_bind (by omega), word?_bind (by omega), word?_bind (by omega), word?_bind (by omega)]
  rfl

/-- The outline of a circle in words, from its center and its radius on. -/
def outline? (c : Circle) : Option (List Cell) := do
  let col ← word? c.center.col
  let row ← word? c.center.row
  let radius ← word? c.radius
  let p ← word? (1 - radius)
  let points ← octant? (radius.toNat + 1) ⟨radius.toNat, 0, p⟩
  let cells ← points.mapM fun q => reflections? ⟨col, row⟩ q.1 q.2
  return cells.flatten

theorem outline?_eq {c : Circle} (hcol : |c.center.col| ≤ 2 ^ 57) (hrow : |c.center.row| ≤ 2 ^ 57)
    (hradius : c.radius ≤ 2 ^ 57) : c.outline? = some c.outline := by
  have hcenter : c.center.IsSmall := ⟨hcol.trans (by norm_num), hrow.trans (by norm_num)⟩
  rw [abs_le] at hcol hrow
  have hpoints : octant? (c.radius + 1) ⟨c.radius, 0, 1 - c.radius⟩ = some (octant c.radius) := by
    rw [octant_eq_map]
    exact octant?_eq hradius (follows_start c.radius) (Nat.lt_succ_self _)
  have hcells : (octant c.radius).mapM (fun q => reflections? c.center q.1 q.2) =
      some ((octant c.radius).map fun q => reflections c.center q.1 q.2) := by
    refine mapM_eq_some_map fun q hq => ?_
    obtain ⟨hx, hy⟩ := le_radius_of_mem_octant hq
    exact reflections?_eq hcenter (by rw [abs_le]; omega) (by rw [abs_le]; omega)
  rw [outline?, word?_bind (by omega), word?_bind (by omega), word?_bind (by omega), word?_bind (by omega),
    Int.toNat_natCast, hpoints]
  simp only [Option.bind_eq_bind, Option.bind_some, hcells]
  rfl

theorem isSmall_of_mem_outline {c : Circle} (hcol : |c.center.col| ≤ 2 ^ 57) (hrow : |c.center.row| ≤ 2 ^ 57)
    (hradius : c.radius ≤ 2 ^ 57) {d : Cell} (hd : d ∈ c.outline) : d.IsSmall := by
  obtain ⟨hcols, hrows⟩ := abs_sub_center_le hd
  rw [abs_le] at hcol hrow hcols hrows
  rw [Cell.IsSmall, abs_le, abs_le]
  omega

end Circle

end Easel
