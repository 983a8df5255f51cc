import Easel.Canvas.Segment
import Mathlib.Algebra.Order.Ring.Abs
import Mathlib.Algebra.Order.Ring.Int
import Mathlib.Data.List.Basic
import Mathlib.Tactic.Linarith
import Mathlib.Tactic.Ring

/-!
# Walks along segments

A walk is turn after turn (`Course.turn`, `walkFrom_eq_turn`). A turn ends the walk where it has arrived, or where
it would step along an axis that it has no steps left on; else it moves by one cell along one axis or both.

Where the walk is after `k` turns has a closed form, `Course.along`: `k` cells along the longer axis, and along the
other one the number nearest to its share of that. `turn_after_along` is one turn of it, `walkFrom_after` a whole run and
`walk_eq_map` that from the start on.

`walk_exact`: a walk goes from the start to the stop of its segment, comes to the stop with its last turn only, never
leaves the segment by more than half a cell, and no turn is blocked.
-/

namespace Easel.Segment

/-! ## Turns -/

/-- A walk on its way: its error, the cell it is at, and the steps that are left along the columns and the rows. -/
structure Walker where
  err : Int
  cell : Cell
  cols : Nat
  rows : Nat
deriving DecidableEq, Repr

/-- How a turn ends: the walk is where it is to go, it has no steps left along an axis it would step on, or it is
in another cell. -/
inductive Turn where
  | arrived
  | blocked
  | moved (next : Walker)
deriving DecidableEq, Repr

/-- One turn of a walk. -/
def Course.turn (w : Course) (v : Walker) : Turn :=
  if v.cols = 0 ∧ v.rows = 0 then .arrived
  else if -(w.rows : Int) ≤ 2 * v.err then
    match v.cols with
    | 0 => .blocked
    | i + 1 =>
      if 2 * v.err ≤ w.cols then
        match v.rows with
        | 0 => .blocked
        | j + 1 => .moved ⟨v.err - w.rows + w.cols, ⟨v.cell.col + w.stepCol, v.cell.row + w.stepRow⟩, i, j⟩
      else .moved ⟨v.err - w.rows, ⟨v.cell.col + w.stepCol, v.cell.row⟩, i, v.rows⟩
  else
    match v.rows with
    | 0 => .blocked
    | j + 1 => .moved ⟨v.err + w.cols, ⟨v.cell.col, v.cell.row + w.stepRow⟩, v.cols, j⟩

/-- The walk goes on after a turn that moves, and after no other. -/
theorem walkFrom_eq_turn (w : Course) (v : Walker) :
    walkFrom w v.err v.cell v.cols v.rows = v.cell ::
      match w.turn v with
      | .moved next => walkFrom w next.err next.cell next.cols next.rows
      | _ => [] := by
  obtain ⟨err, c, i, j⟩ := v
  rw [walkFrom.eq_def, Course.turn]
  dsimp only
  congr 1
  split
  · rfl
  · split
    · cases i with
      | zero => rfl
      | succ i =>
        dsimp only
        split
        · cases j <;> rfl
        · rfl
    · cases j <;> rfl

namespace Course

variable (w : Course)

/-! ## Nearest quotients -/

/-- The natural number nearest to `a / b`; halves go up. -/
def nearestQuotient (a b : Nat) : Nat := (2 * a + b) / (2 * b)

theorem nearestQuotient_bounds (a : Nat) {b : Nat} (hb : 0 < b) :
    2 * (b * nearestQuotient a b) ≤ 2 * a + b ∧ 2 * a + b < 2 * (b * nearestQuotient a b) + 2 * b := by
  have hlo := Nat.mul_div_le (2 * a + b) (2 * b)
  have hhi := Nat.lt_mul_div_succ (2 * a + b) (show 0 < 2 * b by omega)
  rw [Nat.mul_add_one] at hhi
  rw [← Nat.mul_assoc]
  exact ⟨hlo, hhi⟩

theorem nearestQuotient_eq {a b q : Nat} (hb : 0 < b) (hlo : 2 * (b * q) ≤ 2 * a + b)
    (hhi : 2 * a + b < 2 * (b * q) + 2 * b) : nearestQuotient a b = q := by
  rw [nearestQuotient, Nat.div_eq_iff (by omega), Nat.mul_comm q, Nat.mul_assoc]
  omega

theorem nearestQuotient_zero (b : Nat) : nearestQuotient 0 b = 0 := by
  rw [nearestQuotient, Nat.div_eq_zero_iff]
  omega

theorem nearestQuotient_mul {b : Nat} (hb : 0 < b) (n : Nat) : nearestQuotient (b * n) b = n :=
  nearestQuotient_eq hb (by omega) (by omega)

/-- Where no more than the divisor is added, the quotient stays or becomes the next one. -/
theorem nearestQuotient_add {a b c : Nat} (hb : 0 < b) (hc : c ≤ b) :
    nearestQuotient (a + c) b =
      if b * (2 * nearestQuotient a b + 1) ≤ 2 * (a + c) then nearestQuotient a b + 1 else nearestQuotient a b := by
  have hbounds := nearestQuotient_bounds a hb
  have hexpand : b * (2 * nearestQuotient a b + 1) = 2 * (b * nearestQuotient a b) + b := by ring
  rw [hexpand]
  split
  · exact nearestQuotient_eq hb (by rw [Nat.mul_add_one]; omega) (by rw [Nat.mul_add_one]; omega)
  · exact nearestQuotient_eq hb (by omega) (by omega)

theorem nearestQuotient_le {a b n : Nat} (hb : 0 < b) (h : a ≤ b * n) : nearestQuotient a b ≤ n := by
  have hlo := (nearestQuotient_bounds a hb).1
  by_contra hlt
  have hmul := Nat.mul_le_mul_left b (Nat.succ_le_of_lt (not_le.1 hlt))
  rw [Nat.succ_eq_add_one, Nat.mul_add_one] at hmul
  omega

/-! ## The closed form -/

/-- The steps along the columns and the rows that are taken after `k` turns. -/
def along (k : Nat) : Nat × Nat :=
  if w.rows ≤ w.cols then (k, nearestQuotient (k * w.rows) w.cols) else (nearestQuotient (k * w.cols) w.rows, k)

/-- The turns that a walk needs. -/
def turns : Nat := max w.cols w.rows

theorem along_of_le (h : w.rows ≤ w.cols) (k : Nat) : w.along k = (k, nearestQuotient (k * w.rows) w.cols) :=
  if_pos h

theorem along_of_lt (h : w.cols < w.rows) (k : Nat) : w.along k = (nearestQuotient (k * w.cols) w.rows, k) :=
  if_neg (Nat.not_le.2 h)

theorem along_zero : w.along 0 = (0, 0) := by
  unfold along
  split <;> simp [nearestQuotient_zero]

/-- A turn is a step along the longer axis, and may be one along the other. -/
theorem along_succ {k : Nat} (hk : k < w.turns) :
    if w.rows ≤ w.cols then
      (w.along (k + 1)).1 = (w.along k).1 + 1 ∧
        ((w.along (k + 1)).2 = (w.along k).2 ∨ (w.along (k + 1)).2 = (w.along k).2 + 1)
    else
      (w.along (k + 1)).2 = (w.along k).2 + 1 ∧
        ((w.along (k + 1)).1 = (w.along k).1 ∨ (w.along (k + 1)).1 = (w.along k).1 + 1) := by
  unfold turns at hk
  split
  · next h =>
    rw [along_of_le w h, along_of_le w h, Nat.succ_mul, nearestQuotient_add (by omega) h]
    refine ⟨rfl, ?_⟩
    split
    · exact .inr rfl
    · exact .inl rfl
  · next h =>
    rw [not_le] at h
    rw [along_of_lt w h, along_of_lt w h, Nat.succ_mul, nearestQuotient_add (by omega) h.le]
    refine ⟨rfl, ?_⟩
    split
    · exact .inr rfl
    · exact .inl rfl

theorem along_le {k : Nat} (hk : k ≤ w.turns) : (w.along k).1 ≤ w.cols ∧ (w.along k).2 ≤ w.rows := by
  unfold turns at hk
  rcases Nat.lt_or_ge w.cols w.rows with h | h
  · rw [along_of_lt w h]
    exact ⟨nearestQuotient_le (by omega) (Nat.mul_le_mul_right _ (by omega)), by dsimp only; omega⟩
  · rw [along_of_le w h]
    refine ⟨by dsimp only; omega, ?_⟩
    rcases Nat.eq_zero_or_pos w.cols with hzero | hpos
    · simp [nearestQuotient, hzero]
    · exact nearestQuotient_le hpos (Nat.mul_le_mul_right _ (by omega))

theorem along_turns : w.along w.turns = (w.cols, w.rows) := by
  unfold turns
  rcases Nat.lt_or_ge w.cols w.rows with h | h
  · rw [along_of_lt w h, Nat.max_eq_right h.le, nearestQuotient_mul (by omega)]
  · rw [along_of_le w h, Nat.max_eq_left h]
    rcases Nat.eq_zero_or_pos w.cols with hzero | hpos
    · simp [nearestQuotient, hzero, show w.rows = 0 by omega]
    · rw [nearestQuotient_mul hpos]

/-- The walk never is more than half a cell away from the segment. -/
theorem abs_along_le (k : Nat) :
    2 * |((w.along k).2 * w.cols - (w.along k).1 * w.rows : Int)| ≤ w.turns := by
  unfold turns
  rcases Nat.lt_or_ge w.cols w.rows with h | h
  · rw [along_of_lt w h, Nat.max_eq_right h.le]
    have hbounds := nearestQuotient_bounds (k * w.cols) (show 0 < w.rows by omega)
    zify at hbounds
    rw [← abs_two, ← abs_mul, abs_le]
    dsimp only
    constructor <;> linarith
  · rw [along_of_le w h, Nat.max_eq_left h]
    rcases Nat.eq_zero_or_pos w.cols with hzero | hpos
    · simp [nearestQuotient, hzero, show w.rows = 0 by omega]
    · have hbounds := nearestQuotient_bounds (k * w.rows) hpos
      zify at hbounds
      rw [← abs_two, ← abs_mul, abs_le]
      dsimp only
      constructor <;> linarith

/-! ## Runs -/

/-- The walk after so many steps along the columns and the rows. -/
def after (start : Cell) (steps : Nat × Nat) : Walker where
  err := (steps.2 + 1) * w.cols - (steps.1 + 1) * w.rows
  cell := ⟨start.col + steps.1 * w.stepCol, start.row + steps.2 * w.stepRow⟩
  cols := w.cols - steps.1
  rows := w.rows - steps.2

section
variable {w} (start : Cell) {i j : Nat}

theorem turn_both (hi : i < w.cols) (hj : j < w.rows) (hcol : -(w.rows : Int) ≤ 2 * (w.after start (i, j)).err)
    (hrow : 2 * (w.after start (i, j)).err ≤ w.cols) :
    w.turn (w.after start (i, j)) = .moved (w.after start (i + 1, j + 1)) := by
  obtain ⟨m, hm⟩ := Nat.exists_eq_add_of_lt hi
  obtain ⟨n, hn⟩ := Nat.exists_eq_add_of_lt hj
  have hcols : (w.after start (i, j)).cols = m + 1 := by simp only [after]; omega
  have hrows : (w.after start (i, j)).rows = n + 1 := by simp only [after]; omega
  simp only [turn, hcol, hrow, hcols, hrows, Nat.add_eq_zero_iff, Nat.one_ne_zero, and_false, if_false, if_true]
  simp only [after, Turn.moved.injEq, Walker.mk.injEq, Cell.mk.injEq]
  refine ⟨by push_cast; ring, ⟨by push_cast; ring, by push_cast; ring⟩, by omega, by omega⟩

theorem turn_col (hi : i < w.cols) (hcol : -(w.rows : Int) ≤ 2 * (w.after start (i, j)).err)
    (hrow : ¬ 2 * (w.after start (i, j)).err ≤ w.cols) :
    w.turn (w.after start (i, j)) = .moved (w.after start (i + 1, j)) := by
  obtain ⟨m, hm⟩ := Nat.exists_eq_add_of_lt hi
  have hcols : (w.after start (i, j)).cols = m + 1 := by simp only [after]; omega
  simp only [turn, hcol, hrow, hcols, Nat.add_eq_zero_iff, Nat.one_ne_zero, and_false, false_and, if_false, if_true]
  simp only [after, Turn.moved.injEq, Walker.mk.injEq, Cell.mk.injEq]
  refine ⟨by push_cast; ring, ⟨by push_cast; ring, trivial⟩, by omega, trivial⟩

theorem turn_row (hj : j < w.rows) (hcol : ¬ -(w.rows : Int) ≤ 2 * (w.after start (i, j)).err) :
    w.turn (w.after start (i, j)) = .moved (w.after start (i, j + 1)) := by
  obtain ⟨n, hn⟩ := Nat.exists_eq_add_of_lt hj
  have hrows : (w.after start (i, j)).rows = n + 1 := by simp only [after]; omega
  simp only [turn, hcol, hrows, Nat.add_eq_zero_iff, Nat.one_ne_zero, and_false, if_false]
  simp only [after, Turn.moved.injEq, Walker.mk.injEq, Cell.mk.injEq]
  refine ⟨by push_cast; ring, ⟨trivial, by push_cast; ring⟩, trivial, by omega⟩

end

/-- Until the last turn the walk moves to where the closed form says. -/
theorem turn_after_along (start : Cell) {k : Nat} (hk : k < w.turns) :
    w.turn (w.after start (w.along k)) = .moved (w.after start (w.along (k + 1))) := by
  have hle := w.along_le (Nat.succ_le_of_lt hk)
  unfold turns at hk
  rcases Nat.lt_or_ge w.cols w.rows with h | h
  · have hpos : 0 < w.rows := by omega
    have hbounds := nearestQuotient_bounds (k * w.cols) hpos
    have hnext := along_of_lt w h (k + 1)
    rw [Nat.succ_mul, nearestQuotient_add hpos h.le] at hnext
    rw [hnext] at hle ⊢
    rw [along_of_lt w h]
    generalize nearestQuotient (k * w.cols) w.rows = q at hbounds hle ⊢
    zify at hbounds
    split at hle
    · next hcol =>
      rw [if_pos hcol]
      zify at hcol
      exact turn_both start hle.1 hle.2 (by dsimp only [after]; linarith) (by dsimp only [after]; linarith)
    · next hcol =>
      rw [if_neg hcol]
      zify at hcol
      exact turn_row start hle.2 (by dsimp only [after]; linarith)
  · have hpos : 0 < w.cols := by omega
    have hbounds := nearestQuotient_bounds (k * w.rows) hpos
    have hnext := along_of_le w h (k + 1)
    rw [Nat.succ_mul, nearestQuotient_add hpos h] at hnext
    rw [hnext] at hle ⊢
    rw [along_of_le w h]
    generalize nearestQuotient (k * w.rows) w.cols = q at hbounds hle ⊢
    zify at hbounds
    split at hle
    · next hrow =>
      rw [if_pos hrow]
      zify at hrow
      exact turn_both start hle.1 hle.2 (by dsimp only [after]; linarith) (by dsimp only [after]; linarith)
    · next hrow =>
      rw [if_neg hrow]
      zify at hrow
      exact turn_col start hle.1 (by dsimp only [after]; linarith) (by dsimp only [after]; linarith)

theorem turn_after_turns (start : Cell) : w.turn (w.after start (w.along w.turns)) = .arrived := by
  simp [turn, after, along_turns]

/-- From any turn on, the cells of a walk are those of the turns that follow. -/
theorem walkFrom_after (start : Cell) {k n : Nat} (h : k + n = w.turns) :
    let v := w.after start (w.along k)
    walkFrom w v.err v.cell v.cols v.rows =
      (List.range' k (n + 1)).map fun k => (w.after start (w.along k)).cell := by
  induction n generalizing k with
  | zero =>
    obtain rfl : k = w.turns := h
    intro v
    rw [walkFrom_eq_turn, turn_after_turns]
    rfl
  | succ n ih =>
    intro v
    rw [walkFrom_eq_turn, turn_after_along w start (by omega), List.range'_succ, List.map_cons]
    exact congrArg _ (ih (by omega))

end Course

/-! ## Segments -/

/-- What a walk along the segment has to go. -/
def course (s : Segment) : Course where
  stepCol := if s.start.col < s.stop.col then 1 else -1
  stepRow := if s.start.row < s.stop.row then 1 else -1
  cols := (s.stop.col - s.start.col).natAbs
  rows := (s.stop.row - s.start.row).natAbs

theorem after_zero (s : Segment) :
    s.course.after s.start (s.course.along 0) =
      ⟨s.course.cols - s.course.rows, s.start, s.course.cols, s.course.rows⟩ := by
  simp [Course.after, Course.along_zero]

/-- The cells of a walk in closed form. -/
theorem walk_eq_map (s : Segment) :
    s.walk = (List.range (s.course.turns + 1)).map fun k => (s.course.after s.start (s.course.along k)).cell := by
  have h := s.course.walkFrom_after s.start (Nat.zero_add s.course.turns)
  rw [after_zero] at h
  rw [List.range_eq_range']
  exact h

/-- All the steps along the columns and the rows lead from the start to the stop. -/
theorem after_turns (s : Segment) : (s.course.after s.start (s.course.along s.course.turns)).cell = s.stop := by
  obtain ⟨⟨x, y⟩, x', y'⟩ := s
  simp only [Course.along_turns, Course.after, course, Cell.mk.injEq]
  constructor
  · split <;> omega
  · split <;> omega

/-- A column is the last one where no steps along the columns are left, and only there. -/
theorem after_col_eq_stop_iff (s : Segment) {k : Nat} (hk : k ≤ s.course.turns) :
    (s.course.after s.start (s.course.along k)).cell.col = s.stop.col ↔
      (s.course.after s.start (s.course.along k)).cols = 0 := by
  have hle := (s.course.along_le hk).1
  generalize s.course.along k = steps at hle
  obtain ⟨⟨x, y⟩, x', y'⟩ := s
  simp only [course] at hle
  simp only [Course.after, course]
  split <;> omega

theorem after_row_eq_stop_iff (s : Segment) {k : Nat} (hk : k ≤ s.course.turns) :
    (s.course.after s.start (s.course.along k)).cell.row = s.stop.row ↔
      (s.course.after s.start (s.course.along k)).rows = 0 := by
  have hle := (s.course.along_le hk).2
  generalize s.course.along k = steps at hle
  obtain ⟨⟨x, y⟩, x', y'⟩ := s
  simp only [course] at hle
  simp only [Course.after, course]
  split <;> omega

/-- Before the last turn a walk is not at the stop. -/
theorem after_cell_ne_stop (s : Segment) {k : Nat} (hk : k < s.course.turns) :
    (s.course.after s.start (s.course.along k)).cell ≠ s.stop := by
  intro hstop
  have hcols := (s.after_col_eq_stop_iff hk.le).1 (congrArg Cell.col hstop)
  have hrows := (s.after_row_eq_stop_iff hk.le).1 (congrArg Cell.row hstop)
  have harrived : s.course.turn (s.course.after s.start (s.course.along k)) = .arrived := if_pos ⟨hcols, hrows⟩
  rw [s.course.turn_after_along s.start hk] at harrived
  cases harrived

theorem start_mem_walk (s : Segment) : s.start ∈ s.walk := by
  rw [walk_eq_map]
  exact List.mem_map.2 ⟨0, List.mem_range.2 (Nat.succ_pos _), by rw [after_zero]⟩

theorem stop_mem_walk (s : Segment) : s.stop ∈ s.walk := by
  rw [walk_eq_map]
  exact List.mem_map.2 ⟨s.course.turns, List.mem_range.2 (Nat.lt_succ_self _), s.after_turns⟩

/-- A walk along any segment is turn after turn from the start on, `k` turns take it to the steps `along k`, and it
ends with the turn after which it has arrived at the stop, so that none is blocked. It is not at the stop before, and no
steps along an axis are left where it is level with the stop, and only there. It has one cell more than the segment is
long on its longer axis. Every turn is one step towards the stop on that axis and at most one on the other, and no cell
is further than half a cell from the segment. -/
theorem walk_exact (s : Segment) :
    let w := course s
    let walker (k : Nat) : Walker := w.after s.start (w.along k)
    (∀ v : Walker, walkFrom w v.err v.cell v.cols v.rows = v.cell ::
      match w.turn v with
      | .moved next => walkFrom w next.err next.cell next.cols next.rows
      | _ => []) ∧
    (walk s = (List.range (w.turns + 1)).map fun k => (walker k).cell) ∧
    (walk s).length = max (s.stop.col - s.start.col).natAbs (s.stop.row - s.start.row).natAbs + 1 ∧
    (walker 0 = ⟨w.cols - w.rows, s.start, w.cols, w.rows⟩ ∧
      (∀ k < w.turns, w.turn (walker k) = .moved (walker (k + 1))) ∧
      w.turn (walker w.turns) = .arrived ∧ (walker w.turns).cell = s.stop) ∧
    (∀ k ≤ w.turns, ((walker k).cell.col = s.stop.col ↔ (walker k).cols = 0) ∧
      ((walker k).cell.row = s.stop.row ↔ (walker k).rows = 0) ∧ (k < w.turns → (walker k).cell ≠ s.stop)) ∧
    (∀ k < w.turns,
      if w.rows ≤ w.cols then
        (w.along (k + 1)).1 = (w.along k).1 + 1 ∧
          ((w.along (k + 1)).2 = (w.along k).2 ∨ (w.along (k + 1)).2 = (w.along k).2 + 1)
      else
        (w.along (k + 1)).2 = (w.along k).2 + 1 ∧
          ((w.along (k + 1)).1 = (w.along k).1 ∨ (w.along (k + 1)).1 = (w.along k).1 + 1)) ∧
    ∀ k, 2 * |((w.along k).2 * w.cols - (w.along k).1 * w.rows : Int)| ≤ max w.cols w.rows := by
  refine ⟨walkFrom_eq_turn s.course, s.walk_eq_map, ?_, ⟨s.after_zero, fun k hk => s.course.turn_after_along s.start hk,
    s.course.turn_after_turns s.start, s.after_turns⟩,
    fun k hk => ⟨s.after_col_eq_stop_iff hk, s.after_row_eq_stop_iff hk, s.after_cell_ne_stop⟩,
    fun k hk => s.course.along_succ hk, s.course.abs_along_le⟩
  rw [walk_eq_map, List.length_map, List.length_range]
  rfl

end Easel.Segment
