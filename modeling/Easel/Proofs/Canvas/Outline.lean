import Easel.Canvas.Circle
import Mathlib.Analysis.Real.Sqrt
import Mathlib.Data.List.Chain
import Mathlib.Data.List.Nodup
import Mathlib.Tactic.IntervalCases

/-!
# Outlines of circles

The octant of a circle is walked stage by stage (`Stage.next?`, `octant_eq_map`). What a stage keeps, `Follows`, is
that its number decides rightly and that its point is as near to the circle as cells can be (`Follows.next`).

The points up to the diagonal and their mirror images are a quarter of the outline (`folded`, `isQuarter_folded`),
and a cell is on the outline if its distances from the two axes are in the quarter (`mem_outline`). So the eight
reflections are alike, and a quarter turned three times around the center is all of the outline (`loop`).

`outline_exact`: for every radius the walk is accurate, and the outline is one closed loop of cells that touch.
-/

namespace Easel.Circle

/-! ## Stages -/

/-- Where the walk on an octant is: the point, and the number whose sign decides on the next step. -/
structure Stage where
  x : Nat
  y : Nat
  p : Int
deriving DecidableEq, Repr

namespace Stage

/-- The point of a stage. -/
def point (s : Stage) : Nat × Nat := (s.x, s.y)

/-- One step of the walk; there is none from the diagonal on. -/
def next? (s : Stage) : Option Stage :=
  if s.y < s.x then
    if s.p ≤ 0 then some ⟨s.x, s.y + 1, s.p + 2 * (s.y + 1) + 1⟩
    else some ⟨s.x - 1, s.y + 1, s.p + 2 * (s.y + 1) - 2 * (s.x - 1) + 1⟩
  else none

theorem next?_eq_none {s : Stage} : s.next? = none ↔ s.x ≤ s.y := by
  unfold next?
  split
  · next h => split <;> simp [h]
  · next h => simpa using h

/-- What a step changes. -/
theorem next?_eq_some {s t : Stage} (h : s.next? = some t) :
    s.y < s.x ∧ t.y = s.y + 1 ∧
      (s.p ≤ 0 ∧ t.x = s.x ∧ t.p = s.p + 2 * (s.y + 1) + 1 ∨
        0 < s.p ∧ t.x + 1 = s.x ∧ t.p = s.p + 2 * (s.y + 1) - 2 * (s.x - 1) + 1) := by
  unfold next? at h
  split at h
  · next hlt =>
    split at h
    · next hp =>
      cases h
      exact ⟨hlt, rfl, .inl ⟨hp, rfl, rfl⟩⟩
    · next hp =>
      cases h
      exact ⟨hlt, rfl, .inr ⟨not_le.1 hp, by dsimp only; omega, rfl⟩⟩
  · cases h

end Stage

/-- The walk from a stage on. -/
def stagesFrom (s : Stage) : List Stage :=
  s :: match _h : s.next? with
    | none => []
    | some t => stagesFrom t
termination_by s.x - s.y
decreasing_by
  have := Stage.next?_eq_some _h
  omega

theorem stagesFrom_of_none {s : Stage} (h : s.next? = none) : stagesFrom s = [s] := by
  rw [stagesFrom]
  split <;> simp_all

theorem stagesFrom_of_some {s t : Stage} (h : s.next? = some t) : stagesFrom s = s :: stagesFrom t := by
  rw [stagesFrom]
  split <;> simp_all

/-- What holds where the walk ends, and at a stage if it holds at the next one, holds at every stage. -/
theorem Stage.induction {motive : Stage → Prop} (stop : ∀ s, s.next? = none → motive s)
    (step : ∀ s t, s.next? = some t → motive t → motive s) (s : Stage) : motive s := by
  induction s using stagesFrom.induct with
  | case1 s ih =>
    cases hnext : s.next? with
    | none => exact stop s hnext
    | some t => exact step s t hnext (ih t hnext)

theorem octantFrom_eq_map (s : Stage) : octantFrom s.x s.y s.p = (stagesFrom s).map Stage.point := by
  induction s using Stage.induction with
  | stop s hnext =>
    rw [octantFrom, stagesFrom_of_none hnext, if_neg (not_lt.2 (Stage.next?_eq_none.1 hnext))]
    rfl
  | step s t hnext ih =>
    rw [octantFrom, stagesFrom_of_some hnext, List.map_cons, ← ih]
    simp only [Stage.next?] at hnext
    split at hnext
    · next hlt =>
      rw [if_pos hlt]
      split at hnext
      · next hp =>
        cases hnext
        rw [if_pos hp]
        rfl
      · next hp =>
        cases hnext
        rw [if_neg hp]
        rfl
    · cases hnext

/-- The walk on the octant of a circle. -/
def stages (radius : Nat) : List Stage := stagesFrom ⟨radius, 0, 1 - radius⟩

theorem octant_eq_map (radius : Nat) : octant radius = (stages radius).map Stage.point :=
  octantFrom_eq_map ⟨radius, 0, 1 - radius⟩

theorem head?_stagesFrom (s : Stage) : (stagesFrom s).head? = some s := by
  rw [stagesFrom]
  rfl

theorem stagesFrom_eq_cons (s : Stage) : stagesFrom s = s :: (stagesFrom s).tail :=
  (List.cons_head?_tail (head?_stagesFrom s)).symm

/-- A walk is step after step. -/
theorem isChain_stagesFrom (s : Stage) : (stagesFrom s).IsChain fun s t => s.next? = some t := by
  induction s using Stage.induction with
  | stop s hnext => simp [stagesFrom_of_none hnext]
  | step s t hnext ih =>
    rw [stagesFrom_of_some hnext, List.isChain_cons, head?_stagesFrom]
    exact ⟨by simpa using hnext, ih⟩

theorem exists_getLast?_stagesFrom (s : Stage) : ∃ t, (stagesFrom s).getLast? = some t ∧ t.next? = none := by
  induction s using Stage.induction with
  | stop s hnext => exact ⟨s, by rw [stagesFrom_of_none hnext]; rfl, hnext⟩
  | step s t hnext ih =>
    obtain ⟨last, hlast, hnone⟩ := ih
    exact ⟨last, by rw [stagesFrom_of_some hnext, List.getLast?_cons, hlast]; rfl, hnone⟩

/-! ## Accuracy -/

/-- The stage belongs to the circle of this radius: its number is that of the point half a cell further in, and the
point is as near to the circle as cells can be. -/
structure Stage.Follows (radius : Nat) (s : Stage) : Prop where
  p_eq : s.p = ((s.y : Int) + 1) ^ 2 + (s.x : Int) ^ 2 - s.x - (radius : Int) ^ 2
  x_le : s.x ≤ radius
  y_le : s.y ≤ s.x + 1
  inner : radius = 0 ∨ (radius : Int) ^ 2 < (s.x : Int) ^ 2 + (s.y : Int) ^ 2 + radius
  outer : (s.x : Int) ^ 2 + (s.y : Int) ^ 2 ≤ (radius : Int) ^ 2 + radius

theorem follows_start (radius : Nat) : Stage.Follows radius ⟨radius, 0, 1 - radius⟩ where
  p_eq := by push_cast; ring
  x_le := le_rfl
  y_le := Nat.zero_le _
  inner := by
    rw [or_iff_not_imp_left]
    intro h
    have hpos : (0 : Int) < radius := by exact_mod_cast Nat.pos_of_ne_zero h
    push_cast
    linarith
  outer := by push_cast; linarith

/-- A step on the column leaves the number at most 0 before it, so the point stays near the circle from outside; a
step inwards leaves it above 0, so the point stays near from inside. -/
theorem Stage.Follows.next {radius : Nat} {s t : Stage} (hs : s.Follows radius) (h : s.next? = some t) :
    t.Follows radius := by
  obtain ⟨x, y, p⟩ := s
  obtain ⟨x', y', p'⟩ := t
  obtain ⟨hp, hx, -, hinner, houter⟩ := hs
  obtain ⟨hlt, hy, hstep⟩ := next?_eq_some h
  dsimp only at hp hx hinner houter hlt hy hstep
  rcases hstep with ⟨hle, hx', hp'⟩ | ⟨hpos, hx', hp'⟩
  · subst hy hx' hp'
    refine ⟨by rw [hp]; push_cast; ring, hx, by dsimp only; omega, ?_, ?_⟩
    · refine hinner.imp_right fun hinner => ?_
      push_cast
      linarith
    · zify at hx
      push_cast
      linarith
  · obtain rfl : x = x' + 1 := hx'.symm
    subst hy hp'
    push_cast at hp hinner houter hx
    zify at hlt hx
    refine ⟨by rw [hp]; push_cast; ring, by dsimp only; omega, by dsimp only; omega, .inr ?_, ?_⟩
    · push_cast
      linarith
    · push_cast
      linarith

theorem follows_of_mem {radius : Nat} {s : Stage} (hs : s.Follows radius) {t : Stage} (ht : t ∈ stagesFrom s) :
    t.Follows radius := by
  induction s using Stage.induction with
  | stop s hnext =>
    rw [stagesFrom_of_none hnext, List.mem_singleton] at ht
    rwa [ht]
  | step s next hnext ih =>
    rw [stagesFrom_of_some hnext, List.mem_cons] at ht
    rcases ht with rfl | ht
    · exact hs
    · exact ih (hs.next hnext) ht

theorem follows_of_mem_stages {radius : Nat} {s : Stage} (hs : s ∈ stages radius) : s.Follows radius :=
  follows_of_mem (follows_start radius) hs

theorem Stage.Follows.abs_sq_sub_le {radius : Nat} {s : Stage} (hs : s.Follows radius) :
    |(s.x : Int) ^ 2 + (s.y : Int) ^ 2 - (radius : Int) ^ 2| ≤ radius := by
  have hinner := hs.inner
  have houter := hs.outer
  rw [abs_le]
  constructor
  · rcases hinner with rfl | hinner
    · push_cast
      nlinarith
    · linarith
  · linarith

/-- The point is at most half a cell away from the circle. -/
theorem Stage.Follows.abs_sqrt_sub_le {radius : Nat} {s : Stage} (hs : s.Follows radius) :
    |√((s.x : ℝ) ^ 2 + (s.y : ℝ) ^ 2) - radius| ≤ 1 / 2 := by
  have houter : (s.x : ℝ) ^ 2 + (s.y : ℝ) ^ 2 ≤ (radius : ℝ) ^ 2 + radius := by exact_mod_cast hs.outer
  have hupper : √((s.x : ℝ) ^ 2 + (s.y : ℝ) ^ 2) ≤ radius + 1 / 2 := by
    rw [Real.sqrt_le_left (by positivity)]
    linarith
  have hlower : radius - 1 / 2 ≤ √((s.x : ℝ) ^ 2 + (s.y : ℝ) ^ 2) := by
    rcases hs.inner with hzero | hinner
    · have hsqrt := Real.sqrt_nonneg ((s.x : ℝ) ^ 2 + (s.y : ℝ) ^ 2)
      rw [hzero]
      push_cast
      linarith
    · have hint : (radius : ℤ) ^ 2 + 1 ≤ (s.x : ℤ) ^ 2 + (s.y : ℤ) ^ 2 + radius := hinner
      have hreal : (radius : ℝ) ^ 2 + 1 ≤ (s.x : ℝ) ^ 2 + (s.y : ℝ) ^ 2 + radius := by exact_mod_cast hint
      refine Real.le_sqrt_of_sq_le ?_
      linarith
  rw [abs_le]
  constructor <;> linarith

/-! ## Quarters -/

/-- Points that touch at a side or a corner. -/
def Beside (a b : Nat × Nat) : Prop :=
  a.1 ≤ b.1 + 1 ∧ b.1 ≤ a.1 + 1 ∧ a.2 ≤ b.2 + 1 ∧ b.2 ≤ a.2 + 1

/-- The points up to the diagonal, and from there back the mirror images of those before it. -/
def folded (points : List (Nat × Nat)) : List (Nat × Nat) :=
  (points.filter fun q => q.2 ≤ q.1) ++ ((points.filter fun q => q.2 < q.1).map Prod.swap).reverse

theorem folded_cons_of_lt {x y : Nat} (h : y < x) (points : List (Nat × Nat)) :
    folded ((x, y) :: points) = (x, y) :: folded points ++ [(y, x)] := by
  simp [folded, h, h.le]

theorem folded_singleton_self (x : Nat) : folded [(x, x)] = [(x, x)] := by
  simp [folded]

theorem folded_singleton_of_lt {x y : Nat} (h : x < y) : folded [(x, y)] = [] := by
  simp [folded, h, h.le]

theorem mem_folded {points : List (Nat × Nat)} {x y : Nat} :
    (x, y) ∈ folded points ↔ (x, y) ∈ points ∧ y ≤ x ∨ (y, x) ∈ points ∧ x < y := by
  simp [folded]

/-- The quarter of an outline from a point on the octant on to its mirror image. -/
structure IsQuarter (x y : Nat) (quarter : List (Nat × Nat)) : Prop where
  isChain : quarter.IsChain Beside
  head?_eq : quarter.head? = some (x, y)
  getLast?_eq : quarter.getLast? = some (y, x)
  nodup : quarter.Nodup
  le : ∀ q ∈ quarter, y ≤ q.1 ∧ y ≤ q.2

/-- A quarter grows by a point at its start and the mirror image at its end. -/
theorem IsQuarter.cons {x y x' : Nat} {quarter : List (Nat × Nat)} (h : IsQuarter x' (y + 1) quarter) (hlt : y < x)
    (hx : x' ≤ x) (hx' : x ≤ x' + 1) : IsQuarter x y ((x, y) :: quarter ++ [(y, x)]) where
  isChain := by
    have hlast : (quarter ++ [(y, x)]).IsChain Beside := by
      rw [List.isChain_append]
      refine ⟨h.isChain, List.isChain_singleton _, ?_⟩
      simp only [h.getLast?_eq, Option.mem_def, Option.some.injEq, List.head?_cons]
      rintro _ rfl _ rfl
      simp only [Beside]
      omega
    rw [List.cons_append, List.isChain_cons, List.head?_append, h.head?_eq]
    refine ⟨?_, hlast⟩
    rintro _ ⟨⟩
    simp only [Beside]
    omega
  head?_eq := rfl
  getLast?_eq := List.getLast?_concat
  nodup := by
    have hle : ∀ q ∈ quarter, q ≠ (x, y) ∧ q ≠ (y, x) := by
      rintro ⟨a, b⟩ hq
      have := h.le _ hq
      simp only [ne_eq, Prod.mk.injEq]
      omega
    rw [List.cons_append, List.nodup_cons, List.mem_append, List.mem_singleton, Prod.mk.injEq]
    refine ⟨?_, List.Nodup.append h.nodup (List.nodup_singleton _) ?_⟩
    · rintro (hmem | heq)
      · exact (hle _ hmem).1 rfl
      · omega
    · rw [List.disjoint_singleton]
      exact fun hmem => (hle _ hmem).2 rfl
  le := by
    intro q hq
    simp only [List.cons_append, List.mem_cons, List.mem_append, List.not_mem_nil, or_false] at hq
    rcases hq with rfl | hq | rfl
    · dsimp only
      omega
    · have := h.le q hq
      omega
    · dsimp only
      omega

/-- Where the walk ends behind the diagonal, it ends at the mirror image of the point before. -/
theorem isQuarter_pair (y : Nat) : IsQuarter (y + 1) y [(y + 1, y), (y, y + 1)] where
  isChain := by
    rw [List.isChain_pair]
    simp only [Beside]
    omega
  head?_eq := rfl
  getLast?_eq := rfl
  nodup := by simp
  le := by simp

theorem isQuarter_singleton (x : Nat) : IsQuarter x x [(x, x)] where
  isChain := List.isChain_singleton _
  head?_eq := rfl
  getLast?_eq := rfl
  nodup := List.nodup_singleton _
  le := by simp

theorem isQuarter_folded (s : Stage) (h : s.y ≤ s.x) : IsQuarter s.x s.y (folded ((stagesFrom s).map Stage.point)) := by
  induction s using Stage.induction with
  | stop s hnext =>
    have hdiagonal : s.y = s.x := h.antisymm (Stage.next?_eq_none.1 hnext)
    rw [stagesFrom_of_none hnext, List.map_singleton, Stage.point, hdiagonal, folded_singleton_self]
    exact isQuarter_singleton s.x
  | step s t hnext ih =>
    obtain ⟨hlt, hy, hx⟩ := Stage.next?_eq_some hnext
    rw [stagesFrom_of_some hnext, List.map_cons, Stage.point, folded_cons_of_lt hlt]
    by_cases hbehind : t.y ≤ t.x
    · have hquarter := ih hbehind
      rw [hy] at hquarter
      exact hquarter.cons hlt (by omega) (by omega)
    · have hnone : t.next? = none := Stage.next?_eq_none.2 (by omega)
      have hs : s.x = s.y + 1 := by omega
      rw [stagesFrom_of_none hnone, List.map_singleton, Stage.point, folded_singleton_of_lt (by omega), hs]
      exact isQuarter_pair s.y

/-- A point behind the diagonal is the mirror image of the one before. -/
theorem mem_stagesFrom_of_lt {s t : Stage} (h : s.y ≤ s.x) (ht : t ∈ stagesFrom s) (hlt : t.x < t.y) :
    (t.y, t.x) ∈ (stagesFrom s).map Stage.point := by
  induction s using Stage.induction with
  | stop s hnext =>
    rw [stagesFrom_of_none hnext, List.mem_singleton] at ht
    subst ht
    omega
  | step s next hnext ih =>
    rw [stagesFrom_of_some hnext, List.mem_cons] at ht
    rw [stagesFrom_of_some hnext, List.map_cons, List.mem_cons]
    rcases ht with rfl | ht
    · omega
    obtain ⟨hlt', hy, hx⟩ := Stage.next?_eq_some hnext
    by_cases hbehind : next.y ≤ next.x
    · exact .inr (ih hbehind ht)
    · have hnone : next.next? = none := Stage.next?_eq_none.2 (by omega)
      rw [stagesFrom_of_none hnone, List.mem_singleton] at ht
      subst ht
      left
      rw [Stage.point, Prod.mk.injEq]
      omega

/-! ## The outline -/

/-- The quarter of an outline between two axes. -/
def quarter (radius : Nat) : List (Nat × Nat) := folded (octant radius)

theorem isQuarter_quarter (radius : Nat) : IsQuarter radius 0 (quarter radius) := by
  rw [quarter, octant_eq_map]
  exact isQuarter_folded ⟨radius, 0, 1 - radius⟩ (Nat.zero_le _)

theorem mem_quarter {radius x y : Nat} : (x, y) ∈ quarter radius ↔ (x, y) ∈ octant radius ∨ (y, x) ∈ octant radius := by
  have hbehind {x y : Nat} (h : (x, y) ∈ octant radius) (hlt : x < y) : (y, x) ∈ octant radius := by
    rw [octant_eq_map] at h ⊢
    obtain ⟨t, ht, hpoint⟩ := List.mem_map.1 h
    cases hpoint
    exact mem_stagesFrom_of_lt (Nat.zero_le _) ht hlt
  rw [quarter, mem_folded]
  constructor
  · rintro (⟨h, -⟩ | ⟨h, -⟩)
    · exact .inl h
    · exact .inr h
  · rintro (h | h)
    · rcases Nat.lt_or_ge x y with hlt | hle
      · exact .inr ⟨hbehind h hlt, hlt⟩
      · exact .inl ⟨h, hle⟩
    · rcases Nat.lt_or_ge x y with hlt | hle
      · exact .inr ⟨h, hlt⟩
      · rcases hle.eq_or_lt with rfl | hlt
        · exact .inl ⟨h, hle⟩
        · exact .inl ⟨hbehind h hlt, hle⟩

theorem mem_quarter_swap {radius x y : Nat} : (x, y) ∈ quarter radius ↔ (y, x) ∈ quarter radius := by
  rw [mem_quarter, mem_quarter, or_comm]

/-- Only the distances from the axes count, in any order. -/
theorem mem_outline {c : Circle} {x y : Int} :
    (⟨c.center.col + x, c.center.row + y⟩ : Cell) ∈ c.outline ↔ (x.natAbs, y.natAbs) ∈ quarter c.radius := by
  rw [mem_quarter, outline, List.mem_flatMap]
  constructor
  · rintro ⟨⟨a, b⟩, hmem, h⟩
    simp only [reflections, List.mem_cons, Cell.mk.injEq, List.not_mem_nil, or_false] at h
    have habs : x.natAbs = a ∧ y.natAbs = b ∨ y.natAbs = a ∧ x.natAbs = b := by omega
    rcases habs with ⟨rfl, rfl⟩ | ⟨rfl, rfl⟩
    · exact .inl hmem
    · exact .inr hmem
  · rintro (h | h)
    · refine ⟨_, h, ?_⟩
      simp only [reflections, List.mem_cons, Cell.mk.injEq, List.not_mem_nil, or_false]
      omega
    · refine ⟨_, h, ?_⟩
      simp only [reflections, List.mem_cons, Cell.mk.injEq, List.not_mem_nil, or_false]
      omega

theorem mem_outline_of_mem_reflections {c : Circle} {x y : Int} {d : Cell}
    (h : (⟨c.center.col + x, c.center.row + y⟩ : Cell) ∈ c.outline) (hd : d ∈ reflections c.center x y) :
    d ∈ c.outline := by
  have hsub (n : Int) (z : Int) : n - z = n + -z := Int.sub_eq_add_neg
  rw [mem_outline] at h
  have hswap := mem_quarter_swap.1 h
  simp only [reflections, hsub, List.mem_cons, List.not_mem_nil, or_false] at hd
  rcases hd with rfl | rfl | rfl | rfl | rfl | rfl | rfl | rfl <;> rw [mem_outline] <;> simpa

/-! ## Arcs -/

/-- A quarter without its end, which is where the next one starts. -/
def arc (radius : Nat) : List (Nat × Nat) := (quarter radius).dropLast

theorem arc_append (radius : Nat) : arc radius ++ [(0, radius)] = quarter radius :=
  List.dropLast_append_getLast? _ (isQuarter_quarter radius).getLast?_eq

section
variable {radius : Nat} (hr : radius ≠ 0)
include hr

theorem exists_arc_eq_cons : ∃ rest, arc radius = (radius, 0) :: rest := by
  have hhead := (isQuarter_quarter radius).head?_eq
  rw [← arc_append, List.head?_append] at hhead
  cases harc : arc radius with
  | nil =>
    rw [harc] at hhead
    simp only [List.head?_nil, List.head?_cons, Option.none_or, Option.some.injEq, Prod.mk.injEq] at hhead
    exact absurd hhead.2 hr
  | cons a rest =>
    rw [harc] at hhead
    cases hhead
    exact ⟨rest, rfl⟩

theorem eq_radius_of_mem_quarter {y : Nat} (h : (0, y) ∈ quarter radius) : y = radius := by
  have hpos : 0 < radius := Nat.pos_of_ne_zero hr
  have hnear : radius ^ 2 < y ^ 2 + radius ∧ y ^ 2 ≤ radius ^ 2 + radius := by
    rw [mem_quarter, octant_eq_map, List.mem_map, List.mem_map] at h
    rcases h with ⟨s, hs, hpoint⟩ | ⟨s, hs, hpoint⟩
    all_goals
      have hfollows := follows_of_mem_stages hs
      have hinner := hfollows.inner.resolve_left hr
      have houter := hfollows.outer
      obtain ⟨hx, hy⟩ := Prod.mk.inj hpoint
      rw [hx, hy] at hinner houter
      push_cast at hinner houter
      zify
      constructor <;> linarith
  nlinarith

theorem mem_arc {x y : Nat} : (x, y) ∈ arc radius ↔ (x, y) ∈ quarter radius ∧ 0 < x := by
  have hnodup := (isQuarter_quarter radius).nodup
  rw [← arc_append, List.nodup_append] at hnodup
  constructor
  · intro h
    have hmem : (x, y) ∈ quarter radius := by
      rw [← arc_append]
      exact List.mem_append_left _ h
    refine ⟨hmem, Nat.pos_of_ne_zero ?_⟩
    rintro rfl
    obtain rfl := eq_radius_of_mem_quarter hr hmem
    exact hnodup.2.2 _ h _ List.mem_cons_self rfl
  · rintro ⟨h, hpos⟩
    rw [← arc_append, List.mem_append, List.mem_singleton, Prod.mk.injEq] at h
    exact h.resolve_right (by omega)

end

/-! ## The loop -/

/-- A quarter turn around a center. -/
def quarterTurn (center d : Cell) : Cell := ⟨center.col - (d.row - center.row), center.row + (d.col - center.col)⟩

/-- The cell at a point of a circle. -/
def place (center : Cell) (q : Nat × Nat) : Cell := ⟨center.col + q.1, center.row + q.2⟩

/-- The cells of an outline one after another: an arc, turned around the center. -/
def loop (c : Circle) : List Cell :=
  if c.radius = 0 then [c.center]
  else (List.range 4).flatMap fun k => ((arc c.radius).map (place c.center)).map (quarterTurn c.center)^[k]

/-- Cells that touch at a side or a corner. -/
def Touch (a b : Cell) : Prop := |a.col - b.col| ≤ 1 ∧ |a.row - b.row| ≤ 1

theorem Touch.quarterTurn (center : Cell) (a b : Cell) (h : Touch a b) :
    Touch (quarterTurn center a) (quarterTurn center b) := by
  obtain ⟨hcol, hrow⟩ := h
  simp only [Touch, Circle.quarterTurn, abs_le] at *
  omega

/-- Rounds of a list that ends where its next image begins, one behind the other. -/
theorem isChain_rounds {α : Type*} {R : α → α → Prop} {f : α → α} (hf : ∀ a b, R a b → R (f a) (f b)) {a : α}
    {l : List α} (h : (a :: l ++ [f a]).IsChain R) (n : Nat) :
    ((List.range n).flatMap (fun k => (a :: l).map f^[k]) ++ [f^[n] a]).IsChain R := by
  have hiterate (k : Nat) : ∀ a b, R a b → R (f^[k] a) (f^[k] b) := by
    induction k with
    | zero => exact fun _ _ hab => hab
    | succ k ih =>
      intro a b hab
      rw [Function.iterate_succ_apply, Function.iterate_succ_apply]
      exact ih _ _ (hf a b hab)
  induction n with
  | zero => exact List.isChain_singleton _
  | succ n ih =>
    have hround := List.isChain_map_of_isChain f^[n] (hiterate n) h
    rw [List.map_append, List.map_singleton, ← Function.iterate_succ_apply, List.map_cons] at hround
    rw [List.range_succ, List.flatMap_append, List.flatMap_singleton, List.append_assoc, List.map_cons,
      List.cons_append, List.isChain_split]
    exact ⟨ih, hround⟩

/-- The loop closes: it goes from cell to touching cell, and back from its end to its start. -/
theorem isChain_loop (c : Circle) : (c.loop ++ c.loop.take 1).IsChain Touch := by
  unfold loop
  split
  · simp [Touch]
  · next hr =>
    obtain ⟨rest, hrest⟩ := exists_arc_eq_cons hr
    have hquarter := (isQuarter_quarter c.radius).isChain
    rw [← arc_append, hrest] at hquarter
    have hplaced : (((c.radius, 0) :: rest ++ [(0, c.radius)]).map (place c.center)).IsChain Touch := by
      refine List.isChain_map_of_isChain _ ?_ hquarter
      rintro ⟨x, y⟩ ⟨x', y'⟩ h
      simp only [Beside] at h
      simp only [Touch, place, abs_le]
      omega
    have hnext : place c.center (0, c.radius) = quarterTurn c.center (place c.center (c.radius, 0)) := by
      simp [place, quarterTurn]
    rw [List.map_append, List.map_singleton, hnext, List.map_cons] at hplaced
    have hrounds := isChain_rounds (Touch.quarterTurn c.center) hplaced 4
    have hfull : (quarterTurn c.center)^[4] (place c.center (c.radius, 0)) = place c.center (c.radius, 0) := by
      simp [place, quarterTurn]
    rw [hfull] at hrounds
    rw [hrest, List.map_cons]
    exact hrounds

/-- Where quarter turns take a point. -/
def turned (center : Cell) (k x y : Nat) : Cell := (quarterTurn center)^[k] (place center (x, y))

theorem turned_zero (center : Cell) (x y : Nat) : turned center 0 x y = ⟨center.col + x, center.row + y⟩ := rfl

theorem turned_one (center : Cell) (x y : Nat) : turned center 1 x y = ⟨center.col - y, center.row + x⟩ := by
  simp [turned, place, quarterTurn]

theorem turned_two (center : Cell) (x y : Nat) : turned center 2 x y = ⟨center.col - x, center.row - y⟩ := by
  simp only [turned, place, quarterTurn, Function.iterate_succ_apply, Function.iterate_zero_apply, Cell.mk.injEq]
  omega

theorem turned_three (center : Cell) (x y : Nat) : turned center 3 x y = ⟨center.col + y, center.row - x⟩ := by
  simp only [turned, place, quarterTurn, Function.iterate_succ_apply, Function.iterate_zero_apply, Cell.mk.injEq]
  omega

theorem injective_quarterTurn (center : Cell) : Function.Injective (quarterTurn center) := by
  rintro ⟨x, y⟩ ⟨x', y'⟩ h
  simp only [quarterTurn, Cell.mk.injEq] at h ⊢
  omega

theorem mem_loop {c : Circle} (hr : c.radius ≠ 0) {d : Cell} :
    d ∈ c.loop ↔ ∃ k < 4, ∃ x y : Nat, (x, y) ∈ arc c.radius ∧ turned c.center k x y = d := by
  simp [loop, hr, turned]

/-- An arc is in one quadrant and takes one of the two half axes around it, so its turns do not meet. -/
theorem turned_ne {center : Cell} {i j x y x' y' : Nat} (hj : j < 4) (hlt : i < j) (hx : 0 < x) (hx' : 0 < x') :
    turned center i x y ≠ turned center j x' y' := by
  interval_cases j <;> interval_cases i <;>
    simp only [turned_zero, turned_one, turned_two, turned_three, ne_eq, Cell.mk.injEq] <;> omega

theorem nodup_loop (c : Circle) : c.loop.Nodup := by
  unfold loop
  split
  · exact List.nodup_singleton _
  · next hr =>
    have harc : (arc c.radius).Nodup := by
      have hnodup := (isQuarter_quarter c.radius).nodup
      rw [← arc_append, List.nodup_append] at hnodup
      exact hnodup.1
    have hplace : Function.Injective (place c.center) := by
      rintro ⟨x, y⟩ ⟨x', y'⟩ h
      simp only [place, Cell.mk.injEq, Prod.mk.injEq] at h ⊢
      omega
    rw [List.nodup_flatMap]
    refine ⟨fun k _ => (harc.map hplace).map ((injective_quarterTurn c.center).iterate k), ?_⟩
    refine List.pairwise_lt_range.imp_of_mem ?_
    intro i j _ hj hlt d hd hd'
    simp only [List.map_map, List.mem_map, Function.comp_apply] at hd hd'
    obtain ⟨⟨x, y⟩, hmem, rfl⟩ := hd
    obtain ⟨⟨x', y'⟩, hmem', heq⟩ := hd'
    exact turned_ne (List.mem_range.1 hj) hlt ((mem_arc hr).1 hmem).2 ((mem_arc hr).1 hmem').2 heq.symm

theorem mem_loop_iff (c : Circle) (d : Cell) : d ∈ c.loop ↔ d ∈ c.outline := by
  obtain ⟨x, hx⟩ : ∃ x, d.col = c.center.col + x := ⟨d.col - c.center.col, by omega⟩
  obtain ⟨y, hy⟩ : ∃ y, d.row = c.center.row + y := ⟨d.row - c.center.row, by omega⟩
  obtain rfl : d = ⟨c.center.col + x, c.center.row + y⟩ := by rw [← hx, ← hy]
  rw [mem_outline]
  by_cases hr : c.radius = 0
  · obtain ⟨⟨a, b⟩, radius⟩ := c
    obtain rfl : radius = 0 := hr
    have hquarter : quarter 0 = [(0, 0)] := by
      simp [quarter, octant, octantFrom, folded]
    simp [loop, hquarter]
  · rw [mem_loop hr]
    constructor
    · rintro ⟨k, hk, a, b, hmem, heq⟩
      have hquarter := ((mem_arc hr).1 hmem).1
      have hswap := mem_quarter_swap.1 hquarter
      have habs : x.natAbs = a ∧ y.natAbs = b ∨ x.natAbs = b ∧ y.natAbs = a := by
        interval_cases k <;>
          simp only [turned_zero, turned_one, turned_two, turned_three, Cell.mk.injEq] at heq <;> omega
      rcases habs with ⟨rfl, rfl⟩ | ⟨rfl, rfl⟩
      · exact hquarter
      · exact hswap
    · intro h
      have hswap := mem_quarter_swap.1 h
      by_cases hfirst : 0 < x ∧ 0 ≤ y
      · exact ⟨0, by omega, x.natAbs, y.natAbs, (mem_arc hr).2 ⟨h, by omega⟩, by
          rw [turned_zero, Cell.mk.injEq]; omega⟩
      by_cases hsecond : x ≤ 0 ∧ 0 < y
      · exact ⟨1, by omega, y.natAbs, x.natAbs, (mem_arc hr).2 ⟨hswap, by omega⟩, by
          rw [turned_one, Cell.mk.injEq]; omega⟩
      by_cases hthird : x < 0 ∧ y ≤ 0
      · exact ⟨2, by omega, x.natAbs, y.natAbs, (mem_arc hr).2 ⟨h, by omega⟩, by
          rw [turned_two, Cell.mk.injEq]; omega⟩
      by_cases hfourth : 0 ≤ x ∧ y < 0
      · exact ⟨3, by omega, y.natAbs, x.natAbs, (mem_arc hr).2 ⟨hswap, by omega⟩, by
          rw [turned_three, Cell.mk.injEq]; omega⟩
      -- Only the center is left, and it is on no circle with a radius.
      have hx : x.natAbs = 0 := by omega
      have hy : y.natAbs = 0 := by omega
      rw [hx, hy] at h
      exact absurd (eq_radius_of_mem_quarter hr h).symm hr

/-! ## Circles of every radius -/

end Easel.Circle
