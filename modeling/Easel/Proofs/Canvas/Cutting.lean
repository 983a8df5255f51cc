import Easel.Proofs.Canvas.Clipping
import Easel.Proofs.Number.Error

/-!
# Clipping in any direction

A segment is a line of places, one for each parameter from 0 to 1, and an edge keeps those up to some parameter or those
from it on. What edges leave is a window of parameters with the places at its ends (`Window`). The parameters are
rounded quotients, so an edge may be off by a little, and the places are off by a little too, but never by as much as an
eighth of a cell (`abs_nearest_div_mul_sub_le`, `exists_hasValue_along`). Rounding keeps order, so a parameter that
is within all edges stays in the window, and if there is one then something is left.

`Window.cut`: what one edge does to a window. `leaves_clip`: what is left after four.
-/

namespace Easel.Segment

open Number

/-! ## Places -/

/-- The way from `a`, at parameter 0, to `b`, at parameter 1. -/
def blend (a b : ℤ) (t : ℝ) : ℝ := a + t * (b - a)

theorem blend_zero (a b : ℤ) : blend a b 0 = a := by simp [blend]

theorem blend_one (a b : ℤ) : blend a b 1 = b := by simp [blend]

/-- The point is less than an eighth of a cell away from the place of the segment at a parameter. -/
def IsAbout (s : Segment) (p : Point) (t : ℝ) : Prop :=
  ∃ x y : ℝ, HasValue p.x x ∧ HasValue p.y y ∧
    |x - blend s.start.col s.stop.col t| ≤ 1 / 8 ∧ |y - blend s.start.row s.stop.row t| ≤ 1 / 8

theorem IsAt.isAbout {s : Segment} {p : Point} {c : Cell} {t : ℝ} (h : IsAt p c)
    (hcol : blend s.start.col s.stop.col t = c.col) (hrow : blend s.start.row s.stop.row t = c.row) :
    IsAbout s p t := by
  refine ⟨c.col, c.row, h.1, h.2, ?_, ?_⟩
  · rw [hcol, sub_self, abs_zero]
    norm_num
  · rw [hrow, sub_self, abs_zero]
    norm_num

/-- A rounded quotient is a good one, if it is a parameter. -/
theorem abs_nearest_div_mul_sub_le {m n : ℤ} (hm : m ≠ 0) (hm' : |m| ≤ 2 ^ 42) (h : |nearest (n / m)| ≤ 1) :
    |nearest (n / m) * m - n| ≤ 1 / 8 := by
  have hm0 : (m : ℝ) ≠ 0 := by exact_mod_cast hm
  have htwo : IsBinary 2 := by exact_mod_cast isBinary_intCast (n := 2) (by norm_num)
  have hquotient : |(n : ℝ) / m| ≤ 2 ^ (1 : ℤ) := by
    rw [abs_le] at h ⊢
    rw [zpow_one]
    constructor
    · by_contra hlt
      have := nearest_le htwo.neg (not_le.1 hlt).le
      linarith
    · by_contra hlt
      have := le_nearest htwo (not_le.1 hlt).le
      linarith
  have herror := abs_nearest_sub_le_of_abs_le (by norm_num) hquotient
  have hm'' : |(m : ℝ)| ≤ 2 ^ 42 := by exact_mod_cast hm'
  calc
    |nearest (n / m) * m - n| = |nearest (n / m) - n / m| * |(m : ℝ)| := by
      rw [← abs_mul, sub_mul, div_mul_cancel₀ _ hm0]
    _ ≤ 2 ^ (1 - 54 : ℤ) * 2 ^ 42 := mul_le_mul herror hm'' (abs_nonneg _) (by positivity)
    _ ≤ 1 / 8 := by norm_num

/-- What a calculated place of a segment is off by. -/
theorem exists_hasValue_along {a d t : Float} {x z : ℤ} {τ : ℝ} (ha : HasValue a x) (hx : |x| ≤ 2 ^ 41)
    (hd : HasValue d z) (hz : |z| ≤ 2 ^ 42) (ht : HasValue t τ) (hτ : 0 ≤ τ) (hτ' : τ ≤ 1) :
    ∃ y, HasValue (a + t * d) y ∧ |y - (x + τ * z)| ≤ 1 / 8 := by
  have hx' : |(x : ℝ)| ≤ 2 ^ 41 := by exact_mod_cast hx
  have hz' : |(z : ℝ)| ≤ 2 ^ 42 := by exact_mod_cast hz
  have hstep : |τ * z| ≤ 2 ^ 42 := by
    rw [abs_mul, abs_of_nonneg hτ]
    exact (mul_le_of_le_one_left (abs_nonneg _) hτ').trans hz'
  have herror := abs_nearest_sub_le_of_abs_le (k := 42) (by norm_num) (by exact_mod_cast hstep)
  have hsum : |x + nearest (τ * z)| ≤ 2 ^ 43 := by
    rw [abs_le] at hx' hstep herror ⊢
    norm_num at hx' hstep herror ⊢
    constructor <;> linarith
  have herror' := abs_nearest_sub_le_of_abs_le (k := 43) (by norm_num) (by exact_mod_cast hsum)
  have hproduct := ht.mul hd (hstep.trans (pow_le_pow_right₀ one_le_two (by norm_num)))
  refine ⟨_, ha.add hproduct (hsum.trans (pow_le_pow_right₀ one_le_two (by norm_num))), ?_⟩
  rw [abs_le] at herror herror' ⊢
  norm_num at herror herror' ⊢
  constructor <;> linarith

/-! ## Edges -/

/-- An edge as a segment meets it: the rate at which the segment approaches its outer side, and how far the segment has
to go to it at its start. -/
structure Edge where
  rate : ℤ
  rest : ℤ

/-- The place of the segment at a parameter is not beyond the edge. -/
def Edge.IsWithin (e : Edge) (t : ℝ) : Prop := t * e.rate ≤ e.rest

section
variable {m n : ℤ} {t : ℝ} (hm' : |m| ≤ 2 ^ 42) (ht : 0 ≤ t) (ht' : t ≤ 1)
include hm' ht ht'

/-- Behind the place where the segment comes in over an edge. -/
theorem mul_le_of_nearest_div_le (hm : m < 0) (h : nearest (n / m) ≤ t) : t * m ≤ n + 1 / 8 := by
  have hneg : (m : ℝ) < 0 := by exact_mod_cast hm
  rcases le_or_gt 0 (nearest ((n : ℝ) / m)) with hnonneg | hbefore
  · have hclose := abs_nearest_div_mul_sub_le hm.ne hm' (by rw [abs_of_nonneg hnonneg]; exact h.trans ht')
    have hle := mul_le_mul_of_nonpos_right h hneg.le
    rw [abs_le] at hclose
    linarith
  · -- The edge is met before the start, so all of the segment is within.
    have hquotient : (n : ℝ) / m < 0 := by
      by_contra hge
      exact absurd (le_nearest isBinary_zero (not_lt.1 hge)) (not_le.2 hbefore)
    have hn : (0 : ℝ) < n := by
      have := mul_pos_of_neg_of_neg hquotient hneg
      rwa [div_mul_cancel₀ _ hneg.ne] at this
    have := mul_nonpos_of_nonneg_of_nonpos ht hneg.le
    linarith

/-- Before the place where the segment goes out over an edge. -/
theorem mul_le_of_le_nearest_div (hm : 0 < m) (h : t ≤ nearest (n / m)) : t * m ≤ n + 1 / 8 := by
  have hpos : (0 : ℝ) < m := by exact_mod_cast hm
  rcases le_or_gt (nearest ((n : ℝ) / m)) 1 with hle | hbehind
  · have hclose := abs_nearest_div_mul_sub_le hm.ne' hm' (by rw [abs_of_nonneg (ht.trans h)]; exact hle)
    have hle := mul_le_mul_of_nonneg_right h hpos.le
    rw [abs_le] at hclose
    linarith
  · -- The edge is met behind the stop, so all of the segment is within.
    have hquotient : 1 < (n : ℝ) / m := by
      by_contra hle
      exact absurd (nearest_le isBinary_one (not_lt.1 hle)) (not_le.2 hbehind)
    rw [one_lt_div hpos] at hquotient
    have := mul_le_of_le_one_left hpos.le ht'
    linarith

end

/-- The doubles that an edge is cut at. -/
structure Edge.Reads (s : Segment) (e : Edge) (p q : Float) (place : Float → Point) : Prop where
  rate : HasValue p e.rate
  rest : HasValue q e.rest
  abs_rate_le : |e.rate| ≤ 2 ^ 42
  abs_rest_le : |e.rest| ≤ 2 ^ 53
  place : e.rate ≠ 0 → ∀ t τ, HasValue t τ → τ = nearest (e.rest / e.rate) → 0 ≤ τ → τ ≤ 1 → IsAbout s (place t) τ

/-! ## Windows -/

/-- The parameters from `a` to `b` are what edges have left of a segment. -/
structure Window (s : Segment) (edges : List Edge) (v : Visible) (a b : ℝ) : Prop where
  t0 : HasValue v.t0 a
  t1 : HasValue v.t1 b
  nonneg : 0 ≤ a
  le : a ≤ b
  le_one : b ≤ 1
  start : IsAbout s v.start a
  stop : IsAbout s v.stop b
  start_eq : a = 0 → v.start = s.start.toPoint
  stop_eq : b = 1 → v.stop = s.stop.toPoint
  /-- What is in the window is within the edges, but for an eighth of a cell. -/
  within : ∀ e ∈ edges, ∀ t, a ≤ t → t ≤ b → t * e.rate ≤ e.rest + 1 / 8
  /-- What is within the edges is in the window, but for rounding. -/
  keeps : ∀ t, 0 ≤ t → t ≤ 1 → (∀ e ∈ edges, e.IsWithin t) → a ≤ nearest t ∧ nearest t ≤ b

/-- What edges leave of a segment: a window, or nothing if every place is beyond one of them. -/
def Leaves (s : Segment) (edges : List Edge) : Option Visible → Prop
  | none => ∀ t, 0 ≤ t → t ≤ 1 → ∃ e ∈ edges, ¬ e.IsWithin t
  | some v => ∃ a b, Window s edges v a b

section
variable {s : Segment} {edges : List Edge} {v : Visible} {a b : ℝ} {e : Edge} {p q : Float} {place : Float → Point}
  (h : Window s edges v a b) (he : e.Reads s p q place)
include h he

theorem Window.cut_along (hrate : e.rate = 0) : Leaves s (e :: edges) (v.cut p q place) := by
  have hzero : HasValue p (0 : ℤ) := hrate ▸ he.rate
  rw [cut_of_eq_zero hzero he.rest]
  split
  · next hout =>
    refine fun t _ _ => ⟨e, List.mem_cons_self, ?_⟩
    rw [Edge.IsWithin, hrate, Int.cast_zero, mul_zero, not_le]
    exact_mod_cast hout
  · next hin =>
    refine ⟨a, b, { h with within := ?_, keeps := ?_ }⟩
    · rintro e' (_ | ⟨_, hmem⟩) t hat htb
      · have hrest : (0 : ℝ) ≤ e.rest := by exact_mod_cast not_lt.1 hin
        rw [hrate, Int.cast_zero, mul_zero]
        linarith
      · exact h.within e' hmem t hat htb
    · exact fun t ht ht' hall => h.keeps t ht ht' fun e' hmem => hall e' (List.mem_cons_of_mem e hmem)

theorem Window.cut_in (hrate : e.rate < 0) : Leaves s (e :: edges) (v.cut p q place) := by
  have hneg : (e.rate : ℝ) < 0 := by exact_mod_cast hrate
  have ht := he.rest.div_int he.rate hrate.ne he.abs_rest_le
  have hkeeps {t : ℝ} (hall : ∀ e' ∈ e :: edges, e'.IsWithin t) :
      (∀ e' ∈ edges, e'.IsWithin t) ∧ nearest (e.rest / e.rate) ≤ nearest t :=
    ⟨fun e' hmem => hall e' (List.mem_cons_of_mem e hmem),
      nearest_mono ((div_le_iff_of_neg hneg).2 (hall e List.mem_cons_self))⟩
  rw [cut_of_neg he.rate hrate, if_congr (h.t1.lt_iff ht) rfl rfl, if_congr (h.t0.lt_iff ht) rfl rfl]
  split
  · next hbeyond =>
    intro t h0 h1
    by_contra hall
    push Not at hall
    obtain ⟨hedges, hle⟩ := hkeeps hall
    exact absurd ((h.keeps t h0 h1 hedges).2) (not_le.2 (hbeyond.trans_le hle))
  split
  · next hbeyond hlt =>
    rw [not_lt] at hbeyond
    refine ⟨_, b, { h with
      t0 := ht, nonneg := h.nonneg.trans hlt.le, le := hbeyond
      start := he.place hrate.ne _ _ ht rfl (h.nonneg.trans hlt.le) (hbeyond.trans h.le_one)
      start_eq := fun hzero => absurd hzero (h.nonneg.trans_lt hlt).ne'
      within := ?_, keeps := ?_ }⟩
    · rintro e' (_ | ⟨_, hmem⟩) t hat htb
      · exact mul_le_of_nearest_div_le he.abs_rate_le ((h.nonneg.trans hlt.le).trans hat) (htb.trans h.le_one) hrate hat
      · exact h.within e' hmem t (hlt.le.trans hat) htb
    · intro t h0 h1 hall
      obtain ⟨hedges, hle⟩ := hkeeps hall
      exact ⟨hle, (h.keeps t h0 h1 hedges).2⟩
  · next hge =>
    rw [not_lt] at hge
    refine ⟨a, b, { h with within := ?_, keeps := ?_ }⟩
    · rintro e' (_ | ⟨_, hmem⟩) t hat htb
      · exact mul_le_of_nearest_div_le he.abs_rate_le (h.nonneg.trans hat) (htb.trans h.le_one) hrate (hge.trans hat)
      · exact h.within e' hmem t hat htb
    · exact fun t h0 h1 hall => h.keeps t h0 h1 (hkeeps hall).1

theorem Window.cut_out (hrate : 0 < e.rate) : Leaves s (e :: edges) (v.cut p q place) := by
  have hpos : (0 : ℝ) < e.rate := by exact_mod_cast hrate
  have ht := he.rest.div_int he.rate hrate.ne' he.abs_rest_le
  have hkeeps {t : ℝ} (hall : ∀ e' ∈ e :: edges, e'.IsWithin t) :
      (∀ e' ∈ edges, e'.IsWithin t) ∧ nearest t ≤ nearest (e.rest / e.rate) :=
    ⟨fun e' hmem => hall e' (List.mem_cons_of_mem e hmem),
      nearest_mono ((le_div_iff₀ hpos).2 (hall e List.mem_cons_self))⟩
  rw [cut_of_pos he.rate hrate, if_congr (ht.lt_iff h.t0) rfl rfl, if_congr (ht.lt_iff h.t1) rfl rfl]
  split
  · next hbeyond =>
    intro t h0 h1
    by_contra hall
    push Not at hall
    obtain ⟨hedges, hle⟩ := hkeeps hall
    exact absurd ((h.keeps t h0 h1 hedges).1) (not_le.2 (hle.trans_lt hbeyond))
  split
  · next hbeyond hlt =>
    rw [not_lt] at hbeyond
    refine ⟨a, _, { h with
      t1 := ht, le := hbeyond, le_one := hlt.le.trans h.le_one
      stop := he.place hrate.ne' _ _ ht rfl (h.nonneg.trans hbeyond) (hlt.le.trans h.le_one)
      stop_eq := fun hone => absurd hone (hlt.trans_le h.le_one).ne
      within := ?_, keeps := ?_ }⟩
    · rintro e' (_ | ⟨_, hmem⟩) t hat htb
      · exact mul_le_of_le_nearest_div he.abs_rate_le (h.nonneg.trans hat) ((htb.trans hlt.le).trans h.le_one) hrate htb
      · exact h.within e' hmem t hat (htb.trans hlt.le)
    · intro t h0 h1 hall
      obtain ⟨hedges, hle⟩ := hkeeps hall
      exact ⟨(h.keeps t h0 h1 hedges).1, hle⟩
  · next hge =>
    rw [not_lt] at hge
    refine ⟨a, b, { h with within := ?_, keeps := ?_ }⟩
    · rintro e' (_ | ⟨_, hmem⟩) t hat htb
      · exact mul_le_of_le_nearest_div he.abs_rate_le (h.nonneg.trans hat) (htb.trans h.le_one) hrate (htb.trans hge)
      · exact h.within e' hmem t hat htb
    · exact fun t h0 h1 hall => h.keeps t h0 h1 (hkeeps hall).1

/-- What one more edge leaves of a window. -/
theorem Window.cut : Leaves s (e :: edges) (v.cut p q place) := by
  rcases lt_trichotomy e.rate 0 with hrate | hrate | hrate
  · exact h.cut_in he hrate
  · exact h.cut_along he hrate
  · exact h.cut_out he hrate

end

theorem Leaves.cut {s : Segment} {edges : List Edge} {o : Option Visible} {e : Edge} {p q : Float}
    {place : Float → Point} (h : Leaves s edges o) (he : e.Reads s p q place) :
    Leaves s (e :: edges) (o.bind fun v => v.cut p q place) := by
  cases o with
  | none =>
    intro t h0 h1
    obtain ⟨e', hmem, hout⟩ := h t h0 h1
    exact ⟨e', List.mem_cons_of_mem e hmem, hout⟩
  | some v =>
    obtain ⟨a, b, hwindow⟩ := h
    exact hwindow.cut he

/-! ## Four edges -/

/-- The edges of a raster grown by a margin: the bottom, the top, the right and the left one. -/
def edges (r : Raster) (margin : ℕ) (s : Segment) : List Edge :=
  [⟨s.stop.row - s.start.row, r.height - 1 + margin - s.start.row⟩,
   ⟨-(s.stop.row - s.start.row), s.start.row - -margin⟩,
   ⟨s.stop.col - s.start.col, r.width - 1 + margin - s.start.col⟩,
   ⟨-(s.stop.col - s.start.col), s.start.col - -margin⟩]

theorem forall_mem_edges_iff (r : Raster) (margin : ℕ) (s : Segment) (slack t : ℝ) :
    (∀ e ∈ edges r margin s, t * e.rate ≤ e.rest + slack) ↔
      (-margin - slack ≤ blend s.start.col s.stop.col t ∧
        blend s.start.col s.stop.col t ≤ r.width - 1 + margin + slack) ∧
      -margin - slack ≤ blend s.start.row s.stop.row t ∧
        blend s.start.row s.stop.row t ≤ r.height - 1 + margin + slack := by
  simp only [edges, List.forall_mem_cons, List.not_mem_nil, false_imp_iff, implies_true, and_true, blend]
  push_cast
  constructor
  · rintro ⟨hbottom, htop, hright, hleft⟩
    refine ⟨⟨?_, ?_⟩, ?_, ?_⟩ <;> linarith
  · rintro ⟨⟨hleft, hright⟩, htop, hbottom⟩
    refine ⟨?_, ?_, ?_, ?_⟩ <;> linarith

/-- Where a coordinate from `a` to `b` meets an edge at `n`. -/
theorem abs_sub_blend_le {a b n : ℤ} {τ : ℝ} (hd : |b - a| ≤ 2 ^ 42) (hτ : 0 ≤ τ) (hτ' : τ ≤ 1) (hne : b - a ≠ 0)
    (hcut : τ = nearest ((n - a : ℤ) / (b - a : ℤ))) : |n - blend a b τ| ≤ 1 / 8 := by
  have h := abs_nearest_div_mul_sub_le (n := n - a) hne hd (by rw [← hcut, abs_of_nonneg hτ]; exact hτ')
  rw [← hcut, abs_le] at h
  push_cast at h
  rw [blend, abs_le]
  constructor <;> linarith

/-- The same with both signs turned round. -/
theorem abs_sub_blend_le_of_neg {a b n : ℤ} {τ : ℝ} (hd : |b - a| ≤ 2 ^ 42) (hτ : 0 ≤ τ) (hτ' : τ ≤ 1)
    (hne : -(b - a) ≠ 0) (hcut : τ = nearest ((a - n : ℤ) / (-(b - a) : ℤ))) : |n - blend a b τ| ≤ 1 / 8 := by
  refine abs_sub_blend_le hd hτ hτ' (neg_ne_zero.1 hne) (hcut.trans (congrArg nearest ?_))
  rw [← neg_sub n a, Int.cast_neg, Int.cast_neg, neg_div_neg_eq]

theorem abs_sub_edge_le {a n : ℤ} (ha : |a| ≤ 2 ^ 41) (hn : |n| ≤ 2 ^ 25) :
    |a - n| ≤ 2 ^ 53 ∧ |n - a| ≤ 2 ^ 53 := by
  rw [abs_le] at ha hn
  rw [abs_le, abs_le]
  omega

section
variable {s : Segment} (hstart : IsNear s.start) (hstop : IsNear s.stop)
include hstart hstop

theorem abs_cols_le : |s.stop.col - s.start.col| ≤ 2 ^ 42 := by
  have ha := abs_le.1 hstart.1
  have hb := abs_le.1 hstop.1
  rw [abs_le]
  omega

theorem abs_rows_le : |s.stop.row - s.start.row| ≤ 2 ^ 42 := by
  have ha := abs_le.1 hstart.2
  have hb := abs_le.1 hstop.2
  rw [abs_le]
  omega

theorem hasValue_cols : HasValue (s.stop.toPoint.x - s.start.toPoint.x) (s.stop.col - s.start.col : ℤ) :=
  hstop.isAt.1.sub_int hstart.isAt.1 ((abs_cols_le hstart hstop).trans (by norm_num))

theorem hasValue_rows : HasValue (s.stop.toPoint.y - s.start.toPoint.y) (s.stop.row - s.start.row : ℤ) :=
  hstop.isAt.2.sub_int hstart.isAt.2 ((abs_rows_le hstart hstop).trans (by norm_num))

theorem isAbout_onCol {x t : Float} {n : ℤ} {τ : ℝ} (hx : HasValue x n) (ht : HasValue t τ) (hτ : 0 ≤ τ) (hτ' : τ ≤ 1)
    (hn : |n - blend s.start.col s.stop.col τ| ≤ 1 / 8) :
    IsAbout s ⟨x, s.start.toPoint.y + t * (s.stop.toPoint.y - s.start.toPoint.y)⟩ τ := by
  obtain ⟨y, hy, hclose⟩ := exists_hasValue_along hstart.isAt.2 hstart.2 (hasValue_rows hstart hstop)
    (abs_rows_le hstart hstop) ht hτ hτ'
  rw [Int.cast_sub] at hclose
  exact ⟨n, y, hx, hy, hn, hclose⟩

theorem isAbout_onRow {y t : Float} {n : ℤ} {τ : ℝ} (hy : HasValue y n) (ht : HasValue t τ) (hτ : 0 ≤ τ) (hτ' : τ ≤ 1)
    (hn : |n - blend s.start.row s.stop.row τ| ≤ 1 / 8) :
    IsAbout s ⟨s.start.toPoint.x + t * (s.stop.toPoint.x - s.start.toPoint.x), y⟩ τ := by
  obtain ⟨x, hx, hclose⟩ := exists_hasValue_along hstart.isAt.1 hstart.1 (hasValue_cols hstart hstop)
    (abs_cols_le hstart hstop) ht hτ hτ'
  rw [Int.cast_sub] at hclose
  exact ⟨x, n, hx, hy, hclose, hn⟩

section
variable {x : Float} {n : ℤ} (hx : HasValue x n) (hn : |n| ≤ 2 ^ 25)
include hx hn

theorem reads_left :
    Edge.Reads s ⟨-(s.stop.col - s.start.col), s.start.col - n⟩ (-(s.stop.toPoint.x - s.start.toPoint.x))
      (s.start.toPoint.x - x) fun t => ⟨x, s.start.toPoint.y + t * (s.stop.toPoint.y - s.start.toPoint.y)⟩ where
  rate := (hasValue_cols hstart hstop).neg_int
  rest := hstart.isAt.1.sub_int hx (abs_sub_edge_le hstart.1 hn).1
  abs_rate_le := (abs_neg _).trans_le (abs_cols_le hstart hstop)
  abs_rest_le := (abs_sub_edge_le hstart.1 hn).1
  place hne _ _ ht hcut h0 h1 := isAbout_onCol hstart hstop hx ht h0 h1
    (abs_sub_blend_le_of_neg (abs_cols_le hstart hstop) h0 h1 hne hcut)

theorem reads_right :
    Edge.Reads s ⟨s.stop.col - s.start.col, n - s.start.col⟩ (s.stop.toPoint.x - s.start.toPoint.x)
      (x - s.start.toPoint.x) fun t => ⟨x, s.start.toPoint.y + t * (s.stop.toPoint.y - s.start.toPoint.y)⟩ where
  rate := hasValue_cols hstart hstop
  rest := hx.sub_int hstart.isAt.1 (abs_sub_edge_le hstart.1 hn).2
  abs_rate_le := abs_cols_le hstart hstop
  abs_rest_le := (abs_sub_edge_le hstart.1 hn).2
  place hne _ _ ht hcut h0 h1 := isAbout_onCol hstart hstop hx ht h0 h1
    (abs_sub_blend_le (abs_cols_le hstart hstop) h0 h1 hne hcut)

theorem reads_top :
    Edge.Reads s ⟨-(s.stop.row - s.start.row), s.start.row - n⟩ (-(s.stop.toPoint.y - s.start.toPoint.y))
      (s.start.toPoint.y - x) fun t => ⟨s.start.toPoint.x + t * (s.stop.toPoint.x - s.start.toPoint.x), x⟩ where
  rate := (hasValue_rows hstart hstop).neg_int
  rest := hstart.isAt.2.sub_int hx (abs_sub_edge_le hstart.2 hn).1
  abs_rate_le := (abs_neg _).trans_le (abs_rows_le hstart hstop)
  abs_rest_le := (abs_sub_edge_le hstart.2 hn).1
  place hne _ _ ht hcut h0 h1 := isAbout_onRow hstart hstop hx ht h0 h1
    (abs_sub_blend_le_of_neg (abs_rows_le hstart hstop) h0 h1 hne hcut)

theorem reads_bottom :
    Edge.Reads s ⟨s.stop.row - s.start.row, n - s.start.row⟩ (s.stop.toPoint.y - s.start.toPoint.y)
      (x - s.start.toPoint.y) fun t => ⟨s.start.toPoint.x + t * (s.stop.toPoint.x - s.start.toPoint.x), x⟩ where
  rate := hasValue_rows hstart hstop
  rest := hx.sub_int hstart.isAt.2 (abs_sub_edge_le hstart.2 hn).2
  abs_rate_le := abs_rows_le hstart hstop
  abs_rest_le := (abs_sub_edge_le hstart.2 hn).2
  place hne _ _ ht hcut h0 h1 := isAbout_onRow hstart hstop hx ht h0 h1
    (abs_sub_blend_le (abs_rows_le hstart hstop) h0 h1 hne hcut)

end

theorem leaves_whole : Leaves s [] (some ⟨0, 1, s.start.toPoint, s.stop.toPoint⟩) := by
  exact ⟨0, 1, {
    t0 := by exact_mod_cast hasValue_zero
    t1 := by exact_mod_cast hasValue_one
    nonneg := le_rfl
    le := zero_le_one
    le_one := le_rfl
    start := hstart.isAt.isAbout (blend_zero _ _) (blend_zero _ _)
    stop := hstop.isAt.isAbout (blend_one _ _) (blend_one _ _)
    start_eq := fun _ => rfl
    stop_eq := fun _ => rfl
    within := nofun
    keeps := fun t h0 h1 _ => ⟨le_nearest isBinary_zero h0, nearest_le isBinary_one h1⟩ }⟩

section
variable {r : Raster} {margin : ℕ} (hwidth : r.width ≤ 2 ^ 24) (hheight : r.height ≤ 2 ^ 24) (hmargin : margin ≤ 2 ^ 24)
include hwidth hheight hmargin

/-- What the four edges leave is what the clipping rounds. -/
theorem leaves_clip :
    ∃ o, Leaves s (edges r margin s) o ∧ s.clip r margin = o.map fun v => ⟨.nearest v.start, .nearest v.stop⟩ := by
  have hlow : HasValue (-Float.ofNat margin) (-margin : ℤ) := (hasValue_natCast (by omega)).neg_int
  have hlow' : |(-margin : ℤ)| ≤ 2 ^ 25 := by
    rw [abs_le]
    omega
  have hhigh {n : ℕ} (hn : n ≤ 2 ^ 24) : |(n - 1 + margin : ℤ)| ≤ 2 ^ 25 := by
    rw [abs_le]
    omega
  refine ⟨_, ((((leaves_whole hstart hstop).cut (reads_left hstart hstop hlow hlow')).cut
    (reads_right hstart hstop (hasValue_edge r.width margin (by omega)) (hhigh hwidth))).cut
    (reads_top hstart hstop hlow hlow')).cut
    (reads_bottom hstart hstop (hasValue_edge r.height margin (by omega)) (hhigh hheight)), ?_⟩
  simp only [clip, Option.bind_eq_bind, Option.pure_def, Option.bind_assoc, Option.map_eq_bind]
  rfl

/-- Whatever the clipping leaves is a window, rounded. -/
theorem exists_window_of_clip_eq_some {c : Segment} (h : s.clip r margin = some c) :
    ∃ v a b, Window s (edges r margin s) v a b ∧ c = ⟨.nearest v.start, .nearest v.stop⟩ := by
  obtain ⟨o, hleaves, hclip⟩ := leaves_clip hstart hstop hwidth hheight hmargin
  rw [hclip] at h
  cases o with
  | none => cases h
  | some v =>
    obtain ⟨a, b, hwindow⟩ := hleaves
    cases h
    exact ⟨v, a, b, hwindow, rfl⟩

/-- Where the segment is within all four edges the clipping leaves something, and the place with it. -/
theorem exists_window_of_within {t : ℝ} (h0 : 0 ≤ t) (h1 : t ≤ 1)
    (hcols : -margin ≤ blend s.start.col s.stop.col t ∧ blend s.start.col s.stop.col t ≤ r.width - 1 + margin)
    (hrows : -margin ≤ blend s.start.row s.stop.row t ∧ blend s.start.row s.stop.row t ≤ r.height - 1 + margin) :
    ∃ v a b, Window s (edges r margin s) v a b ∧ s.clip r margin = some ⟨.nearest v.start, .nearest v.stop⟩ ∧
      a ≤ nearest t ∧ nearest t ≤ b := by
  have hwithin : ∀ e ∈ edges r margin s, e.IsWithin t := by
    have h := (forall_mem_edges_iff r margin s 0 t).2 (by simpa only [sub_zero, add_zero] using ⟨hcols, hrows⟩)
    simpa only [add_zero, Edge.IsWithin] using h
  obtain ⟨o, hleaves, hclip⟩ := leaves_clip hstart hstop hwidth hheight hmargin
  cases o with
  | none =>
    obtain ⟨e, hmem, hout⟩ := hleaves t h0 h1
    exact absurd (hwithin e hmem) hout
  | some v =>
    obtain ⟨a, b, hwindow⟩ := hleaves
    exact ⟨v, a, b, hwindow, hclip, hwindow.keeps t h0 h1 hwithin⟩

end

end

end Easel.Segment
