import Easel.Proofs.Canvas.Buffer
import Easel.Proofs.Canvas.Drawing

/-!
# Reading in a machine

What is read of a framebuffer is what is read of the canvas on it: samples (`Canvas.sample?_toFramebuffer`) and previews
(`Canvas.preview?_toFramebuffer`). No index that is looked at wraps around, since the sides are small.
-/

namespace Easel

open Number

/-! ## Samples -/

/-- An integer that is converted to a double and then to a word is kept if it is small, and large if it is large. -/
theorem toNat_toWord_ofInt {z : ℤ} (h0 : 0 ≤ z) (hz : |(z : ℝ)| ≤ 2 ^ 1000) :
    (toWord (Float.ofInt z)).toNat = z.toNat ∨ 2 ^ 52 ≤ (toWord (Float.ofInt z)).toNat ∧ 2 ^ 52 ≤ z := by
  rcases lt_or_ge z (2 ^ 52) with hlt | hge
  · have hvalue := hasValue_ofInt (n := z) (by rw [abs_lt]; omega)
    exact .inl (hvalue.toNat_toWord_int h0 (by omega))
  · have hvalue := hasValue_ofInt_nearest (hz.trans (pow_le_pow_right₀ one_le_two (by norm_num)))
    have hnearest : ((2 ^ 52 : ℤ) : ℝ) ≤ nearest z := (le_nearest_intCast_iff (by norm_num)).2 hge
    refine .inr ⟨?_, hge⟩
    rw [hvalue.toNat_toWord_eq_min]
    refine le_min (Nat.le_floor ?_) (by decide)
    exact_mod_cast hnearest

theorem ofInt_lt_zero_iff {z : ℤ} (hz : |(z : ℝ)| ≤ 2 ^ 1000) : Float.ofInt z < 0 ↔ z < 0 := by
  have hvalue := hasValue_ofInt_nearest (hz.trans (pow_le_pow_right₀ one_le_two (by norm_num)))
  have hzero : HasValue 0 ((0 : ℤ) : ℝ) := hasValue_zero
  rw [hvalue.lt_iff hzero, ← not_le, le_nearest_intCast_iff (by norm_num), not_le]

namespace Canvas

variable {c : Canvas} (hwidth : c.width ≤ 2 ^ 50) (hheight : c.height ≤ 2 ^ 50) (harea : c.width * c.height < 2 ^ 64)
include hwidth hheight harea

/-- A sample in a machine is the one on paper. -/
theorem sample?_toFramebuffer (p : Point) : c.toFramebuffer.sample? p = some (c.sample? p) := by
  unfold Framebuffer.sample? sample?
  rw [toRaster_toFramebuffer hwidth hheight, c.toRaster.place?_eq hheight]
  cases hcell : c.cell? p with
  | none => rfl
  | some cell =>
    obtain ⟨hcol, hrow⟩ := Raster.abs_cell?_le hheight hcell
    simp only [Option.map_some, Cell.toPoint, ofInt_lt_zero_iff hcol, ofInt_lt_zero_iff hrow, Option.bind_eq_bind,
      Option.bind_some]
    split
    · rfl
    · next hon =>
      rw [pixel?_toFramebuffer hwidth hheight harea]
      have hcol' := toNat_toWord_ofInt (z := cell.col) (by omega) hcol
      have hrow' := toNat_toWord_ofInt (z := cell.row) (by omega) hrow
      unfold pixel?
      -- Either both places are words as they are, or one of them is beyond the raster before and after.
      by_cases hboth : (toWord (Float.ofInt cell.col)).toNat = cell.col.toNat ∧
          (toWord (Float.ofInt cell.row)).toNat = cell.row.toNat
      · rw [hboth.1, hboth.2]
      · rw [if_neg (by omega), if_neg (by omega)]

/-! ## Previews -/

theorem isDark?_toFramebuffer (col row : UInt64) :
    c.toFramebuffer.isDark? col row = some (c.isDark col.toNat row.toNat) := by
  rw [Framebuffer.isDark?, pixel?_toFramebuffer hwidth hheight harea, isDark]
  cases c.pixel? col.toNat row.toNat <;> rfl

omit hwidth hheight harea in
theorem toNat_mul_of_lt {a b : UInt64} (h : a.toNat * b.toNat < 2 ^ 64) : (a * b).toNat = a.toNat * b.toNat := by
  rw [UInt64.toNat_mul, Nat.mod_eq_of_lt h]

/-- A line whose samples begin on the raster. -/
theorem previewLine?_toFramebuffer {step cols i : UInt64} (hcols : cols.toNat = ceilDiv c.width step.toNat)
    (hstep : 1 ≤ step.toNat ∧ step.toNat ≤ 2 ^ 50) (hi : i.toNat * 2 * step.toNat < c.height) :
    c.toFramebuffer.previewLine? step cols i = some (c.previewLine step.toNat i.toNat) := by
  have htwo : (2 : UInt64).toNat = 2 := rfl
  have hle : i.toNat * 2 ≤ i.toNat * 2 * step.toNat := Nat.le_mul_of_pos_right _ hstep.1
  have hdouble : (i * 2).toNat = i.toNat * 2 := toNat_mul_of_lt (by rw [htwo]; omega)
  have htop : (i * 2 * step).toNat = i.toNat * 2 * step.toNat := by
    rw [toNat_mul_of_lt (by rw [hdouble]; omega), hdouble]
  have hbottom : (i * 2 * step + step).toNat = i.toNat * 2 * step.toNat + step.toNat := by
    rw [UInt64.toNat_add, htop, Nat.mod_eq_of_lt (by omega)]
  unfold Framebuffer.previewLine? previewLine
  rw [hcols]
  refine mapM_eq_some_map fun j hj => ?_
  have hcol : j * step.toNat < c.width := mul_lt_of_lt_ceilDiv (List.mem_range.1 hj)
  have hjle : j ≤ j * step.toNat := Nat.le_mul_of_pos_right j hstep.1
  have hword : (UInt64.ofNat j).toNat = j := by rw [UInt64.toNat_ofNat', Nat.mod_eq_of_lt (by omega)]
  have hj' : (UInt64.ofNat j * step).toNat = j * step.toNat := by
    rw [toNat_mul_of_lt (by rw [hword]; omega), hword]
  simp only [isDark?_toFramebuffer hwidth hheight harea, Option.bind_eq_bind, Option.bind_some, hj', htop, hbottom]
  rfl

/-- A preview in a machine is the one on paper. -/
theorem preview?_toFramebuffer (columns : UInt64) :
    c.toFramebuffer.preview? columns = some (c.preview columns.toNat) := by
  have hw := width_toFramebuffer hwidth hheight
  have hh := height_toFramebuffer hwidth hheight
  have hempty : (c.toFramebuffer.width = 0 ∨ c.toFramebuffer.height = 0 ∨ columns = 0) ↔
      (c.width = 0 ∨ c.height = 0 ∨ columns.toNat = 0) := by
    simp only [← UInt64.toNat_inj, hw, hh, UInt64.toNat_zero]
  unfold Framebuffer.preview? preview
  simp only [hempty]
  split
  · rfl
  next hsome =>
  obtain ⟨-, -, hcolumns⟩ : c.width ≠ 0 ∧ c.height ≠ 0 ∧ columns.toNat ≠ 0 := by simpa [not_or] using hsome
  obtain ⟨q, hq, hqnat⟩ := Framebuffer.exists_ceilDiv? (a := c.toFramebuffer.width) (b := columns)
    fun h => hcolumns (by rw [h]; rfl)
  rw [hw] at hqnat
  have hqle := Framebuffer.ceilDiv_le_self (a := c.width) (Nat.pos_iff_ne_zero.2 hcolumns)
  -- The step is small, and so is twice the step.
  have hstep : (max q 1).toNat = c.step columns.toNat := by
    rw [UInt64.toNat_max, hqnat, step, max_comm]
    rfl
  have hpos : 1 ≤ (max q 1).toNat ∧ (max q 1).toNat ≤ 2 ^ 50 := by
    rw [hstep, step]
    omega
  have hdouble : (max q 1 * 2).toNat = c.step columns.toNat * 2 := by
    have htwo : (2 : UInt64).toNat = 2 := rfl
    rw [toNat_mul_of_lt (by rw [htwo]; omega), htwo, hstep]
  have hne {a : UInt64} (h : 1 ≤ a.toNat) : a ≠ 0 := by
    rintro rfl
    exact absurd h (by decide)
  obtain ⟨cols, hcols, hcolsnat⟩ := Framebuffer.exists_ceilDiv? (a := c.toFramebuffer.width) (hne hpos.1)
  obtain ⟨rows, hrows, hrowsnat⟩ := Framebuffer.exists_ceilDiv? (a := c.toFramebuffer.height) (b := max q 1 * 2)
    (hne (by rw [hdouble, ← hstep]; omega))
  rw [hw] at hcolsnat
  rw [hh, hdouble] at hrowsnat
  have hlines : (List.range rows.toNat).mapM (fun i => c.toFramebuffer.previewLine? (max q 1) cols (UInt64.ofNat i)) =
      some ((List.range rows.toNat).map (c.previewLine (c.step columns.toNat))) := by
    refine mapM_eq_some_map fun i hi => ?_
    rw [List.mem_range] at hi
    have hi' : (UInt64.ofNat i).toNat = i := UInt64.toNat_ofNat_of_lt' (hi.trans rows.toNat_lt)
    have htop : i * (c.step columns.toNat * 2) < c.height := mul_lt_of_lt_ceilDiv (hrowsnat ▸ hi)
    rw [Nat.mul_comm _ 2, ← Nat.mul_assoc] at htop
    rw [previewLine?_toFramebuffer hwidth hheight harea hcolsnat hpos (by rwa [hi', hstep]), hi', hstep]
  rw [hrowsnat] at hlines
  simp only [hq, hcols, hrows, hlines, Option.bind_eq_bind, Option.bind_some, hrowsnat]
  rfl

end Canvas

end Easel
