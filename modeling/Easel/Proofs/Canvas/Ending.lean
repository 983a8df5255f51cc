import Easel.Proofs.Canvas.Inking

/-!
# Loops that end

The loops of lines and outlines count their turns. A turn of a line comes closer to the last cell, whatever its error
has wrapped around to, or it stays where it is, and so do all that come after it (`Route.Leads.next?`). What a pen leaves
is the same the second time. So the turns that a line counts are all that make a difference
(`strokeFrom_between_add`), and so are those of an outline (`strokeOctant_add`).
-/

namespace Easel.Framebuffer

open Number

/-! ## Turns -/

/-- A step leads from one word to another, or they are equal. -/
def LeadsTo (step a b : Int64) : Prop := a ≤ b ∧ step = 1 ∨ b ≤ a ∧ step = -1

/-- A step comes closer by one. -/
theorem LeadsTo.add {step a b : Int64} (h : LeadsTo step a b) (hne : a ≠ b) :
    LeadsTo step (a + step) b ∧ (b.toInt - (a + step).toInt).natAbs + 1 = (b.toInt - a.toInt).natAbs := by
  have hone : (1 : Int64).toInt = 1 ∧ (-1 : Int64).toInt = -1 := ⟨rfl, rfl⟩
  have hne' : a.toInt ≠ b.toInt := mt Int64.toInt_inj.1 hne
  have ha := a.le_toInt
  have ha' := a.toInt_lt
  have hb := b.le_toInt
  have hb' := b.toInt_lt
  simp only [LeadsTo, Int64.le_iff_toInt_le] at h ⊢
  rcases h with ⟨hle, rfl⟩ | ⟨hle, rfl⟩
  · have hadd : (a + 1).toInt = a.toInt + 1 := toInt_add (by omega)
    exact ⟨.inl ⟨by omega, rfl⟩, by omega⟩
  · have hadd : (a + -1).toInt = a.toInt - 1 := toInt_add (by omega)
    exact ⟨.inr ⟨by omega, rfl⟩, by omega⟩

namespace Route

/-- The steps of a line lead from a marker to the last cell. -/
structure Leads (r : Route) (m : Marker) : Prop where
  col : LeadsTo r.stepCol m.col r.col
  row : LeadsTo r.stepRow m.row r.row

/-- How far it is from a marker to the last cell. -/
def left (r : Route) (m : Marker) : ℕ := (r.col.toInt - m.col.toInt).natAbs + (r.row.toInt - m.row.toInt).natAbs

theorem Leads.next? {r : Route} {m m' : Marker} (h : r.Leads m) (hm : r.next? m = some m') :
    m' = m ∨ r.Leads m' ∧ r.left m' < r.left m := by
  obtain ⟨hcol, hrow⟩ := h
  simp only [Route.next?, Option.ite_none_left_eq_some] at hm
  obtain ⟨-, hm⟩ := hm
  split at hm
  · obtain ⟨hne, hm⟩ := Option.ite_none_left_eq_some.1 hm
    obtain ⟨hcol', hcloser⟩ := hcol.add hne
    split at hm
    · obtain ⟨hne', hm⟩ := Option.ite_none_left_eq_some.1 hm
      obtain ⟨hrow', hcloser'⟩ := hrow.add hne'
      cases hm
      exact .inr ⟨⟨hcol', hrow'⟩, by simp only [left]; omega⟩
    · cases hm
      exact .inr ⟨⟨hcol', hrow⟩, by simp only [left]; omega⟩
  · split at hm
    · obtain ⟨hne', hm⟩ := Option.ite_none_left_eq_some.1 hm
      obtain ⟨hrow', hcloser'⟩ := hrow.add hne'
      cases hm
      exact .inr ⟨⟨hcol, hrow'⟩, by simp only [left]; omega⟩
    · cases hm
      exact .inl rfl

theorem leads_between (col row col' row' err : Int64) : (between col row col' row').Leads ⟨col, row, err⟩ := by
  have hleads (a b : Int64) : LeadsTo (if a < b then 1 else -1) a b := by
    simp only [LeadsTo, Int64.lt_iff_toInt_lt, Int64.le_iff_toInt_le]
    split
    · next h => exact .inl ⟨h.le, rfl⟩
    · next h => exact .inr ⟨not_lt.1 h, rfl⟩
  exact ⟨hleads col col', hleads row row'⟩

end Route

variable (f : Framebuffer)

/-! ## Lines -/

/-- What a pen leaves is the same the second time. -/
theorem stamp_bind_self (col row : Int64) (pixels : Array UInt8) :
    (f.stamp col row pixels >>= f.stamp col row) = f.stamp col row pixels :=
  (f.isInking_stamp pixels.size col row).bind_self (g := f) rfl

/-- A loop that stays where it is leaves one square of the pen. -/
theorem strokeFrom_of_next?_eq_self {r : Route} {m : Marker} (h : r.next? m = some m) (turns : ℕ)
    (pixels : Array UInt8) : f.strokeFrom r m pixels (turns + 1) = f.stamp m.col m.row pixels := by
  induction turns generalizing pixels with
  | zero =>
    rw [strokeFrom, h]
    exact bind_pure _
  | succ turns ih =>
    rw [strokeFrom, h]
    simp only [ih]
    exact f.stamp_bind_self m.col m.row pixels

/-- With more turns than cells to go, a line is drawn as with any number of turns more. -/
theorem strokeFrom_add {r : Route} {m : Marker} (hm : r.Leads m) {turns : ℕ} (hturns : r.left m < turns) (more : ℕ)
    (pixels : Array UInt8) : f.strokeFrom r m pixels (turns + more) = f.strokeFrom r m pixels turns := by
  induction turns generalizing m pixels with
  | zero => omega
  | succ turns ih =>
    rw [Nat.succ_add]
    cases hnext : r.next? m with
    | none => rw [strokeFrom, strokeFrom, hnext]
    | some m' =>
      rcases hm.next? hnext with rfl | ⟨hm', hcloser⟩
      · rw [f.strokeFrom_of_next?_eq_self hnext, f.strokeFrom_of_next?_eq_self hnext]
      · rw [strokeFrom, strokeFrom, hnext]
        exact congrArg _ (funext fun pixels => ih hm' (by omega) pixels)

/-- The turns that a line counts are all that make a difference. -/
theorem strokeFrom_between_add (col row col' row' err : Int64) (more : ℕ) (pixels : Array UInt8) :
    let turns := (col'.toInt - col.toInt).natAbs + (row'.toInt - row.toInt).natAbs + 1
    f.strokeFrom (.between col row col' row') ⟨col, row, err⟩ pixels (turns + more) =
      f.strokeFrom (.between col row col' row') ⟨col, row, err⟩ pixels turns :=
  f.strokeFrom_add (Route.leads_between col row col' row' err) (Nat.lt_succ_self _) more pixels

/-! ## Outlines -/

/-- The turns that an outline counts are all that it takes: every turn raises `y`, and none raises `x`. -/
theorem strokeOctant_add (col row : Int64) {x y : Int64} (p : Int64) {turns : ℕ} (hturns : x.toInt - y.toInt ≤ turns)
    (more : ℕ) (pixels : Array UInt8) :
    f.strokeOctant col row x y p pixels (turns + more) = f.strokeOctant col row x y p pixels turns := by
  induction turns generalizing x y p pixels with
  | zero =>
    have hdone : ¬ y < x := by
      rw [Int64.lt_iff_toInt_lt]
      omega
    cases more with
    | zero => rfl
    | succ more =>
      rw [Nat.zero_add]
      exact if_neg hdone
  | succ turns ih =>
    rw [Nat.succ_add, strokeOctant, strokeOctant]
    split
    · next hlt =>
      rw [Int64.lt_iff_toInt_lt] at hlt
      have hx := x.toInt_lt
      have hy := y.le_toInt
      have hone : (1 : Int64).toInt = 1 := rfl
      have hraised : (y + 1).toInt = y.toInt + 1 := toInt_add (by omega)
      have hlowered : (x - 1).toInt = x.toInt - 1 := toInt_sub (by omega)
      have hcloser : (if p ≤ 0 then x else x - 1).toInt - (y + 1).toInt ≤ turns := by split <;> omega
      simp only [ih _ hcloser]
    · rfl

end Easel.Framebuffer
