import Easel.Proofs.Canvas.Painting
import Easel.Proofs.Program.Assigning

/-!
# Saturation

A call either puts a value in a place or leaves the place alone: the pen (`Call.pen?`), the ink (`Call.ink?`)
and every pixel (`Call.gray?`). So calls in a row leave the last value in each place. For a pixel it depends on
the pen and the ink at the start, which are the same before every pass but the first: a second pass may change
the canvas, and a third does not (`Canvas.foldl_apply_thrice`).

`run_repeat_saturates`: a repeat that has two turns or more leaves what two turns leave.
-/

namespace Easel

/-! ## What calls put -/

/-- The size that a call gives the pen. -/
def Call.pen? : Call → Option Float
  | .pen size => some size
  | _ => none

/-- The gray that a call gives the ink. -/
def Call.ink? : Call → Option UInt8
  | .color level => some (Level.gray level)
  | _ => none

/-- The gray that a call puts on a pixel of the raster, with this pen and this ink. -/
def Call.gray? (r : Raster) (col row : Nat) (size : Float) (ink : UInt8) : Call → Option UInt8
  | .paper level => some (Level.gray level)
  | .shape s => if s.Inks r size col row then some ink else none
  | _ => none

/-- The last value that calls put in a place. -/
def lastPut {α : Type} (put : Call → Option α) : List Call → Option α
  | [] => none
  | call :: calls => (lastPut put calls).or (put call)

/-- The last gray that calls put on a pixel of the raster, with this pen and this ink at the start. -/
def lastGray? (r : Raster) (col row : Nat) (size : Float) (ink : UInt8) : List Call → Option UInt8
  | [] => none
  | call :: calls =>
    (lastGray? r col row (call.pen?.getD size) (call.ink?.getD ink) calls).or (call.gray? r col row size ink)

theorem getD_getD_self {α : Type} (o : Option α) (a : α) : o.getD (o.getD a) = o.getD a := by
  rw [← Option.getD_or, Option.or_self]

namespace Canvas

/-! ## One call -/

section
variable (c : Canvas) (call : Call)

theorem toRaster_apply : (Surface.apply c call).toRaster = c.toRaster := by
  cases call with
  | shape s => exact toRaster_apply_shape c s
  | _ => rfl

theorem penSize_apply : (Surface.apply c call).penSize = call.pen?.getD c.penSize := by
  cases call with
  | shape s => exact penSize_apply_shape c s
  | _ => rfl

theorem ink_apply : (Surface.apply c call).ink = call.ink?.getD c.ink := by
  cases call with
  | shape s => exact ink_apply_shape c s
  | _ => rfl

theorem pixel?_cover (gray : UInt8) (col row : Nat) :
    (c.cover gray).pixel? col row = (c.pixel? col row).map fun _ => gray := by
  by_cases hraster : col < c.width ∧ row < c.height
  · have hi := index_lt hraster.1 hraster.2
    simp [pixel?, cover, hraster, hi, c.size_pixels]
  · simp [pixel?, cover, hraster]

theorem pixel?_apply (col row : Nat) :
    (Surface.apply c call).pixel? col row =
      (c.pixel? col row).map (call.gray? c.toRaster col row c.penSize c.ink).getD := by
  cases call with
  | pen size => exact Option.map_id'.symm
  | color level => exact Option.map_id'.symm
  | paper level => exact pixel?_cover c (Level.gray level) col row
  | shape s =>
    rw [pixel?_apply_shape, Call.gray?]
    split
    · next hinks =>
      obtain ⟨gray, hgray⟩ := Option.isSome_iff_exists.1 ((isSome_pixel?_iff c col row).2 ⟨hinks.1, hinks.2.1⟩)
      rw [hgray]
      rfl
    · exact Option.map_id'.symm

end

/-! ## Calls in a row -/

section
variable (c : Canvas) (calls : List Call)

theorem toRaster_foldl : (calls.foldl Surface.apply c).toRaster = c.toRaster := by
  induction calls generalizing c with
  | nil => rfl
  | cons call calls ih => rw [List.foldl_cons, ih, toRaster_apply]

/-- What every call either puts or leaves alone is, behind calls in a row, what was put last. -/
theorem foldl_eq_lastPut {α : Type} {get : Canvas → α} {put : Call → Option α}
    (h : ∀ c call, get (Surface.apply c call) = (put call).getD (get c)) :
    get (calls.foldl Surface.apply c) = (lastPut put calls).getD (get c) := by
  induction calls generalizing c with
  | nil => rfl
  | cons call calls ih => rw [List.foldl_cons, ih, h, lastPut, Option.getD_or]

theorem penSize_foldl : (calls.foldl Surface.apply c).penSize = (lastPut Call.pen? calls).getD c.penSize :=
  foldl_eq_lastPut c calls penSize_apply

theorem ink_foldl : (calls.foldl Surface.apply c).ink = (lastPut Call.ink? calls).getD c.ink :=
  foldl_eq_lastPut c calls ink_apply

theorem pixel?_foldl (col row : Nat) :
    (calls.foldl Surface.apply c).pixel? col row =
      (c.pixel? col row).map (lastGray? c.toRaster col row c.penSize c.ink calls).getD := by
  induction calls generalizing c with
  | nil => exact Option.map_id'.symm
  | cons call calls ih =>
    rw [List.foldl_cons, ih, toRaster_apply, penSize_apply, ink_apply, pixel?_apply, Option.map_map, lastGray?]
    congr 1
    funext gray
    exact Option.getD_or.symm

/-- What a third pass puts anywhere, the second has put there already. -/
theorem foldl_apply_thrice :
    calls.foldl Surface.apply (calls.foldl Surface.apply (calls.foldl Surface.apply c)) =
      calls.foldl Surface.apply (calls.foldl Surface.apply c) := by
  generalize hd : calls.foldl Surface.apply c = d
  -- The pen and the ink that the first pass leaves are those that every pass leaves.
  have hpen : (lastPut Call.pen? calls).getD d.penSize = d.penSize := by
    rw [← hd, penSize_foldl, getD_getD_self]
  have hink : (lastPut Call.ink? calls).getD d.ink = d.ink := by
    rw [← hd, ink_foldl, getD_getD_self]
  refine ext_pixel? ?_ ?_ ?_ fun col row => ?_
  · rw [toRaster_foldl]
  · rw [penSize_foldl, penSize_foldl, hpen, hpen]
  · rw [ink_foldl, ink_foldl, hink, hink]
  · rw [pixel?_foldl, toRaster_foldl, penSize_foldl, ink_foldl, hpen, hink, pixel?_foldl, Option.map_map]
    congr 1
    funext gray
    exact getD_getD_self _ gray

end

end Canvas

/-! ## Repeats and runs -/

/-- A loop whose body does no more in a third turn in a row than in the second does all in two turns. -/
theorem repeat_eq_repeat_two {α : Type} {step : α → α} (h : ∀ a, step (step (step a)) = step (step a)) {n : ℕ}
    (hn : 2 ≤ n) (a : α) : Nat.repeat step n a = Nat.repeat step 2 a := by
  induction n, hn using Nat.le_induction with
  | base => rfl
  | succ n _ ih =>
    rw [Nat.repeat, ih]
    exact h a

theorem Machine.eq_of {σ : Type} {m m' : Machine σ} (hvars : m.vars = m'.vars)
    (hsurface : m.surface = m'.surface) : m = m' := by
  cases m
  cases m'
  cases hvars
  cases hsurface
  rfl

theorem runAll_thrice (m : Machine Canvas) (body : List Command) :
    runAll (runAll (runAll m body) body) body = runAll (runAll m body) body := by
  apply Machine.eq_of
  · rw [vars_runAll_eq, vars_runAll_eq, Variables.assignAll_self]
  · simp only [surface_runAll]
    exact Canvas.foldl_apply_thrice m.surface (unroll body)

theorem execute_thrice (m : Machine Canvas) (p : Program) :
    ((m.execute p).execute p).execute p = (m.execute p).execute p := by
  apply Machine.eq_of
  · -- Every run forgets what the one before it assigned.
    rw [Machine.execute, Machine.execute, vars_runAll_eq, vars_runAll_eq]
    rfl
  · simp only [Machine.execute, Machine.fresh, surface_runAll]
    exact Canvas.foldl_apply_thrice m.surface (unroll p)

theorem iterations_two : iterations 2 = 2 := by
  decide +kernel

theorem two_le_iterations {count : Float} {q : ℚ} (hq : Number.value? count = some q) (hfloor : 2 ≤ ⌊q⌋) :
    2 ≤ iterations count := by
  rw [iterations, Number.wholePart_eq_floor, hq, Option.elim_some, Number.greatestWord]
  omega

/-- On a canvas, a repeat whose count is a number with a floor of two or more leaves the same pixels, pen, ink
and variables as a repeat of the same body twice, whatever the body and the machine are. And a program that is
executed three times in a row leaves what it leaves the second time. -/
theorem run_repeat_saturates :
    (∀ (m : Machine Canvas) (body : List Command) (count : Float) (q : ℚ), Number.value? count = some q →
      2 ≤ ⌊q⌋ → Command.run m (.repeat count body) = Command.run m (.repeat 2 body)) ∧
    ∀ (m : Machine Canvas) (p : Program),
      ((m.execute p).execute p).execute p = (m.execute p).execute p := by
  refine ⟨?_, execute_thrice⟩
  intro m body count q hq hfloor
  rw [Command.run, Command.run, iterations_two]
  exact repeat_eq_repeat_two (fun m => runAll_thrice m body) (two_le_iterations hq hfloor) m

theorem run_repeat_saturates_fraction :
    let m := Machine.fresh (Canvas.blank 4 3)
    let body : List Command :=
      [.draw (.shape (.line ⟨0, 0⟩ ⟨3, 2⟩)), .set "depth" 1, .repeat 5 [.draw (.pen 2), .draw (.color 50)]]
    Number.value? 3.5 = some (7 / 2) ∧ 2 ≤ ⌊(7 / 2 : ℚ)⌋ ∧
      Command.run m (.repeat 3.5 body) = Command.run m (.repeat 2 body) := by
  intro m body
  have hvalue : Number.value? 3.5 = some (7 / 2) := by decide +kernel
  have hfloor : 2 ≤ ⌊(7 / 2 : ℚ)⌋ := by decide +kernel
  exact ⟨hvalue, hfloor, run_repeat_saturates.1 m body 3.5 (7 / 2) hvalue hfloor⟩

/-- One turn is not enough: the ink that it sets at its end is that of the shapes in the second turn. -/
example :
    let m := Machine.fresh (Canvas.blank 2 1)
    let body : List Command := [.draw (.shape (.fillRect ⟨0, 0⟩ ⟨1, 0⟩)), .draw (.color 50)]
    (Command.run m (.repeat 1 body)).surface.pixels = #[0, 0] ∧
      (Command.run m (.repeat 2 body)).surface.pixels = #[127, 127] := by
  decide +kernel

end Easel
