import Easel.Execution
import Easel.Proofs.Number.Value

/-!
# Unrolling

To unroll a program is to write the body of every repeat as often as the repeat runs, and to keep the
calls only. Running a program does nothing else to a surface: it makes the calls of `unroll`, one by
one, whatever the surface answers to them, and the variables never hear of the surface at all.

`execute_eq_unroll`: the surface after a run, for a recording and for any other surface.
-/

namespace Easel

/-! ## Unrolled programs -/

/-- How many copies of its body a repeat stands for: the floor of its count, at most the greatest number
of 64 bits, and none at all if the floor is not positive or the count is not finite. -/
def copies (count : Float) : ℕ :=
  match Number.value? count with
  | none => 0
  | some q => if ⌊q⌋ ≤ 0 then 0 else min ⌊q⌋.toNat (2 ^ 64 - 1)

mutual

/-- The calls that a command stands for. -/
def Command.unroll : Command → List Call
  | .draw call => [call]
  | .set _ _ => []
  | .repeat count body => (List.replicate (copies count) (unroll body)).flatten
  | .comment => []

/-- The calls that commands in a row stand for. -/
def unroll : List Command → List Call
  | [] => []
  | c :: cs => c.unroll ++ unroll cs

end

theorem iterations_eq_copies (count : Float) : iterations count = copies count := by
  rw [iterations, copies, Number.wholePart_eq_floor]
  cases Number.value? count with
  | none => rfl
  | some q =>
    simp only [Option.elim_some, Number.greatestWord]
    split
    · next h => rw [Int.toNat_of_nonpos h, Nat.zero_min]
    · rfl

/-! ## Surfaces -/

section
variable {σ : Type} [Surface σ]

/-- A loop whose body makes the calls of `calls` makes them once for each of its `n` turns. -/
theorem surface_repeat (step : Machine σ → Machine σ) (calls : List Call)
    (h : ∀ m, (step m).surface = calls.foldl Surface.apply m.surface) (n : ℕ) (m : Machine σ) :
    (Nat.repeat step n m).surface = (List.replicate n calls).flatten.foldl Surface.apply m.surface := by
  induction n with
  | zero => rfl
  | succ n ih =>
    rw [Nat.repeat, h, ih, List.replicate_succ', List.flatten_concat, List.foldl_append]

mutual

theorem Command.surface_run (m : Machine σ) (c : Command) :
    (c.run m).surface = c.unroll.foldl Surface.apply m.surface := by
  cases c with
  | draw call => rfl
  | set name value => rfl
  | comment => rfl
  | «repeat» count body =>
    rw [Command.run, Command.unroll, iterations_eq_copies]
    -- Every turn starts from another machine, so the body is taken for all of them.
    exact surface_repeat _ _ (fun m => surface_runAll m body) _ m

/-- Running commands makes the calls that they unroll to. -/
theorem surface_runAll (m : Machine σ) (cs : List Command) :
    (runAll m cs).surface = (unroll cs).foldl Surface.apply m.surface := by
  cases cs with
  | nil => rfl
  | cons c cs => rw [runAll, surface_runAll, Command.surface_run, unroll, List.foldl_append]

end

end

/-! ## Variables -/

/-- Loops whose bodies agree on the variables agree on them after the same number of turns. -/
theorem vars_repeat {σ τ : Type} (step : Machine σ → Machine σ) (step' : Machine τ → Machine τ)
    (h : ∀ m m', m.vars = m'.vars → (step m).vars = (step' m').vars) (n : ℕ)
    (m : Machine σ) (m' : Machine τ) (hm : m.vars = m'.vars) :
    (Nat.repeat step n m).vars = (Nat.repeat step' n m').vars := by
  induction n with
  | zero => exact hm
  | succ n ih => exact h _ _ ih

section
variable {σ τ : Type} [Surface σ] [Surface τ]

mutual

theorem Command.vars_run (m : Machine σ) (m' : Machine τ) (hm : m.vars = m'.vars) (c : Command) :
    (c.run m).vars = (c.run m').vars := by
  cases c with
  | draw call => exact hm
  | set name value =>
    rw [Command.run, Command.run, hm]
  | comment => exact hm
  | «repeat» count body =>
    rw [Command.run, Command.run]
    exact vars_repeat _ _ (fun m m' h => vars_runAll m m' h body) _ m m' hm

/-- What the variables become does not depend on the surface. -/
theorem vars_runAll (m : Machine σ) (m' : Machine τ) (hm : m.vars = m'.vars) (cs : List Command) :
    (runAll m cs).vars = (runAll m' cs).vars := by
  cases cs with
  | nil => exact hm
  | cons c cs =>
    rw [runAll, runAll]
    exact vars_runAll _ _ (Command.vars_run m m' hm c) cs

end

end

/-! ## Runs -/

theorem Recording.foldl_apply (r : Recording) (calls : List Call) :
    calls.foldl Surface.apply r = { r with calls := r.calls ++ calls.toArray } := by
  induction calls generalizing r with
  | nil => simp
  | cons c cs ih =>
    rw [List.foldl_cons, ih]
    simp [Surface.apply]

/-- A run leaves a recording with the calls of the unrolled program behind those it had, and any other
surface as those calls leave it, one after another. The variables come out the same on both, and what
they were before the run does not count. -/
theorem execute_eq_unroll {σ : Type} [Surface σ] (p : Program) (r : Machine Recording) (m : Machine σ) :
    (r.execute p).surface = { r.surface with calls := r.surface.calls ++ (unroll p).toArray } ∧
    (m.execute p).surface = (unroll p).foldl Surface.apply m.surface ∧
    (m.execute p).vars = (r.execute p).vars := by
  have hrecording : (r.execute p).surface = (unroll p).foldl Surface.apply r.surface :=
    surface_runAll (.fresh r.surface) p
  refine ⟨?_, surface_runAll (.fresh m.surface) p, ?_⟩
  · rw [hrecording, Recording.foldl_apply]
  · exact vars_runAll (.fresh m.surface) (.fresh r.surface) rfl p

end Easel
