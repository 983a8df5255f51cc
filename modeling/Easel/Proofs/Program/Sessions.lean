import Easel.Proofs.Program.Unrolling

/-!
# Sessions

A session is one machine that is asked for one thing after another: to run a program, to read a text and run it,
or to have a text read and run on a machine of its own that takes over if the text is a program. A step either
gives a program or fails, and a step that fails leaves the machine as it was (`Machine.take_of_error`).

The surface hears of all programs of a session, one behind the other (`Machine.surface_session`). The variables
are those of the last program only, since every run forgets them first (`Machine.vars_session`).

`Machine.session_fresh`: a session on a recording is the calls and the variables of the steps that succeed.
-/

namespace Easel

/-! ## Steps -/

/-- What a machine can be asked for. -/
inductive Step
  /-- To run a program. -/
  | execute (p : Program)
  /-- To read a text and run it. -/
  | source (text : String)
  /-- To read a text and run it on a new machine with the same surface. -/
  | renew (text : String)

namespace Step

/-- The program that the step is about, or the error in its text. -/
def program : Step → Except SyntaxError Program
  | execute p => .ok p
  | source text | renew text => Program.read text

/-- The program of a step that succeeds. -/
def program? (step : Step) : Option Program := step.program.toOption

/-- The calls that a step stands for. If its text is no program they are none. -/
def calls (step : Step) : List Call := (step.program?.map unroll).getD []

end Step

namespace Machine

section
variable {σ : Type} [Surface σ]

/-- The machine after a step. It stays as it was if the text of the step is no program. -/
def take (m : Machine σ) : Step → Machine σ
  | .execute p => m.execute p
  | .source text =>
    match Program.read text with
    | .ok p => m.execute p
    | .error _ => m
  | .renew text =>
    match (fresh m.surface).play text with
    | .ok m' => m'
    | .error _ => m

/-- The machine after steps in a row. -/
def session (m : Machine σ) (steps : List Step) : Machine σ := steps.foldl take m

/-! ## One step -/

theorem take_of_ok {step : Step} {p : Program} (h : step.program = .ok p) (m : Machine σ) :
    m.take step = m.execute p := by
  cases step with
  | execute q =>
    cases h
    rfl
  | source text =>
    have hread : Program.read text = .ok p := h
    rw [take, hread]
  | renew text =>
    have hread : Program.read text = .ok p := h
    rw [take, play, hread]
    rfl

theorem take_of_error {step : Step} {e : SyntaxError} (h : step.program = .error e) (m : Machine σ) :
    m.take step = m := by
  cases step with
  | execute q => cases h
  | source text =>
    have hread : Program.read text = .error e := h
    rw [take, hread]
  | renew text =>
    have hread : Program.read text = .error e := h
    rw [take, play, hread]
    rfl

theorem surface_take (m : Machine σ) (step : Step) :
    (m.take step).surface = step.calls.foldl Surface.apply m.surface := by
  rw [Step.calls, Step.program?]
  cases h : step.program with
  | ok p =>
    rw [take_of_ok h]
    exact surface_runAll (fresh m.surface) p
  | error e =>
    rw [take_of_error h]
    rfl

/-- The variables after a step are those of its program alone, whatever surface that runs on, or those from before
if the step has none. -/
theorem vars_take {τ : Type} [Surface τ] (m : Machine σ) (step : Step) (surface : τ) :
    (m.take step).vars = step.program?.elim m.vars fun p => (runAll (fresh surface) p).vars := by
  rw [Step.program?]
  cases h : step.program with
  | ok p =>
    rw [take_of_ok h]
    exact vars_runAll (fresh m.surface) (fresh surface) rfl p
  | error e =>
    rw [take_of_error h]
    rfl

/-! ## Steps in a row -/

theorem surface_session (m : Machine σ) (steps : List Step) :
    (m.session steps).surface = (steps.flatMap Step.calls).foldl Surface.apply m.surface := by
  induction steps generalizing m with
  | nil => rfl
  | cons step steps ih =>
    rw [session, List.foldl_cons, ← session, ih, surface_take, List.flatMap_cons, List.foldl_append]

/-- Only the last step that succeeds counts for the variables. -/
theorem vars_session {τ : Type} [Surface τ] (m : Machine σ) (steps : List Step) (surface : τ) :
    (m.session steps).vars =
      (steps.filterMap Step.program?).getLast?.elim m.vars fun p => (runAll (fresh surface) p).vars := by
  induction steps generalizing m with
  | nil => rfl
  | cons step steps ih =>
    rw [session, List.foldl_cons, ← session, ih, vars_take m step surface, List.filterMap_cons]
    cases step.program? with
    | none => rfl
    | some p =>
      rw [List.getLast?_cons, Option.elim_some, Option.elim_some]
      -- If no later step succeeds, this one is the last that does.
      cases (steps.filterMap Step.program?).getLast? <;> rfl

end

/-! ## Recorded sessions -/

/-- A session that starts with no variables on a recording leaves the calls of the steps that succeed, in their
order, behind those recorded before. Its variables are those that the program of the last such step sets when it
runs alone with none set, and there are none if no step succeeds. Wherever it comes in a session, a step with a
syntax error leaves the whole machine as it was. -/
theorem session_fresh (r : Recording) (steps : List Step) :
    let m := (fresh r).session steps
    m.surface = { r with calls := r.calls ++ (steps.flatMap Step.calls).toArray } ∧
    (∀ p, (steps.filterMap Step.program?).getLast? = some p →
      ∀ r' : Recording, m.vars = (runAll (fresh r') p).vars) ∧
    (steps.filterMap Step.program? = [] → m.vars = .empty) ∧
    ∀ before step e, step.program = .error e →
      step.calls = [] ∧ (fresh r).session (before ++ [step]) = (fresh r).session before := by
  intro m
  refine ⟨?_, ?_, ?_, ?_⟩
  · exact (surface_session (fresh r) steps).trans (Recording.foldl_apply r _)
  · intro p hp r'
    have hvars := vars_session (fresh r) steps r'
    rw [hp] at hvars
    exact hvars
  · intro hnone
    have hvars := vars_session (fresh r) steps r
    rw [hnone] at hvars
    exact hvars
  · intro before step e he
    constructor
    · rw [Step.calls, Step.program?, he]
      rfl
    · rw [session, List.foldl_append]
      exact take_of_error he _

end Machine

end Easel
