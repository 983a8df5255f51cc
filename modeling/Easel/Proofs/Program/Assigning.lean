import Easel.Proofs.Program.Unrolling
import Mathlib.Data.String.Basic

/-!
# Assignments

A program sets its variables by its live assignments, from left to right (`vars_runAll_eq`). An assignment is
live if every repeat around it has a turn at all. How many turns it has does not matter: an assignment that
is made again later is lost on the table (`Variables.assignAll_assign`), so that a second turn of the same
body finds every variable as it will leave it (`Variables.assignAll_self`).
-/

namespace Easel

namespace Variables

/-! ## One assignment after another -/

theorem insert_insert_self (name : String) (v w : Float) (entries : List (String × Float)) :
    insert name w (insert name v entries) = insert name w entries := by
  induction entries with
  | nil => simp [insert]
  | cons e rest ih =>
    obtain ⟨n, u⟩ := e
    rcases lt_trichotomy name n with h | rfl | h
    · simp [insert, h, h.ne]
    · simp [insert]
    · simp [insert, h.ne', h.not_gt, ih]

/-- The lesser name stops first, in front of the place of the greater one. -/
theorem insert_comm_of_lt {a b : String} (hab : a < b) (v w : Float) (entries : List (String × Float)) :
    insert b w (insert a v entries) = insert a v (insert b w entries) := by
  induction entries with
  | nil => simp [insert, hab, hab.ne, hab.ne', hab.not_gt]
  | cons e rest ih =>
    obtain ⟨n, u⟩ := e
    rcases lt_trichotomy b n with hb | rfl | hb
    · have ha := hab.trans hb
      simp [insert, hab, hab.ne, hab.ne', hab.not_gt, hb, hb.ne, ha, ha.ne]
    · simp [insert, hab, hab.ne, hab.ne', hab.not_gt]
    · rcases lt_trichotomy a n with ha | rfl | ha
      · simp [insert, hab.ne', hab.not_gt, hb.ne', hb.not_gt, ha, ha.ne]
      · simp [insert, hab.ne', hab.not_gt]
      · simp [insert, hb.ne', hb.not_gt, ha.ne', ha.not_gt, ih]

theorem assign_assign_self (vars : Variables) (name : String) (v w : Float) :
    (vars.assign name v).assign name w = vars.assign name w :=
  congrArg Variables.mk (insert_insert_self name v w vars.entries)

theorem assign_comm (vars : Variables) {a b : String} (hab : a ≠ b) (v w : Float) :
    (vars.assign a v).assign b w = (vars.assign b w).assign a v := by
  refine congrArg Variables.mk ?_
  rcases lt_or_gt_of_ne hab with h | h
  · exact insert_comm_of_lt h v w vars.entries
  · exact (insert_comm_of_lt h w v vars.entries).symm

/-! ## Assignments in a row -/

/-- The table after assignments from left to right. -/
def assignAll (vars : Variables) (pairs : List (String × Float)) : Variables :=
  pairs.foldl (fun vars pair => vars.assign pair.1 pair.2) vars

@[simp] theorem assignAll_nil (vars : Variables) : vars.assignAll [] = vars := rfl

@[simp] theorem assignAll_cons (vars : Variables) (pair : String × Float) (pairs : List (String × Float)) :
    vars.assignAll (pair :: pairs) = (vars.assign pair.1 pair.2).assignAll pairs := rfl

theorem assignAll_append (vars : Variables) (xs ys : List (String × Float)) :
    vars.assignAll (xs ++ ys) = (vars.assignAll xs).assignAll ys :=
  List.foldl_append

/-- An assignment to a name that is assigned again later is lost. -/
theorem assignAll_assign {name : String} {pairs : List (String × Float)} (hname : name ∈ pairs.map Prod.fst)
    (vars : Variables) (v : Float) : (vars.assign name v).assignAll pairs = vars.assignAll pairs := by
  induction pairs generalizing vars with
  | nil => cases hname
  | cons pair pairs ih =>
    obtain ⟨n, u⟩ := pair
    rw [assignAll_cons, assignAll_cons]
    by_cases hn : name = n
    · rw [hn, assign_assign_self]
    · -- The assignment goes past one to another name and meets its own further on.
      rw [assign_comm vars hn]
      exact ih ((List.mem_cons.1 hname).resolve_left hn) _

theorem assignAll_of_subset {xs ys : List (String × Float)} (h : ys.map Prod.fst ⊆ xs.map Prod.fst)
    (vars : Variables) : (vars.assignAll ys).assignAll xs = vars.assignAll xs := by
  induction ys generalizing vars with
  | nil => rfl
  | cons y ys ih =>
    obtain ⟨hy, hys⟩ := List.cons_subset.1 h
    rw [assignAll_cons, ih hys, assignAll_assign hy]

theorem assignAll_self (vars : Variables) (xs : List (String × Float)) :
    (vars.assignAll xs).assignAll xs = vars.assignAll xs :=
  assignAll_of_subset (List.Subset.refl _) vars

end Variables

/-! ## Live assignments -/

mutual

/-- The assignments that a command makes, each named once however often a repeat makes it. -/
def Command.assignments : Command → List (String × Float)
  | .draw _ => []
  | .set name value => [(name, value)]
  | .repeat count body => if copies count = 0 then [] else assignments body
  | .comment => []

/-- The assignments that commands in a row make. -/
def assignments : List Command → List (String × Float)
  | [] => []
  | c :: cs => c.assignments ++ assignments cs

end

/-- A loop whose body makes some assignments makes them once, if it has a turn at all. -/
theorem vars_repeat_eq {σ : Type} (step : Machine σ → Machine σ) (pairs : List (String × Float))
    (h : ∀ m, (step m).vars = m.vars.assignAll pairs) (n : ℕ) (m : Machine σ) :
    (Nat.repeat step n m).vars = m.vars.assignAll (if n = 0 then [] else pairs) := by
  induction n with
  | zero => rfl
  | succ n ih =>
    rw [Nat.repeat, h, ih, if_neg (Nat.succ_ne_zero n)]
    split
    · rfl
    · exact Variables.assignAll_self m.vars pairs

section
variable {σ : Type} [Surface σ]

mutual

theorem Command.vars_run_eq (m : Machine σ) (c : Command) :
    (c.run m).vars = m.vars.assignAll c.assignments := by
  cases c with
  | draw call => rfl
  | set name value => rfl
  | comment => rfl
  | «repeat» count body =>
    rw [Command.run, Command.assignments, iterations_eq_copies]
    exact vars_repeat_eq _ _ (fun m => vars_runAll_eq m body) _ m

/-- Running commands makes their live assignments, whatever the surface is. -/
theorem vars_runAll_eq (m : Machine σ) (cs : List Command) :
    (runAll m cs).vars = m.vars.assignAll (assignments cs) := by
  cases cs with
  | nil => rfl
  | cons c cs => rw [runAll, vars_runAll_eq, Command.vars_run_eq, assignments, Variables.assignAll_append]

end

end

end Easel
