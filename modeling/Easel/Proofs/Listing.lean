import Easel.Listing
import Easel.Proofs.Yaml.Library

/-!
# Listings and their tags

In a listing, each command and each call is an item of a list and has a tag, and what stands below a tag is a mapping or
a number. So no tag stands on another (`hasSingleTags_tokens`, `hasSingleTags_program`, `hasSingleTags_trace`).
-/

namespace Easel.Listing

open Yaml
open Node (HasSingleTags)

theorem hasSingleTags_list_map {α : Type} {f : α → Node} (h : ∀ a, (f a).HasSingleTags) (l : List α) :
    HasSingleTags (.list (l.map f)) :=
  .list (List.forall_mem_map.2 fun a _ => h a)

/-- A mapping below a tag. -/
theorem hasSingleTags_tagged_mapping (tag : String) {entries : List (String × Node)}
    (h : ∀ e ∈ entries, e.2.HasSingleTags) : HasSingleTags (.tagged tag (.mapping entries)) :=
  .tagged tag (.mapping h) nofun

theorem hasSingleTags_float (x : Float) : (Node.float x).HasSingleTags := .number _

theorem hasSingleTags_nat (n : Nat) : (Node.nat n).HasSingleTags := .number _

/-! ## Tokens -/

theorem hasSingleTags_tokens (ts : List Token) : (tokens ts).HasSingleTags := by
  refine hasSingleTags_list_map (fun t => .mapping ?_) ts
  simp only [List.forall_mem_cons, List.not_mem_nil, false_implies, implies_true, and_true]
  exact ⟨.text _, .text _, hasSingleTags_nat _, hasSingleTags_nat _⟩

/-! ## Programs -/

theorem hasSingleTags_shape (s : Shape) : (shape s).HasSingleTags := by
  cases s with
  | line a b | rect a b | fillRect a b =>
    refine hasSingleTags_tagged_mapping _ ?_
    simp [hasSingleTags_float]
  | circle center radius | fillCircle center radius =>
    refine hasSingleTags_tagged_mapping _ ?_
    simp [hasSingleTags_float]

mutual

theorem hasSingleTags_command (c : Command) : (command c).HasSingleTags := by
  cases c with
  | draw call =>
    cases call with
    | pen size | color level | paper level =>
      refine hasSingleTags_tagged_mapping _ ?_
      simp [hasSingleTags_float]
    | shape s => exact hasSingleTags_shape s
  | set name value =>
    refine hasSingleTags_tagged_mapping _ ?_
    simp [hasSingleTags_float, HasSingleTags.text]
  | «repeat» count body =>
    have hbody := hasSingleTags_commands body
    refine hasSingleTags_tagged_mapping _ ?_
    simp [hasSingleTags_float, HasSingleTags.list hbody]
  | comment => exact .text _

theorem hasSingleTags_commands (cs : List Command) : ∀ n ∈ commands cs, n.HasSingleTags := by
  cases cs with
  | nil => nofun
  | cons c cs =>
    have htail := hasSingleTags_commands cs
    exact List.forall_mem_cons.2 ⟨hasSingleTags_command c, htail⟩

end

theorem hasSingleTags_program (p : Program) : (program p).HasSingleTags := .list (hasSingleTags_commands p)

/-! ## Calls -/

theorem hasSingleTags_call (c : Call) : (call c).HasSingleTags := by
  cases c with
  | pen size | color level | paper level => exact .tagged _ (hasSingleTags_float _) nofun
  | shape s => exact hasSingleTags_shape s

theorem hasSingleTags_trace (m : Machine Recording) : (trace m).HasSingleTags := by
  have htable : (table m.vars).HasSingleTags := .mapping (List.forall_mem_map.2 fun e _ => hasSingleTags_float e.2)
  refine .mapping ?_
  simp [hasSingleTags_list_map hasSingleTags_call, htable]

end Easel.Listing
