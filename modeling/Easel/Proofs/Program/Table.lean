import Easel.Proofs.Program.Assigning

/-!
# The table of variables

Which value a variable has after a run can be read off the program. A node that sets a variable is listed once,
with the counts of the repeats around it (`setNodes`), and is live if each of them is finite and at least one. The
live nodes are the assignments that a run makes (`filter_setNodes`), so the last of them for a name decides
(`lastValue`).

The table lists its names by their characters (`Variables.IsSorted`), which is the order of their bytes in UTF-8 too
(`utf8_lt_utf8`): of two characters the one with the greater code point has the greater byte at the first place
where their encodings differ (`utf8EncodeChar_append_lt`).

`vars_execute`: the table after a run.
-/

namespace Easel

/-! ## Nodes that set a variable -/

/-- A node that sets a variable, with the counts of the repeats around it, the outermost first. -/
structure SetNode where
  around : List Float
  name : String
  value : Float

mutual

/-- The nodes of a command that set a variable, inside repeats with the counts `around`. -/
def Command.setNodes (around : List Float) : Command → List SetNode
  | .draw _ => []
  | .set name value => [⟨around, name, value⟩]
  | .repeat count body => setNodes (around ++ [count]) body
  | .comment => []

/-- The nodes of commands in a row that set a variable, in preorder. -/
def setNodes (around : List Float) : List Command → List SetNode
  | [] => []
  | c :: cs => c.setNodes around ++ setNodes around cs

end

namespace SetNode

/-- Every repeat around the node has a finite count whose floor is at least one. -/
def IsLive (node : SetNode) : Prop := ∀ count ∈ node.around, ∃ q ∈ Number.value? count, 1 ≤ ⌊q⌋

instance : DecidablePred IsLive := fun node =>
  inferInstanceAs (Decidable (∀ count ∈ node.around, ∃ q ∈ Number.value? count, 1 ≤ ⌊q⌋))

/-- What the node assigns. -/
def pair (node : SetNode) : String × Float := (node.name, node.value)

end SetNode

/-- The value of the last live node that sets a variable of this name. -/
def lastValue (p : Program) (name : String) : Option Float :=
  ((setNodes [] p).filter fun node => node.IsLive ∧ node.name = name).getLast?.map SetNode.value

/-! ## Live nodes and assignments -/

theorem copies_ne_zero_iff (count : Float) : copies count ≠ 0 ↔ ∃ q ∈ Number.value? count, 1 ≤ ⌊q⌋ := by
  rw [copies]
  cases Number.value? count with
  | none => simp
  | some q =>
    simp only [Option.mem_def, Option.some.injEq, exists_eq_left']
    split <;> omega

theorem SetNode.isLive_iff (node : SetNode) : node.IsLive ↔ ∀ count ∈ node.around, copies count ≠ 0 := by
  simp only [IsLive, copies_ne_zero_iff]

mutual

theorem Command.filter_setNodes (around : List Float) (c : Command) :
    ((c.setNodes around).filter (·.IsLive)).map SetNode.pair =
      if ∀ count ∈ around, copies count ≠ 0 then c.assignments else [] := by
  cases c with
  | draw call => rw [Command.setNodes, Command.assignments, ite_self, List.filter_nil, List.map_nil]
  | comment => rw [Command.setNodes, Command.assignments, ite_self, List.filter_nil, List.map_nil]
  | set name value =>
    rw [Command.setNodes, Command.assignments]
    by_cases hlive : ∀ count ∈ around, copies count ≠ 0
    · have hnode : (⟨around, name, value⟩ : SetNode).IsLive := (SetNode.isLive_iff _).2 hlive
      rw [if_pos hlive, List.filter_cons_of_pos (by simpa using hnode)]
      rfl
    · have hnode : ¬ (⟨around, name, value⟩ : SetNode).IsLive := mt (SetNode.isLive_iff _).1 hlive
      rw [if_neg hlive, List.filter_cons_of_neg (by simpa using hnode)]
      rfl
  | «repeat» count body =>
    rw [Command.setNodes, Command.assignments, filter_setNodes (around ++ [count]) body]
    by_cases hcount : copies count = 0
    · have hnot : ¬ ∀ c ∈ around ++ [count], copies c ≠ 0 := fun h =>
        h count (List.mem_append_right _ List.mem_cons_self) hcount
      rw [if_neg hnot, if_pos hcount, ite_self]
    · have hiff : (∀ c ∈ around ++ [count], copies c ≠ 0) ↔ ∀ c ∈ around, copies c ≠ 0 := by
        rw [List.forall_mem_append, List.forall_mem_singleton]
        exact and_iff_left hcount
      simp only [if_congr hiff rfl rfl, if_neg hcount]

/-- The live nodes are the assignments that a run makes. -/
theorem filter_setNodes (around : List Float) (cs : List Command) :
    ((setNodes around cs).filter (·.IsLive)).map SetNode.pair =
      if ∀ count ∈ around, copies count ≠ 0 then assignments cs else [] := by
  cases cs with
  | nil => rw [setNodes, assignments, ite_self, List.filter_nil, List.map_nil]
  | cons c cs =>
    rw [setNodes, assignments, List.filter_append, List.map_append, Command.filter_setNodes, filter_setNodes]
    split <;> rfl

end

/-! ## Programs without drawing commands -/

mutual

/-- The command without drawing commands in its body, or nothing if it is one itself. -/
def Command.withoutDrawing : Command → List Command
  | .draw _ => []
  | .set name value => [.set name value]
  | .repeat count body => [.repeat count (withoutDrawing body)]
  | .comment => [.comment]

/-- The commands without those that draw, in bodies of repeats too. -/
def withoutDrawing : List Command → List Command
  | [] => []
  | c :: cs => c.withoutDrawing ++ withoutDrawing cs

end

theorem assignments_append (cs ds : List Command) : assignments (cs ++ ds) = assignments cs ++ assignments ds := by
  induction cs with
  | nil => rfl
  | cons c cs ih => rw [List.cons_append, assignments, assignments, ih, List.append_assoc]

theorem assignments_singleton (c : Command) : assignments [c] = c.assignments := by
  rw [assignments, assignments, List.append_nil]

mutual

theorem Command.assignments_withoutDrawing (c : Command) : Easel.assignments c.withoutDrawing = c.assignments := by
  cases c with
  | draw call => rfl
  | set name value => rfl
  | comment => rfl
  | «repeat» count body =>
    rw [Command.withoutDrawing, assignments_singleton, Command.assignments, Command.assignments,
      assignments_withoutDrawing body]

/-- Drawing commands make no assignments. -/
theorem assignments_withoutDrawing (cs : List Command) : assignments (withoutDrawing cs) = assignments cs := by
  cases cs with
  | nil => rfl
  | cons c cs =>
    rw [withoutDrawing, assignments_append, Command.assignments_withoutDrawing, assignments_withoutDrawing cs,
      assignments]

end

/-! ## Names by their bytes -/

theorem toNat_le_of_char (c : Char) : c.val.toNat ≤ 0x10FFFF := by
  have h := c.valid
  simp only [UInt32.isValidChar, Nat.isValidChar] at h
  omega

theorem ofNat_cons_lt_iff {m n : ℕ} (hm : m < 256) (hn : n < 256) {xs ys : List UInt8} :
    UInt8.ofNat m :: xs < UInt8.ofNat n :: ys ↔ m < n ∨ m = n ∧ xs < ys := by
  rw [List.cons_lt_cons_iff, UInt8.ofNat_lt_iff_lt hm hn, ← UInt8.toNat_inj, UInt8.toNat_ofNat', UInt8.toNat_ofNat',
    Nat.mod_eq_of_lt hm, Nat.mod_eq_of_lt hn]

/-- A character with a greater code point has a greater encoding, whatever follows. -/
theorem utf8EncodeChar_append_lt {a b : Char} (h : a < b) (xs ys : List UInt8) :
    String.utf8EncodeChar a ++ xs < String.utf8EncodeChar b ++ ys := by
  have hlt : a.val.toNat < b.val.toNat := h
  have hle : b.val.toNat ≤ 0x10FFFF := toNat_le_of_char b
  -- Digits to the base 64, each above the next.
  have h₂ (n : ℕ) : n / 4096 = n / 64 / 64 := (Nat.div_div_eq_div_mul n 64 64).symm
  have h₃ (n : ℕ) : n / 262144 = n / 64 / 64 / 64 := by rw [Nat.div_div_eq_div_mul, Nat.div_div_eq_div_mul]
  simp only [String.utf8EncodeChar, h₂, h₃]
  generalize a.val.toNat = v at hlt
  generalize b.val.toNat = w at hlt hle
  split_ifs <;> simp (disch := omega) only [List.cons_append, List.nil_append, ofNat_cons_lt_iff] <;> omega

theorem flatMap_utf8EncodeChar_lt {cs ds : List Char} (h : cs < ds) :
    cs.flatMap String.utf8EncodeChar < ds.flatMap String.utf8EncodeChar := by
  induction cs generalizing ds with
  | nil =>
    cases ds with
    | nil => exact absurd h (List.lt_irrefl _)
    | cons d ds =>
      obtain ⟨byte, bytes, hbytes⟩ := List.exists_cons_of_ne_nil (String.utf8EncodeChar_ne_nil (c := d))
      rw [List.flatMap_nil, List.flatMap_cons, hbytes]
      exact List.nil_lt_cons _ _
  | cons c cs ih =>
    cases ds with
    | nil => exact absurd h (List.not_lt_nil _)
    | cons d ds =>
      rw [List.flatMap_cons, List.flatMap_cons]
      rcases List.cons_lt_cons_iff.1 h with hlt | ⟨rfl, htail⟩
      · exact utf8EncodeChar_append_lt hlt _ _
      · exact List.append_left_lt (ih htail)

theorem toList_toUTF8 (s : String) : s.toUTF8.data.toList = s.toList.flatMap String.utf8EncodeChar := by
  rw [String.toUTF8_eq_toByteArray, ← String.utf8Encode_toList]
  exact List.toList_data_toByteArray

/-- Strings in the order of their characters are in the order of their bytes. -/
theorem utf8_lt_utf8 {s t : String} (h : s < t) : s.toUTF8.data.toList < t.toUTF8.data.toList := by
  rw [toList_toUTF8, toList_toUTF8]
  exact flatMap_utf8EncodeChar_lt (String.lt_iff_toList_lt.1 h)

/-! ## Tables -/

namespace Variables

/-- Names strictly increase. -/
def IsSorted (entries : List (String × Float)) : Prop := entries.Pairwise fun a b => a.1 < b.1

theorem mem_insert {name : String} {value : Float} {entries : List (String × Float)} {e : String × Float}
    (h : e ∈ insert name value entries) : e = (name, value) ∨ e ∈ entries := by
  induction entries with
  | nil => exact .inl (List.mem_singleton.1 h)
  | cons first rest ih =>
    rw [insert] at h
    split_ifs at h with heq hlt
    · exact (List.mem_cons.1 h).imp_right (List.mem_cons_of_mem _)
    · exact List.mem_cons.1 h
    · rcases List.mem_cons.1 h with rfl | h
      · exact .inr List.mem_cons_self
      · exact (ih h).imp_right (List.mem_cons_of_mem _)

theorem IsSorted.insert {entries : List (String × Float)} (h : IsSorted entries) (name : String) (value : Float) :
    IsSorted (insert name value entries) := by
  induction entries with
  | nil => exact List.pairwise_singleton _ _
  | cons first rest ih =>
    obtain ⟨hfirst, hrest⟩ := List.pairwise_cons.1 h
    rw [Variables.insert]
    split_ifs with heq hlt
    · exact List.pairwise_cons.2 ⟨fun e he => heq ▸ hfirst e he, hrest⟩
    · refine List.pairwise_cons.2 ⟨fun e he => ?_, h⟩
      rcases List.mem_cons.1 he with rfl | he
      · exact hlt
      · exact hlt.trans (hfirst e he)
    · refine List.pairwise_cons.2 ⟨fun e he => ?_, ih hrest⟩
      rcases mem_insert he with rfl | he
      · exact lt_of_le_of_ne (not_lt.1 hlt) (Ne.symm heq)
      · exact hfirst e he

theorem isSorted_assignAll {vars : Variables} (h : IsSorted vars.entries) (pairs : List (String × Float)) :
    IsSorted (vars.assignAll pairs).entries := by
  induction pairs generalizing vars with
  | nil => exact h
  | cons pair pairs ih => exact ih (h.insert pair.1 pair.2)

theorem lookup_cons_eq (name : String) (first : String × Float) (rest : List (String × Float)) :
    (first :: rest).lookup name = if name = first.1 then some first.2 else rest.lookup name := by
  rw [List.lookup_cons]
  by_cases h : name = first.1
  · rw [if_pos h, beq_iff_eq.2 h]
  · rw [if_neg h, beq_eq_false_iff_ne.2 h]

/-- An assignment is found under its name, and others are found as before. -/
theorem lookup_insert (name other : String) (value : Float) (entries : List (String × Float)) :
    (insert name value entries).lookup other = if other = name then some value else entries.lookup other := by
  induction entries with
  | nil => rw [insert, lookup_cons_eq]
  | cons first rest ih =>
    rw [insert]
    by_cases heq : name = first.1
    · rw [if_pos heq, lookup_cons_eq, lookup_cons_eq, ← heq]
      split_ifs <;> rfl
    · rw [if_neg heq]
      split
      · rw [lookup_cons_eq]
      · rw [lookup_cons_eq, lookup_cons_eq, ih]
        by_cases hother : other = name
        · rw [if_pos hother, if_pos hother, if_neg (hother ▸ heq)]
        · rw [if_neg hother, if_neg hother]

/-- Of assignments in a row the last one to a name decides. -/
theorem get?_assignAll (vars : Variables) (pairs : List (String × Float)) (name : String) :
    (vars.assignAll pairs).get? name =
      ((pairs.filter (·.1 = name)).getLast?.map Prod.snd).or (vars.get? name) := by
  induction pairs generalizing vars with
  | nil => rfl
  | cons pair pairs ih =>
    have hget : (vars.assign pair.1 pair.2).get? name = if name = pair.1 then some pair.2 else vars.get? name :=
      lookup_insert pair.1 name pair.2 vars.entries
    rw [assignAll_cons, ih, hget]
    by_cases hname : pair.1 = name
    · rw [if_pos hname.symm, List.filter_cons_of_pos (by simpa using hname), List.getLast?_cons]
      cases (pairs.filter (·.1 = name)).getLast? <;> rfl
    · rw [if_neg (Ne.symm hname), List.filter_cons_of_neg (by simpa using hname)]

/-- Names that increase are listed once, so what is listed is what is found. -/
theorem IsSorted.mem_iff {entries : List (String × Float)} (h : IsSorted entries) (name : String) (value : Float) :
    (name, value) ∈ entries ↔ entries.lookup name = some value := by
  induction entries with
  | nil => exact iff_of_false List.not_mem_nil (Option.some_ne_none value).symm
  | cons first rest ih =>
    obtain ⟨hfirst, hrest⟩ := List.pairwise_cons.1 h
    rw [List.mem_cons, lookup_cons_eq, ih hrest]
    split_ifs with hname
    · have hnot : rest.lookup name ≠ some value := fun hlookup =>
        (hfirst _ ((ih hrest).2 hlookup)).ne' hname
      rw [or_iff_left hnot, Option.some.injEq, Prod.ext_iff]
      exact (and_iff_right hname).trans eq_comm
    · exact or_iff_right fun heq => hname (congrArg Prod.fst heq)

end Variables

/-! ## Runs -/

theorem vars_execute_eq {σ : Type} [Surface σ] (m : Machine σ) (p : Program) :
    (m.execute p).vars = Variables.empty.assignAll (assignments p) :=
  vars_runAll_eq (.fresh m.surface) p

/-- The last of the assignments to a name is that of the last live node. -/
theorem getLast?_assignments (p : Program) (name : String) :
    ((assignments p).filter (·.1 = name)).getLast?.map Prod.snd = lastValue p name := by
  have hassignments : assignments p = ((setNodes [] p).filter (·.IsLive)).map SetNode.pair := by
    rw [filter_setNodes, if_pos (List.forall_mem_nil _)]
  have hand (node : SetNode) : decide (node.IsLive ∧ node.name = name) =
      (decide (node.name = name) && decide node.IsLive) := by rw [Bool.decide_and, Bool.and_comm]
  rw [hassignments, List.filter_map, List.getLast?_map, Option.map_map, List.filter_filter, lastValue,
    funext hand]
  rfl

/-- The table after a run, whatever the machine was before. A name is found with the value of the last live node
that sets it, and is not found if no live node does. What is found is what is listed, by names whose bytes in UTF-8
strictly increase. Nothing else counts: on any other machine, with its drawing commands or without them, the program
comes to the same table. -/
theorem vars_execute {σ τ : Type} [Surface σ] [Surface τ] (m : Machine σ) (p : Program) :
    let vars := (m.execute p).vars
    (∀ name, vars.get? name = lastValue p name) ∧
      (∀ name value, (name, value) ∈ vars.entries ↔ lastValue p name = some value) ∧
      vars.entries.Pairwise (fun a b => a.1.toUTF8.data.toList < b.1.toUTF8.data.toList) ∧
      ∀ m' : Machine τ, (m'.execute p).vars = vars ∧ (m'.execute (withoutDrawing p)).vars = vars := by
  intro vars
  have hvars : vars = Variables.empty.assignAll (assignments p) := vars_execute_eq m p
  have hsorted : Variables.IsSorted vars.entries := hvars ▸ Variables.isSorted_assignAll List.Pairwise.nil _
  have hget (name : String) : vars.get? name = lastValue p name := by
    rw [hvars, Variables.get?_assignAll, getLast?_assignments]
    exact Option.or_none
  refine ⟨hget, fun name value => ?_, hsorted.imp utf8_lt_utf8, fun m' => ⟨?_, ?_⟩⟩
  · rw [hsorted.mem_iff, ← hget]
    rfl
  · rw [vars_execute_eq, hvars]
  · rw [vars_execute_eq, hvars, assignments_withoutDrawing]

/-- An assignment in a repeat without a turn does not count, and one in a repeat with turns counts once. -/
example : ((Machine.fresh (Recording.blank 0 0)).execute
    [.set "a" 1, .repeat 3 [.set "a" 2, .repeat 0.5 [.set "a" 3, .set "b" 4]]]).vars.entries = [("a", 2)] := by
  decide +kernel

end Easel
