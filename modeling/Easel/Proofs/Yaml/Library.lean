import Easel.Yaml.Library
import Mathlib.Algebra.Group.Nat.Defs

/-!
# What libraries are documented to do

What is taken for granted of a library for documents: that it reads a mapping in block style, one entry a line, that it
knows plain numbers of 64 bits, and that it writes a mapping of numbers in the same way (`Library.IsDocumented`). Of
other documents nothing is said but that they can be written (`Library.WritesSingleTags`).

`Lines.library` reads and writes blocks of numbers and nothing else.
-/

namespace Easel.Yaml

/-! ## Blocks -/

/-- Lowercase letters and underscores. -/
def IsKey (key : String) : Prop := key ≠ "" ∧ ∀ c ∈ key.toList, c.isLower ∨ c = '_'

/-- A number in any notation: digits, with signs, a point or an exponent. -/
def IsNumeral (value : String) : Prop :=
  (∃ c ∈ value.toList, c.isDigit) ∧ ∀ c ∈ value.toList, c.isDigit ∨ c ∈ ['+', '-', '.', 'e']

-- Both go through the characters of the text, and not through all there are.
instance (key : String) : Decidable (IsKey key) :=
  @instDecidableAnd _ _ inferInstance (List.decidableBAll _ _)

instance (value : String) : Decidable (IsNumeral value) :=
  @instDecidableAnd _ _ (List.decidableBEx _ _) (List.decidableBAll _ _)

/-- Entries in block style. -/
def block (entries : List (String × String)) : String :=
  String.join (entries.map fun e => e.1 ++ ": " ++ e.2 ++ "\n")

/-- Words that stand for something else than a text if they are written without quotes. -/
def reserved : List String := ["null", "true", "false"]

/-- Keys longer than this are not written on a line with their value. -/
def longestKey : Nat := 128

namespace Library

/-- What a library is documented to do; a plain scalar is read as the value `plain` of its text. -/
structure IsDocumented (yaml : Library) (plain : String → yaml.Value) : Prop where
  entries_block : ∀ entries : List (String × String), (∀ e ∈ entries, IsKey e.1 ∧ IsNumeral e.2) →
    yaml.entries? (block entries) = some (entries.map fun e => (e.1, plain e.2))
  number_plain : ∀ n < 2 ^ 64, yaml.number? (plain (toString n)) = some n
  write_numbers : ∀ entries : List (String × Nat), entries ≠ [] →
    (∀ e ∈ entries, IsKey e.1 ∧ e.1 ∉ reserved ∧ e.1.length ≤ longestKey) →
    yaml.write (.mapping (entries.map fun e => (e.1, .nat e.2))) = .ok (block (entries.map fun e => (e.1, toString e.2)))

end Library

theorem isNumeral_toString (n : Nat) : IsNumeral (toString n) := by
  have hdigit {c : Char} (hc : c ∈ Nat.toDigits 10 n) : c.isDigit := Nat.isDigit_of_mem_toDigits (by decide) (by decide) hc
  obtain ⟨c, cs, hcs⟩ := List.exists_cons_of_ne_nil (Nat.toDigits_ne_nil (n := n) (b := 10))
  rw [IsNumeral, Nat.toString_eq_repr, Nat.toList_repr]
  exact ⟨⟨c, by rw [hcs]; exact List.mem_cons_self, hdigit (by rw [hcs]; exact List.mem_cons_self)⟩,
    fun c hc => .inl (hdigit hc)⟩

/-! ## Tags -/

/-- No tag stands on another. -/
inductive Node.HasSingleTags : Node → Prop
  | number (text : String) : HasSingleTags (.number text)
  | text (text : String) : HasSingleTags (.text text)
  | list {items : List Node} (h : ∀ n ∈ items, HasSingleTags n) : HasSingleTags (.list items)
  | mapping {entries : List (String × Node)} (h : ∀ e ∈ entries, HasSingleTags e.2) : HasSingleTags (.mapping entries)
  | tagged (tag : String) {node : Node} (h : HasSingleTags node) (hnode : ∀ tag' node', node ≠ .tagged tag' node') :
    HasSingleTags (.tagged tag node)

/-- A library is documented to write every node, unless a tag stands on another. -/
def Library.WritesSingleTags (yaml : Library) : Prop :=
  ∀ node : Node, node.HasSingleTags → ∃ text, yaml.write node = .ok text

theorem Tree.writesSingleTags_library : Tree.library.WritesSingleTags := fun node _ => ⟨node.render, rfl⟩

/-! ## Lines -/

namespace Lines

/-- A line as an entry. -/
def pair? (line : List Char) : Option (String × String) :=
  match line.dropWhile (· ≠ ':') with
  | ':' :: ' ' :: value => some (String.ofList (line.takeWhile (· ≠ ':')), String.ofList value)
  | _ => none

/-- A number as it is written. -/
def numeral : String × Node → Except String (String × String)
  | (key, .number text) => .ok (key, text)
  | _ => .error "not a number"

/-- Reads and writes blocks of numbers. -/
def library : Library where
  Value := String
  entries? text := ((text.toList.splitOn '\n').filter (· ≠ [])).mapM pair?
  number? value :=
    let n := Nat.ofDigitChars 10 value.toList 0
    if toString n = value ∧ n ≤ Number.greatestWord then some n else none
  write
    | .mapping entries => do return block (← entries.mapM numeral)
    | _ => .error "not a mapping"

variable {entries : List (String × String)} {e : String × String}

theorem ne_of_isKey {key : String} (h : IsKey key) {c d : Char} (hc : c ∈ key.toList) (hd : ¬ d.isLower) (hd' : d ≠ '_') :
    c ≠ d := by
  rintro rfl
  exact (h.2 c hc).elim hd hd'

theorem ne_of_isNumeral {value : String} (h : IsNumeral value) {c d : Char} (hc : c ∈ value.toList) (hd : ¬ d.isDigit)
    (hd' : d ∉ ['+', '-', '.', 'e']) : c ≠ d := by
  rintro rfl
  exact (h.2 c hc).elim hd hd'

theorem pair?_line (he : IsKey e.1) : pair? (e.1.toList ++ ':' :: ' ' :: e.2.toList) = some e := by
  have hkey : ∀ c ∈ e.1.toList, (decide (c ≠ ':')) = true := fun c hc =>
    decide_eq_true (ne_of_isKey he hc (by decide) (by decide))
  rw [pair?, List.dropWhile_append_of_pos hkey, List.takeWhile_append_of_pos hkey,
    List.dropWhile_cons_of_neg (by decide), List.takeWhile_cons_of_neg (by decide), List.append_nil]
  simp only [String.ofList_toList]

theorem lines_block (h : ∀ e ∈ entries, IsKey e.1 ∧ IsNumeral e.2) :
    ((block entries).toList.splitOn '\n').filter (· ≠ []) =
      entries.map fun e => e.1.toList ++ ':' :: ' ' :: e.2.toList := by
  induction entries with
  | nil => rfl
  | cons e entries ih =>
    obtain ⟨⟨hkey, hvalue⟩, hentries⟩ := List.forall_mem_cons.1 h
    have hblock : (block (e :: entries)).toList =
        (e.1.toList ++ ':' :: ' ' :: e.2.toList) ++ '\n' :: (block entries).toList := by
      simp [block]
    have hline : ∀ c ∈ e.1.toList ++ ':' :: ' ' :: e.2.toList, (c == '\n') = false := by
      intro c hc
      rw [beq_eq_false_iff_ne]
      simp only [List.mem_append, List.mem_cons] at hc
      rcases hc with hc | rfl | rfl | hc
      · exact ne_of_isKey hkey hc (by decide) (by decide)
      · decide
      · decide
      · exact ne_of_isNumeral hvalue hc (by decide) (by decide)
    have hsplit := List.splitOnP_append_cons_of_forall_mem hline '\n' (by decide) (block entries).toList
    rw [hblock, List.splitOn, hsplit, List.filter_cons_of_pos (by simp), List.map_cons]
    exact congrArg _ (ih hentries)

theorem isDocumented_library : library.IsDocumented id where
  entries_block entries h := by
    show (((block entries).toList.splitOn '\n').filter (· ≠ [])).mapM pair? = _
    rw [lines_block h]
    induction entries with
    | nil => rfl
    | cons e entries ih =>
      obtain ⟨he, hentries⟩ := List.forall_mem_cons.1 h
      rw [List.map_cons, List.mapM_cons, pair?_line he.1, ih hentries]
      rfl
  number_plain n hn := by
    have hword : n ≤ Number.greatestWord := by
      rw [Number.greatestWord]
      omega
    have hdigits : Nat.ofDigitChars 10 (toString n).toList 0 = n := by
      rw [Nat.toString_eq_repr, Nat.toList_repr, Nat.ofDigitChars_ten_toDigits]
    simp only [library, id, hdigits, hword, and_self, if_true]
  write_numbers entries _ _ := by
    have hnumbers (entries : List (String × Nat)) :
        (entries.map fun e => (e.1, Node.nat e.2)).mapM numeral = .ok (entries.map fun e => (e.1, toString e.2)) := by
      induction entries with
      | nil => rfl
      | cons e entries ih =>
        rw [List.map_cons, List.mapM_cons, ih]
        rfl
    show (do return block (← (entries.map fun e => (e.1, Node.nat e.2)).mapM numeral) : Except String String) = _
    rw [hnumbers]
    rfl

end Lines

end Easel.Yaml
