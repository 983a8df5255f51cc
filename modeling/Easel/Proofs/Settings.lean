import Easel.Proofs.Yaml.Library
import Easel.Settings
import Mathlib.Algebra.Group.Nat.Defs

/-!
# Settings read back

A file of lines, each with a key and a number, gives every field the number that stands on its line and leaves the
other fields at their defaults, in whatever order the lines are and whatever other keys stand between them. Settings
are written as such a file, so they are read back as they were. `load_written` puts this together.

A field that is given twice makes the file one that holds no settings (`load_of_not_nodup`).

All of this is for any library for documents that does what it is documented to do (`Yaml.Library.IsDocumented`).
-/

namespace Easel.Settings

def get (s : Settings) : Field → Nat
  | .width => s.width
  | .height => s.height
  | .previewColumns => s.previewColumns

theorem ext_get {s t : Settings} (h : ∀ f, s.get f = t.get f) : s = t := by
  have hwidth := h .width
  have hheight := h .height
  have hcolumns := h .previewColumns
  cases s
  cases t
  simp_all [get]

/-! ## Lines -/

/-- A line of a file: a field with its number, or another key with its value. -/
inductive Line
  | setting (field : Field) (n : Nat)
  | other (key value : String)
deriving DecidableEq, Repr

namespace Line

def key : Line → String
  | setting field _ => field.key
  | other key _ => key

def value : Line → String
  | setting _ n => toString n
  | other _ value => value

/-- A field has a number of 64 bits, and another key any number. -/
def IsProper : Line → Prop
  | setting _ n => n < 2 ^ 64
  | other key value =>
    Yaml.IsKey key ∧ key ∉ ["width", "height", "preview_columns"] ∧ Yaml.IsNumeral value

instance : DecidablePred IsProper
  | setting _ n => inferInstanceAs (Decidable (n < 2 ^ 64))
  | other _ _ => inferInstanceAs (Decidable (_ ∧ _ ∧ _))

def setting? : Line → Option (Field × Nat)
  | setting field n => some (field, n)
  | other _ _ => none

def entry (l : Line) : String × String := (l.key, l.value)

end Line

/-- The text of a file with these lines. -/
def text (lines : List Line) : String := Yaml.block (lines.map Line.entry)

/-- The fields that lines give, in order. -/
def given (lines : List Line) : List (Field × Nat) := lines.filterMap Line.setting?

variable {l : Line} {lines : List Line} {f : Field} {n : Nat}

theorem setting?_eq_some : l.setting? = some (f, n) ↔ l = .setting f n := by
  cases l <;> simp [Line.setting?]

theorem mem_given : (f, n) ∈ given lines ↔ .setting f n ∈ lines := by
  simp [given, List.mem_filterMap, setting?_eq_some]

theorem isKey_key (f : Field) : Yaml.IsKey f.key := by
  cases f <;> decide

theorem isKey_entry (hl : l.IsProper) : Yaml.IsKey l.entry.1 ∧ Yaml.IsNumeral l.entry.2 := by
  cases l with
  | setting field n => exact ⟨isKey_key field, Yaml.isNumeral_toString n⟩
  | other key value => exact ⟨hl.1, hl.2.2⟩

/-! ## Fields -/

theorem ofKey?_key (f : Field) : Field.ofKey? f.key = some f := by
  cases f <;> decide

theorem ofKey?_eq_none {key : String} (h : key ∉ ["width", "height", "preview_columns"]) :
    Field.ofKey? key = none := by
  simp only [List.mem_cons, not_or] at h
  obtain ⟨hwidth, hheight, hcolumns, -⟩ := h
  simp [Field.ofKey?, Field.key, Ne.symm hwidth, Ne.symm hheight, Ne.symm hcolumns]

section
variable {yaml : Yaml.Library} {plain : String → yaml.Value} (hyaml : yaml.IsDocumented plain)
include hyaml

theorem fields?_entries (hlines : ∀ l ∈ lines, l.IsProper) :
    fields? yaml (lines.map fun l => (l.key, plain l.value)) = some (given lines) := by
  induction lines with
  | nil => rfl
  | cons l lines ih =>
    obtain ⟨hl, hlines⟩ := List.forall_mem_cons.1 hlines
    rw [List.map_cons, fields?, ih hlines]
    cases l with
    | setting field n =>
      have hkey : Field.ofKey? (Line.setting field n).key = some field := ofKey?_key field
      have hnumber : yaml.number? (plain (Line.setting field n).value) = some n := hyaml.number_plain n hl
      simp only [hkey, hnumber]
      rfl
    | other key value =>
      have hkey : Field.ofKey? (Line.other key value).key = none := ofKey?_eq_none hl.2.1
      simp only [hkey]
      rfl

theorem ofText?_text (hlines : ∀ l ∈ lines, l.IsProper) : ofText? yaml (text lines) = ofFields? (given lines) := by
  have hentries := hyaml.entries_block (lines.map Line.entry)
    (List.forall_mem_map.2 fun l hl => isKey_entry (hlines l hl))
  rw [List.map_map] at hentries
  have hfields := fields?_entries hyaml hlines
  simp only [ofText?, text, hentries, Option.bind_eq_bind, Option.bind_some]
  exact congrArg (Option.bind · ofFields?) hfields

end

theorem lookup_of_mem {fields : List (Field × Nat)} (hfields : (fields.map Prod.fst).Nodup) (h : (f, n) ∈ fields) :
    fields.lookup f = some n := by
  induction fields with
  | nil => simp at h
  | cons p fields ih =>
    obtain ⟨hp, hfields⟩ := List.nodup_cons.1 hfields
    rcases List.mem_cons.1 h with rfl | h
    · simp
    · have hne : f ≠ p.1 := ne_of_mem_of_not_mem (List.mem_map_of_mem h) hp
      rw [List.lookup_cons, beq_eq_false_iff_ne.2 hne]
      exact ih hfields h

theorem lookup_of_not_mem {fields : List (Field × Nat)} (h : f ∉ fields.map Prod.fst) : fields.lookup f = none := by
  rw [List.lookup_eq_none_iff]
  intro p hp
  simpa using (ne_of_mem_of_not_mem (List.mem_map_of_mem hp) h).symm

theorem ofFields?_of_nodup {fields : List (Field × Nat)} (h : (fields.map Prod.fst).Nodup) :
    ∃ s, ofFields? fields = some s ∧ ∀ f, s.get f = (fields.lookup f).getD (get {} f) := by
  refine ⟨_, if_pos h, ?_⟩
  rintro ⟨⟩ <;> rfl

/-! ## Files -/

section
variable {yaml : Yaml.Library}

theorem load_toUTF8 (text : String) :
    load yaml (.ok text.toUTF8) = (ofText? yaml text).elim (.error .malformed) .ok := by
  simp only [load, bind, Except.bind, FileError.decode_toUTF8]
  cases ofText? yaml text <;> rfl

variable {plain : String → yaml.Value} (hyaml : yaml.IsDocumented plain)
include hyaml

theorem load_of_not_nodup (hlines : ∀ l ∈ lines, l.IsProper) (h : ¬ ((given lines).map Prod.fst).Nodup) :
    load yaml (.ok (text lines).toUTF8) = .error .malformed := by
  rw [load_toUTF8, ofText?_text hyaml hlines, ofFields?, if_neg h]
  rfl

theorem load_of_nodup (hlines : ∀ l ∈ lines, l.IsProper) (hnodup : ((given lines).map Prod.fst).Nodup) :
    ∃ s, load yaml (.ok (text lines).toUTF8) = .ok s ∧ (∀ f n, .setting f n ∈ lines → s.get f = n) ∧
      ∀ f, (∀ n, .setting f n ∉ lines) → s.get f = get {} f := by
  obtain ⟨s, hs, hget⟩ := ofFields?_of_nodup hnodup
  refine ⟨s, ?_, fun f n hmem => ?_, fun f hmem => ?_⟩
  · rw [load_toUTF8, ofText?_text hyaml hlines, hs]
    rfl
  · rw [hget, lookup_of_mem hnodup (mem_given.2 hmem)]
    rfl
  · have hgiven : f ∉ (given lines).map Prod.fst := by
      rintro hf
      obtain ⟨⟨f, n⟩, hfn, rfl⟩ := List.mem_map.1 hf
      exact hmem n (mem_given.1 hfn)
    rw [hget, lookup_of_not_mem hgiven]
    rfl

/-! ## Written settings -/

theorem render_eq (s : Settings) :
    s.render yaml =
      .ok (text [.setting .width s.width, .setting .height s.height, .setting .previewColumns s.previewColumns]) := by
  have hkey (f : Field) : Yaml.IsKey f.key ∧ f.key ∉ Yaml.reserved ∧ f.key.length ≤ Yaml.longestKey :=
    ⟨isKey_key f, by cases f <;> decide⟩
  exact hyaml.write_numbers
    [(Field.width.key, s.width), (Field.height.key, s.height), (Field.previewColumns.key, s.previewColumns)] (by simp)
    (by simp [hkey])

theorem load_render {s : Settings} (h : ∀ f, s.get f < 2 ^ 64) :
    ∃ text, s.render yaml = .ok text ∧ load yaml (.ok text.toUTF8) = .ok s := by
  have hlines : ∀ l ∈ [Line.setting .width s.width, .setting .height s.height, .setting .previewColumns s.previewColumns],
      l.IsProper := by
    rw [List.forall_mem_cons, List.forall_mem_cons, List.forall_mem_singleton]
    exact ⟨h .width, h .height, h .previewColumns⟩
  obtain ⟨t, ht, hget, -⟩ := load_of_nodup hyaml hlines (by simp [given, Line.setting?])
  have hst : t = s := ext_get fun f => hget f (s.get f) (by cases f <;> simp [get])
  exact ⟨_, render_eq hyaml s, by rw [ht, hst]⟩

end

end Easel.Settings
