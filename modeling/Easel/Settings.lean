import Easel.File
import Easel.Yaml.Library

/-!
# Settings

Settings are kept in a document with one mapping. Every field may be left out, and other keys do not
matter. `Settings.ofText?` reads such a document and `Settings.render` writes one, both with a library for documents.
-/

namespace Easel

structure Settings where
  width : Nat := 400
  height : Nat := 400
  /-- The greatest length of a line in a preview. -/
  previewColumns : Nat := 80
deriving DecidableEq, Repr

namespace Settings

inductive Field
  | width | height | previewColumns
deriving DecidableEq, Repr

namespace Field

/-- The key of a field. -/
def key : Field → String
  | width => "width"
  | height => "height"
  | previewColumns => "preview_columns"

def ofKey? (key : String) : Option Field :=
  [width, height, previewColumns].find? (·.key == key)

end Field

variable (yaml : Yaml.Library)

/-! ## Reading -/

/-- The fields that entries of a mapping give, in order. Their values have to be numbers. -/
def fields? : List (String × yaml.Value) → Option (List (Field × Nat))
  | [] => some []
  | (key, value) :: entries => do
    match Field.ofKey? key with
    | none => fields? entries
    | some field =>
      let n ← yaml.number? value
      return (field, n) :: (← fields? entries)

/-- The settings with these fields, and the defaults for those that are left out. No field may be given
twice. -/
def ofFields? (fields : List (Field × Nat)) : Option Settings :=
  if (fields.map Prod.fst).Nodup then
    let value (f : Field) (default : Nat) : Nat := (fields.lookup f).getD default
    let d : Settings := {}
    some ⟨value .width d.width, value .height d.height, value .previewColumns d.previewColumns⟩
  else none

/-- The settings that a text holds. -/
def ofText? (text : String) : Option Settings := do
  ofFields? (← fields? yaml (← yaml.entries? text))

/-- Why a file holds no settings. -/
inductive LoadError
  | unreadable (e : FileError)
  | malformed
deriving DecidableEq, Repr

/-- The settings in a file, given what reading it gave. -/
def load (file : Except FileError ByteArray) : Except LoadError Settings :=
  match file >>= FileError.decode with
  | .error e => .error (.unreadable e)
  | .ok text =>
    match ofText? yaml text with
    | some s => .ok s
    | none => .error .malformed

/-- A message for a file that could not be read. -/
def LoadError.message (path : String) : LoadError → String
  | unreadable e => "failed to read " ++ path ++ ": " ++ e.message
  | malformed => "invalid config " ++ path

/-- The settings in a file, or the defaults if it holds none. -/
def loadOrDefault (file : Except FileError ByteArray) : Settings :=
  match load yaml file with
  | .ok s => s
  | .error _ => {}

/-! ## Writing -/

/-- The settings as a document with all fields. -/
def render (s : Settings) : Except String String :=
  yaml.write (.mapping
    [(Field.width.key, .nat s.width), (Field.height.key, .nat s.height),
     (Field.previewColumns.key, .nat s.previewColumns)])

end Settings

end Easel
