/-!
# Files

How reading or writing a file fails, and texts in files, which are encoded in UTF-8.
-/

namespace Easel

inductive FileError
  | notFound
  | notDirectory
  | isDirectory
  | nameTooLong
  | denied
  | notText
deriving DecidableEq, Repr

namespace FileError

def message : FileError → String
  | notFound => "No such file or directory (os error 2)"
  | notDirectory => "Not a directory (os error 20)"
  | isDirectory => "Is a directory (os error 21)"
  | nameTooLong => "File name too long (os error 36)"
  | denied => "Permission denied (os error 13)"
  | notText => "stream did not contain valid UTF-8"

/-- The text that the bytes encode. -/
def decode (bytes : ByteArray) : Except FileError String :=
  match String.fromUTF8? bytes with
  | some text => .ok text
  | none => .error .notText

theorem decode_toUTF8 (text : String) : decode text.toUTF8 = .ok text := by
  have hutf8 : String.fromUTF8? text.toUTF8 = some text := dif_pos text.isValidUTF8
  simp only [decode, hutf8]

end FileError

end Easel
