/-!
# Number literals

A literal is `digits` or `digits.digits`. `read?` converts the longest literal that a text starts
with to the nearest double, so `1.2.3` reads as 1.2 and `5.` as 5.
-/

namespace Easel.Number

/-- The natural number that decimal digits denote. -/
def ofDigits (digits : List Char) : Nat :=
  digits.foldl (fun n c => 10 * n + (c.toNat - '0'.toNat)) 0

/-- The digits before the point and the digits after it, of the longest literal at the start of a
text. A point without a digit after it does not belong to the literal. -/
def literal (text : List Char) : List Char × List Char :=
  let fraction :=
    match text.dropWhile Char.isDigit with
    | '.' :: rest => rest.takeWhile Char.isDigit
    | _ => []
  (text.takeWhile Char.isDigit, fraction)

/-- The double nearest to the literal that starts the text, ties to even; none where the text does
not start with a digit. -/
def read? (text : String) : Option Float :=
  match literal text.toList with
  | ([], _) => none
  | (whole, fraction) => some (Float.ofScientific (ofDigits (whole ++ fraction)) true fraction.length)

theorem read?_isSome_iff (text : String) :
    (read? text).isSome ↔ ∃ c ∈ text.toList.head?, c.isDigit := by
  unfold read? literal
  cases text.toList with
  | nil => simp
  | cons c cs => by_cases hc : c.isDigit <;> simp [hc]

end Easel.Number
