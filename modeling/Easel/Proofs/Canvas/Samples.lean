import Mathlib.Algebra.Order.Floor.Div
import Easel.Proofs.Canvas.Bounds

/-!
# Samples

A preview is read back as text: its lines (`Preview.lines`), the character at a place (`Preview.char?`), and
the two samples that a character shows (`Preview.unblock`). Lines are as the canvas laid them down, since no
block is a line break (`Canvas.lines_preview`).

`Canvas.preview_shows`: the number of lines and their length are rounded up quotients, no line is longer than
wanted, and each character shows whether the pixels at its two places are dark. When no line would be too
long, every pixel is a sample, and the text tells which pixels are dark.
-/

namespace Easel

/-! ## Text by lines -/

namespace Preview

/-- The lines of a text that ends each line with a line break. -/
def lines (text : String) : List (List Char) := (text.toList.splitOn '\n').dropLast

/-- The character at a place in a line. -/
def char? (text : String) (line place : Nat) : Option Char := (lines text)[line]?.bind (·[place]?)

/-- The two samples that a block shows, the upper one first. -/
def unblock : Char → Bool × Bool
  | '█' => (true, true)
  | '▀' => (true, false)
  | '▄' => (false, true)
  | _ => (false, false)

/-- Whether the text shows the place `col`, `row` as dark, where each line is two rows. -/
def isDark (text : String) (col row : Nat) : Bool :=
  ((char? text (row / 2) col).map unblock).any fun samples => if row % 2 = 0 then samples.1 else samples.2

theorem flatMap_append_singleton {α : Type} (sep : α) (lines : List (List α)) :
    lines.flatMap (· ++ [sep]) = [sep].intercalate (lines ++ [[]]) := by
  induction lines with
  | nil => rfl
  | cons line lines ih =>
    obtain ⟨next, rest, hrest⟩ := List.exists_cons_of_ne_nil (List.append_ne_nil_of_right_ne_nil lines
      (List.cons_ne_nil ([] : List α) []))
    rw [List.flatMap_cons, ih, List.cons_append, hrest]
    simp [List.intercalate]

theorem lines_ofList {text : List (List Char)} (h : ∀ line ∈ text, '\n' ∉ line) :
    lines (String.ofList (text.flatMap (· ++ ['\n']))) = text := by
  have hsplit : (['\n'].intercalate (text ++ [[]])).splitOn '\n' = text ++ [[]] := by
    refine List.splitOn_intercalate _ (fun line hline => ?_) (by simp)
    rcases List.mem_append.1 hline with hline | hline
    · exact h line hline
    · rw [List.mem_singleton.1 hline]
      exact List.not_mem_nil
  rw [lines, String.toList_ofList, flatMap_append_singleton, hsplit, List.dropLast_concat]

end Preview

namespace Canvas

/-! ## Blocks -/

theorem unblock_block (upper lower : Bool) : Preview.unblock (block upper lower) = (upper, lower) := by
  cases upper <;> cases lower <;> decide

theorem block_ne_newline (upper lower : Bool) : block upper lower ≠ '\n' := by
  cases upper <;> cases lower <;> decide

theorem isDark_eq_any (c : Canvas) (col row : Nat) : c.isDark col row = (c.pixel? col row).any (· < 128) := by
  rw [isDark]
  cases c.pixel? col row <;> rfl

theorem isDark_of_pixel? {c : Canvas} {col row : Nat} {gray : UInt8} (h : c.pixel? col row = some gray) :
    c.isDark col row = decide (gray < 128) := by
  rw [isDark, h]

/-! ## Lines -/

section
variable (c : Canvas) {columns : Nat}

theorem length_previewLine (step i : Nat) : (c.previewLine step i).length = c.width ⌈/⌉ step := by
  rw [previewLine, List.length_map, List.length_range]
  rfl

theorem newline_notMem_previewLine (step i : Nat) : '\n' ∉ c.previewLine step i := by
  intro h
  obtain ⟨j, -, hj⟩ := List.mem_map.1 h
  exact block_ne_newline _ _ hj

theorem step_eq (hwidth : 1 ≤ c.width) (hcolumns : 1 ≤ columns) : c.step columns = c.width ⌈/⌉ columns := by
  refine max_eq_right (Nat.one_le_iff_ne_zero.2 fun hzero => ?_)
  have hle : c.width ≤ columns * 0 := (ceilDiv_le_iff_le_mul hcolumns).1 hzero.le
  omega

/-- The least step that makes lines short enough does. -/
theorem ceilDiv_step_le (hcolumns : 1 ≤ columns) : c.width ⌈/⌉ (c.step columns) ≤ columns := by
  have hstep : 0 < c.step columns := Nat.lt_of_lt_of_le Nat.zero_lt_one (le_max_left 1 _)
  have hle : c.width ⌈/⌉ columns ≤ c.step columns := le_max_right _ _
  rw [ceilDiv_le_iff_le_mul hstep, Nat.mul_comm]
  exact (ceilDiv_le_iff_le_mul hcolumns).1 hle

theorem step_eq_one (hwidth : 1 ≤ c.width) (hcolumns : c.width ≤ columns) : c.step columns = 1 := by
  refine max_eq_left ((ceilDiv_le_iff_le_mul (hwidth.trans hcolumns)).2 ?_)
  rwa [Nat.mul_one]

theorem preview_eq (hwidth : 1 ≤ c.width) (hheight : 1 ≤ c.height) (hcolumns : 1 ≤ columns) :
    c.preview columns = String.ofList (((List.range (c.height ⌈/⌉ (2 * c.step columns))).map
      (c.previewLine (c.step columns))).flatMap (· ++ ['\n'])) := by
  rw [preview, if_neg (by omega), Nat.mul_comm 2]
  rfl

theorem lines_preview (hwidth : 1 ≤ c.width) (hheight : 1 ≤ c.height) (hcolumns : 1 ≤ columns) :
    Preview.lines (c.preview columns) =
      (List.range (c.height ⌈/⌉ (2 * c.step columns))).map (c.previewLine (c.step columns)) := by
  rw [preview_eq c hwidth hheight hcolumns]
  refine Preview.lines_ofList fun line hline => ?_
  obtain ⟨i, -, rfl⟩ := List.mem_map.1 hline
  exact c.newline_notMem_previewLine _ i

theorem char?_preview (hwidth : 1 ≤ c.width) (hheight : 1 ≤ c.height) (hcolumns : 1 ≤ columns) {i j : Nat}
    (hi : i < c.height ⌈/⌉ (2 * c.step columns)) (hj : j < c.width ⌈/⌉ (c.step columns)) :
    Preview.char? (c.preview columns) i j = some (block (c.isDark (j * c.step columns) (2 * i * c.step columns))
      (c.isDark (j * c.step columns) ((2 * i + 1) * c.step columns))) := by
  have hlower : (2 * i + 1) * c.step columns = i * 2 * c.step columns + c.step columns := by
    rw [Nat.succ_mul, Nat.mul_comm 2]
  rw [Preview.char?, lines_preview c hwidth hheight hcolumns, List.getElem?_map, List.getElem?_range hi, hlower,
    Nat.mul_comm 2]
  change ((List.range _).map _)[j]? = _
  rw [List.getElem?_map]
  exact congrArg _ (List.getElem?_range hj)

/-- With a step of one, the lines of text hold all pixels. -/
theorem isDark_preview (hwidth : 1 ≤ c.width) (hcolumns : c.width ≤ columns) {col row : Nat} (hcol : col < c.width)
    (hrow : row < c.height) : Preview.isDark (c.preview columns) col row = c.isDark col row := by
  have hstep : c.step columns = 1 := c.step_eq_one hwidth hcolumns
  have hi : row / 2 < c.height ⌈/⌉ (2 * c.step columns) := by
    rw [hstep, Nat.ceilDiv_eq_add_pred_div]
    omega
  have hj : col < c.width ⌈/⌉ (c.step columns) := by rwa [hstep, ceilDiv_one]
  rw [Preview.isDark, c.char?_preview hwidth (by omega) (hwidth.trans hcolumns) hi hj, Option.map_some,
    Option.any_some, unblock_block, hstep, Nat.mul_one, Nat.mul_one, Nat.mul_one]
  dsimp only
  split
  · next heven => rw [Nat.mul_div_cancel' (Nat.dvd_of_mod_eq_zero heven)]
  · next hodd => rw [Nat.two_mul_div_two_add_one_of_odd (Nat.odd_iff.2 (Nat.mod_two_ne_zero.1 hodd))]

end

/-! ## Previews -/

/-- What a preview of a canvas with pixels is. The text is its lines, each with a line break. There are
`⌈height / (2 · step)⌉` lines, each of `⌈width / step⌉` characters and so not too long. The character at place
`j` of line `i` is the block for whether the pixels at column `j · step` and rows `2 · i · step` and
`(2 · i + 1) · step` are below 128; the first of them is on the raster, and the second is blank if it is not.
When lines may be as long as a row, the text shows which pixels are below 128. -/
theorem preview_shows (c : Canvas) (columns : Nat) (hwidth : 1 ≤ c.width) (hheight : 1 ≤ c.height)
    (hcolumns : 1 ≤ columns) :
    let step := c.width ⌈/⌉ columns
    let text := c.preview columns
    text.toList = (Preview.lines text).flatMap (· ++ ['\n']) ∧
      (Preview.lines text).length = c.height ⌈/⌉ (2 * step) ∧
      (∀ line ∈ Preview.lines text, line.length = c.width ⌈/⌉ step) ∧
      c.width ⌈/⌉ step ≤ columns ∧
      (∀ i < c.height ⌈/⌉ (2 * step), ∀ j < c.width ⌈/⌉ step, ∃ upper,
        c.pixel? (j * step) (2 * i * step) = some upper ∧
          Preview.char? text i j =
            some (block (upper < 128) ((c.pixel? (j * step) ((2 * i + 1) * step)).any (· < 128)))) ∧
      (c.width ≤ columns → ∀ col < c.width, ∀ row < c.height, ∃ gray,
        c.pixel? col row = some gray ∧ Preview.isDark text col row = decide (gray < 128)) := by
  intro step text
  have hstep : c.step columns = step := c.step_eq hwidth hcolumns
  have hlines := c.lines_preview hwidth hheight hcolumns
  rw [hstep] at hlines
  refine ⟨?_, ?_, fun line hline => ?_, ?_, fun i hi j hj => ?_, fun hle col hcol row hrow => ?_⟩
  · rw [hlines, ← hstep]
    exact (congrArg String.toList (c.preview_eq hwidth hheight hcolumns)).trans String.toList_ofList
  · rw [hlines, List.length_map, List.length_range]
  · rw [hlines] at hline
    obtain ⟨i, -, rfl⟩ := List.mem_map.1 hline
    exact c.length_previewLine step i
  · exact hstep ▸ c.ceilDiv_step_le hcolumns
  · rw [← hstep] at hi hj ⊢
    have hi' : i < ceilDiv c.height (c.step columns * 2) := Nat.mul_comm 2 (c.step columns) ▸ hi
    have hrow : 2 * i * c.step columns < c.height := by
      rw [Nat.mul_comm 2, Nat.mul_assoc, Nat.mul_comm 2]
      exact mul_lt_of_lt_ceilDiv hi'
    obtain ⟨_, hupper⟩ := c.pixel?_eq_some (mul_lt_of_lt_ceilDiv hj) hrow
    exact ⟨_, hupper, by rw [c.char?_preview hwidth hheight hcolumns hi hj, isDark_of_pixel? hupper,
      isDark_eq_any]⟩
  · obtain ⟨_, hgray⟩ := c.pixel?_eq_some hcol hrow
    exact ⟨_, hgray, (c.isDark_preview hwidth hle hcol hrow).trans (isDark_of_pixel? hgray)⟩

/-- Three rows with a black box at the bottom: two lines of text, the second of which has no lower samples. -/
theorem preview_shows_box :
    let c : Canvas := Surface.apply (blank 5 3) (.shape (.fillRect ⟨1, 0⟩ ⟨2, 1⟩))
    (Preview.lines (c.preview 5)).length = 2 ∧ Preview.char? (c.preview 5) 1 2 = some '▀' ∧
      Preview.isDark (c.preview 5) 2 1 = true ∧ Preview.isDark (c.preview 5) 2 0 = false := by
  intro c
  have hwidth : c.width = 5 := by decide +kernel
  have hheight : c.height = 3 := by decide +kernel
  have hink : c.pixel? 2 2 = some 0 ∧ c.pixel? 2 1 = some 0 ∧ c.pixel? 2 0 = some 255 := by decide +kernel
  have hstep : c.width ⌈/⌉ 5 = 1 := by
    rw [hwidth]
    decide
  obtain ⟨-, hlength, -, -, hchar, hdark⟩ := preview_shows c 5 (by omega) (by omega) (by decide)
  rw [hstep, hheight] at hlength hchar
  rw [hwidth, hheight] at hdark
  obtain ⟨upper, hupper, hblock⟩ := hchar 1 (by decide) 2 (by rw [hwidth]; decide)
  obtain ⟨dark, hdark₁, hshown₁⟩ := hdark (by decide) 2 (by decide) 1 (by decide)
  obtain ⟨light, hdark₀, hshown₀⟩ := hdark (by decide) 2 (by decide) 0 (by decide)
  cases hink.1.symm.trans hupper
  cases hink.2.1.symm.trans hdark₁
  cases hink.2.2.symm.trans hdark₀
  have hbelow : c.pixel? 2 3 = none := by rw [pixel?, if_neg (by omega)]
  refine ⟨hlength.trans (by decide), hblock.trans ?_, hshown₁, hshown₀⟩
  show some (block true ((c.pixel? 2 3).any (· < 128))) = some '▀'
  rw [hbelow]
  rfl

end Canvas

end Easel
