import Easel.Canvas.Framebuffer
import Easel.Proofs.Canvas.Painting
import Easel.Proofs.Number.Conversion
import Mathlib.Data.Option.NAry

/-!
# Writing with ink

A way of writing has certain indices (`Writes`): on every buffer of one size and with every ink, the pixels there become
the ink and the others stay what they are, unless the writing is refused on all of these buffers. One after another, ways
of writing have the indices of both (`Writes.bind`), and a loop has those of all its turns (`Writes.sweep`).

All loops of a framebuffer are made of this: which cell is written next is up to the shape, the pen and the sides, and
never to the pixels or the ink (`exists_writes_drawing`). If the buffer fits the sides (`Framebuffer.Fits`), no write is
refused.

`draw?_exact`: drawing a shape inks a set of pixels, whatever is on them.
-/

namespace Easel

open Number
open Canvas (fill fill? sweep write?)

/-! ## Ways of writing -/

/-- In every buffer of `n` pixels, a way of writing puts the ink of the framebuffer on the pixels with these indices, or
it is refused. -/
def Writes (n : ℕ) (write : Framebuffer → Array UInt8 → Option (Array UInt8)) : Option (Set ℕ) → Prop
  | none => ∀ g pixels, pixels.size = n → write g pixels = none
  | some s => ∀ g pixels, pixels.size = n → ∃ after, write g pixels = some after ∧ after.size = n ∧
      ∀ i < n, (i ∈ s → after[i]? = some g.ink) ∧ (i ∉ s → after[i]? = pixels[i]?)

namespace Writes

variable {n : ℕ} {a b : Framebuffer → Array UInt8 → Option (Array UInt8)} {s t : Option (Set ℕ)}

theorem skip : Writes n (fun _ => some) (some ∅) := fun _ pixels hsize =>
  ⟨pixels, rfl, hsize, fun _ _ => ⟨fun h => h.elim, fun _ => rfl⟩⟩

theorem write_of_lt {i : ℕ} (hi : i < n) : Writes n (fun g pixels => write? g.ink pixels i) (some {i}) := by
  rintro g pixels rfl
  refine ⟨pixels.set i g.ink hi, dif_pos hi, Array.size_set hi, fun j hj => ⟨?_, fun h => ?_⟩⟩
  · rintro rfl
    exact Array.getElem?_set_self hi
  · exact Array.getElem?_set_ne hi (Ne.symm h)

theorem write_of_le {i : ℕ} (hi : n ≤ i) : Writes n (fun g pixels => write? g.ink pixels i) none := by
  rintro g pixels rfl
  exact dif_neg (Nat.not_lt.2 hi)

theorem fill_of_fits {run : Run} (hrun : run.first ≤ run.last ∧ run.last < n) :
    Writes n (fun g pixels => fill? g.ink pixels run) (some {i | run.first ≤ i ∧ i ≤ run.last}) := by
  rintro g pixels rfl
  refine ⟨fill g.ink pixels run, if_pos hrun, Canvas.size_fillRun _ _ _ _, fun i hi => ?_⟩
  rw [fill, Canvas.getElem?_fillRun]
  simp only [Set.mem_ofPred_eq]
  refine ⟨fun h => ?_, fun h => if_neg (by omega)⟩
  rw [if_pos (by omega), Array.getElem?_eq_getElem hi, Option.map_some]

theorem fill_of_not_fits {run : Run} (hrun : ¬ (run.first ≤ run.last ∧ run.last < n)) :
    Writes n (fun g pixels => fill? g.ink pixels run) none := by
  rintro g pixels rfl
  exact if_neg hrun

/-- One after the other. -/
theorem bind (ha : Writes n a s) (hb : Writes n b t) :
    Writes n (fun g pixels => a g pixels >>= b g) (Option.map₂ (· ∪ ·) s t) := by
  cases s with
  | none =>
    intro g pixels hsize
    dsimp only
    rw [ha g pixels hsize]
    rfl
  | some s =>
    cases t with
    | none =>
      intro g pixels hsize
      obtain ⟨after, hafter, hsize', -⟩ := ha g pixels hsize
      dsimp only
      rw [hafter]
      exact hb g after hsize'
    | some t =>
      intro g pixels hsize
      obtain ⟨after, hafter, hsize', hpixels⟩ := ha g pixels hsize
      obtain ⟨after', hafter', hsize'', hpixels'⟩ := hb g after hsize'
      refine ⟨after', ?_, hsize'', fun i hi => ⟨fun hmem => ?_, fun hmem => ?_⟩⟩
      · dsimp only
        rw [hafter]
        exact hafter'
      · by_cases ht : i ∈ t
        · exact (hpixels' i hi).1 ht
        · rw [(hpixels' i hi).2 ht]
          exact (hpixels i hi).1 (hmem.resolve_right ht)
      · rw [(hpixels' i hi).2 fun ht => hmem (.inr ht), (hpixels i hi).2 fun hs => hmem (.inl hs)]

/-- Pixels and ink say what a way of writing that has these indices makes of them. -/
theorem congr {g g' : Framebuffer} {pixels : Array UInt8} (ha : Writes n a s) (hb : Writes n b s) (hink : g.ink = g'.ink)
    (hsize : pixels.size = n) : a g pixels = b g' pixels := by
  cases s with
  | none => rw [ha g pixels hsize, hb g' pixels hsize]
  | some s =>
    obtain ⟨after, hafter, hsize, hpixels⟩ := ha g pixels hsize
    obtain ⟨after', hafter', hsize', hpixels'⟩ := hb g' pixels ‹_›
    rw [hafter, hafter', Option.some_inj]
    refine Array.ext_getElem? fun i => ?_
    rcases Nat.lt_or_ge i n with hi | hi
    · by_cases hmem : i ∈ s
      · rw [(hpixels i hi).1 hmem, (hpixels' i hi).1 hmem, hink]
      · rw [(hpixels i hi).2 hmem, (hpixels' i hi).2 hmem]
    · rw [Array.getElem?_eq_none (hsize.trans_le hi), Array.getElem?_eq_none (hsize'.trans_le hi)]

end Writes

/-! ## Ways of writing that have indices -/

/-- A way of writing has indices, and is not refused if `safe` holds. -/
def IsInking (n : ℕ) (safe : Prop) (write : Framebuffer → Array UInt8 → Option (Array UInt8)) : Prop :=
  ∃ s, Writes n write s ∧ (safe → s.isSome)

namespace IsInking

variable {n : ℕ} {safe : Prop} {a b : Framebuffer → Array UInt8 → Option (Array UInt8)}

theorem skip : IsInking n safe fun _ => some := ⟨_, .skip, fun _ => rfl⟩

theorem write {i : ℕ} (h : safe → i < n) : IsInking n safe fun g pixels => write? g.ink pixels i := by
  rcases Nat.lt_or_ge i n with hi | hi
  · exact ⟨_, .write_of_lt hi, fun _ => rfl⟩
  · exact ⟨_, .write_of_le hi, fun hsafe => absurd (h hsafe) hi.not_gt⟩

theorem fill {run : Run} (h : safe → run.first ≤ run.last ∧ run.last < n) :
    IsInking n safe fun g pixels => fill? g.ink pixels run := by
  by_cases hrun : run.first ≤ run.last ∧ run.last < n
  · exact ⟨_, .fill_of_fits hrun, fun _ => rfl⟩
  · exact ⟨_, .fill_of_not_fits hrun, fun hsafe => absurd (h hsafe) hrun⟩

theorem bind (ha : IsInking n safe a) (hb : IsInking n safe b) :
    IsInking n safe fun g pixels => a g pixels >>= b g := by
  obtain ⟨s, hs, hsome⟩ := ha
  obtain ⟨t, ht, hsome'⟩ := hb
  refine ⟨_, hs.bind ht, fun hsafe => ?_⟩
  obtain ⟨s, rfl⟩ := Option.isSome_iff_exists.1 (hsome hsafe)
  obtain ⟨t, rfl⟩ := Option.isSome_iff_exists.1 (hsome' hsafe)
  rfl

/-- Done twice, it is done once. -/
theorem bind_self {g : Framebuffer} {pixels : Array UInt8} (ha : IsInking n safe a) (hsize : pixels.size = n) :
    (a g pixels >>= a g) = a g pixels := by
  obtain ⟨s, hs, -⟩ := ha
  have hunion : Option.map₂ (· ∪ ·) s s = s := by cases s <;> simp
  have htwice := hs.bind hs
  rw [hunion] at htwice
  exact htwice.congr hs rfl hsize

theorem sweep {w : ℕ → Framebuffer → Array UInt8 → Option (Array UInt8)} {i count : ℕ}
    (h : ∀ k, i ≤ k → k < i + count → IsInking n safe (w k)) :
    IsInking n safe fun g pixels => sweep (fun k => w k g) pixels i count := by
  induction count generalizing i with
  | zero => exact skip
  | succ m ih => exact (h i le_rfl (by omega)).bind (ih (i := i + 1) fun k hk hk' => h k (by omega) (by omega))

end IsInking

namespace Framebuffer

/-- The sides and the pen of `f` with the pixels and the ink of `g`. -/
def withPage (f g : Framebuffer) : Framebuffer := { f with pixels := g.pixels, ink := g.ink }

/-- A buffer of `n` pixels has one for each column and row. Their indices are words, and if there are any, the last
column and the last row are doubles. -/
structure Fits (f : Framebuffer) (n : ℕ) : Prop where
  size_eq : n = f.width.toNat * f.height.toNat
  size_lt : n < 2 ^ 64
  width_le : 0 < f.height.toNat → f.width.toNat ≤ 2 ^ 53
  height_le : 0 < f.width.toNat → f.height.toNat ≤ 2 ^ 53

theorem Fits.area_lt {f : Framebuffer} {n : ℕ} (h : f.Fits n) : f.width.toNat * f.height.toNat < 2 ^ 64 :=
  h.size_eq ▸ h.size_lt

/-! ## Indices -/

theorem toNat_ofNat_of_lt_toNat {n : ℕ} {w : UInt64} (h : n < w.toNat) : (UInt64.ofNat n).toNat = n :=
  UInt64.toNat_ofNat_of_lt' (h.trans w.toNat_lt)

/-- The index of a pixel does not wrap around. -/
theorem toNat_index {width height col row : UInt64} (hsize : width.toNat * height.toNat < 2 ^ 64) (hcol : col < width)
    (hrow : row < height) :
    (row * width + col).toNat = row.toNat * width.toNat + col.toNat ∧
      (row * width + col).toNat < width.toNat * height.toNat := by
  have hindex := Canvas.index_lt (UInt64.lt_iff_toNat_lt.1 hcol) (UInt64.lt_iff_toNat_lt.1 hrow)
  have heq : (row * width + col).toNat = row.toNat * width.toNat + col.toNat := by
    rw [UInt64.toNat_add, UInt64.toNat_mul, Nat.mod_add_mod, Nat.mod_eq_of_lt (hindex.trans hsize)]
  exact ⟨heq, heq ▸ hindex⟩

variable (f : Framebuffer) (n : ℕ)

/-! ## Pens -/

theorem isInking_put (col row : Int64) : IsInking n (f.Fits n) fun g => (f.withPage g).put col row := by
  by_cases hraster : 0 ≤ col ∧ 0 ≤ row ∧ col.toUInt64 < f.width ∧ row.toUInt64 < f.height
  · have hput : (fun g => (f.withPage g).put col row) = fun g pixels =>
        write? g.ink pixels (row.toUInt64 * f.width + col.toUInt64).toNat :=
      funext₂ fun g pixels => if_pos hraster
    rw [hput]
    refine .write fun hfits => ?_
    rw [hfits.size_eq]
    exact (toNat_index hfits.area_lt hraster.2.2.1 hraster.2.2.2).2
  · have hput : (fun g => (f.withPage g).put col row) = fun _ => some :=
      funext₂ fun g pixels => if_neg hraster
    rw [hput]
    exact .skip

theorem isInking_stamp (col row : Int64) : IsInking n (f.Fits n) fun g => (f.withPage g).stamp col row := by
  let before := (f.side - 1) / 2
  let count := f.side.toNatClampNeg
  have hstamp : (fun g => (f.withPage g).stamp col row) = fun g pixels =>
      sweep (fun dy pixels =>
        sweep (fun dx => (f.withPage g).put (col - before + Int64.ofNat dx) (row - before + Int64.ofNat dy))
          pixels 0 count) pixels 0 count := rfl
  rw [hstamp]
  exact .sweep (w := fun dy g pixels =>
    sweep (fun dx => (f.withPage g).put (col - before + Int64.ofNat dx) (row - before + Int64.ofNat dy))
      pixels 0 count) fun dy _ _ => .sweep fun dx _ _ => f.isInking_put n _ _

/-! ## Lines -/

theorem isInking_strokeFrom (r : Route) (m : Marker) (turns : ℕ) :
    IsInking n (f.Fits n) fun g pixels => (f.withPage g).strokeFrom r m pixels turns := by
  induction turns generalizing m with
  | zero => exact .skip
  | succ turns ih =>
    have hstamp := f.isInking_stamp n m.col m.row
    unfold strokeFrom
    cases r.next? m with
    | none => exact hstamp.bind .skip
    | some next => exact hstamp.bind (ih next)

theorem isInking_strokeLine (a b : Point) :
    IsInking n (f.Fits n) fun g => (f.withPage g).strokeLine a b := by
  have hvisible (g : Framebuffer) : (f.withPage g).visible? a b = f.visible? a b := rfl
  unfold strokeLine
  simp only [hvisible]
  cases f.visible? a b with
  | none => exact .skip
  | some v => exact f.isInking_strokeFrom n _ _ _

/-! ## Circles -/

theorem isInking_stampReflections (col row x y : Int64) :
    IsInking n (f.Fits n) fun g => (f.withPage g).stampReflections col row x y :=
  (f.isInking_stamp n _ _).bind <| (f.isInking_stamp n _ _).bind <| (f.isInking_stamp n _ _).bind <|
    (f.isInking_stamp n _ _).bind <| (f.isInking_stamp n _ _).bind <| (f.isInking_stamp n _ _).bind <|
      (f.isInking_stamp n _ _).bind <| f.isInking_stamp n _ _

theorem isInking_strokeOctant (col row x y p : Int64) (turns : ℕ) :
    IsInking n (f.Fits n) fun g pixels => (f.withPage g).strokeOctant col row x y p pixels turns := by
  induction turns generalizing x y p with
  | zero => exact .skip
  | succ turns ih =>
    unfold strokeOctant
    by_cases hxy : y < x
    · simp only [if_pos hxy]
      exact (f.isInking_stampReflections n _ _ _ _).bind (ih _ _ _)
    · simp only [if_neg hxy]
      exact .skip

theorem isInking_inkRing (center : Point) (radius : Float) :
    IsInking n (f.Fits n) fun g => (f.withPage g).inkRing center radius := by
  let pixel (row col : ℕ) (g : Framebuffer) (pixels : Array UInt8) :=
    let distance := measure (Float.ofNat col - center.x) (Float.ofNat row - center.y)
    if (distance - radius).abs ≤ Float.ofInt f.side.toInt / 2 then
      write? g.ink pixels (UInt64.ofNat row * f.width + UInt64.ofNat col).toNat
    else some pixels
  let line (row : ℕ) (g : Framebuffer) (pixels : Array UInt8) := sweep (pixel row · g) pixels 0 f.width.toNat
  have hring : (fun g => (f.withPage g).inkRing center radius) = fun g pixels =>
      sweep (line · g) pixels 0 f.height.toNat := rfl
  rw [hring]
  refine .sweep fun row _ hrow => .sweep fun col _ hcol => ?_
  have hcol' : UInt64.ofNat col < f.width :=
    UInt64.lt_iff_toNat_lt.2 ((toNat_ofNat_of_lt_toNat (w := f.width) (by omega)).trans_lt (by omega))
  have hrow' : UInt64.ofNat row < f.height :=
    UInt64.lt_iff_toNat_lt.2 ((toNat_ofNat_of_lt_toNat (w := f.height) (by omega)).trans_lt (by omega))
  dsimp only [pixel]
  split
  · refine .write fun hfits => ?_
    rw [hfits.size_eq]
    exact (toNat_index hfits.area_lt hcol' hrow').2
  · exact .skip

theorem isInking_strokeCircle (center : Point) (radius : Float) :
    IsInking n (f.Fits n) fun g => (f.withPage g).strokeCircle center radius := by
  have htouches (g : Framebuffer) (reach : Float) : (f.withPage g).touches center reach = f.touches center reach := rfl
  have hside (g : Framebuffer) : (f.withPage g).side = f.side := rfl
  have hwidth (g : Framebuffer) : (f.withPage g).width = f.width := rfl
  have hheight (g : Framebuffer) : (f.withPage g).height = f.height := rfl
  unfold strokeCircle
  simp only [htouches, hside, hwidth, hheight]
  split
  · exact .skip
  split
  · exact f.isInking_inkRing n center radius
  · exact (f.isInking_stampReflections n _ _ _ _).bind (f.isInking_strokeOctant n _ _ _ _ _ _)

/-! ## Fills -/

theorem toWord_of_not_lt_lastCol {f : Framebuffer} {x y : Float} (hwidth : f.width.toNat ≤ 2 ^ 53)
    (h : ¬ fmin y f.lastCol < fmax x 0) :
    (toWord (fmax x 0)).toNat ≤ (toWord (fmin y f.lastCol)).toNat ∧
      (toWord (fmin y f.lastCol)).toNat < f.width.toNat :=
  toWord_of_not_lt hwidth (hasValue_last hwidth) h

theorem toWord_of_not_lt_lastRow {f : Framebuffer} {x y : Float} (hheight : f.height.toNat ≤ 2 ^ 53)
    (h : ¬ fmin y f.lastRow < fmax x 0) :
    (toWord (fmax x 0)).toNat ≤ (toWord (fmin y f.lastRow)).toNat ∧
      (toWord (fmin y f.lastRow)).toNat < f.height.toNat :=
  toWord_of_not_lt hheight (hasValue_last hheight) h

theorem isInking_fillRow? (row : ℕ) (x y : Float) (hcols : ¬ fmin y f.lastCol < fmax x 0)
    (hrow : f.Fits n → 0 < f.width.toNat → row < f.height.toNat) :
    IsInking n (f.Fits n) fun g => (f.withPage g).fillRow? row (fmax x 0) (fmin y f.lastCol) := by
  let start := UInt64.ofNat row * f.width
  have hfill : (fun g => (f.withPage g).fillRow? row (fmax x 0) (fmin y f.lastCol)) = fun g pixels =>
      fill? g.ink pixels ⟨(start + toWord (fmax x 0)).toNat, (start + toWord (fmin y f.lastCol)).toNat⟩ := rfl
  rw [hfill]
  refine .fill fun hfits => ?_
  have hwidth : 0 < f.width.toNat := by
    by_contra hzero
    have hlast := (toWord_of_not_lt_lastCol (by omega) hcols).2
    omega
  have hlt := hrow hfits hwidth
  obtain ⟨horder, hlast⟩ := toWord_of_not_lt_lastCol (hfits.width_le (by omega)) hcols
  have hword : (UInt64.ofNat row).toNat = row := toNat_ofNat_of_lt_toNat hlt
  have hword' : UInt64.ofNat row < f.height := UInt64.lt_iff_toNat_lt.2 (hword.trans_lt hlt)
  -- Both ends are pixels of this row.
  have hleft := toNat_index hfits.area_lt (UInt64.lt_iff_toNat_lt.2 (horder.trans_lt hlast)) hword'
  have hright := toNat_index hfits.area_lt (UInt64.lt_iff_toNat_lt.2 hlast) hword'
  refine ⟨?_, hright.2.trans_eq hfits.size_eq.symm⟩
  rw [hleft.1, hright.1]
  exact Nat.add_le_add_left horder _

theorem isInking_fillRect (a b : Point) : IsInking n (f.Fits n) fun g => (f.withPage g).fillRect a b := by
  have hcol (g : Framebuffer) : (f.withPage g).lastCol = f.lastCol := rfl
  have hrow (g : Framebuffer) : (f.withPage g).lastRow = f.lastRow := rfl
  unfold fillRect
  simp only [hcol, hrow]
  split
  · exact .skip
  · next hempty =>
    rw [not_or] at hempty
    refine .sweep fun row hfirst hlast => f.isInking_fillRow? n row _ _ hempty.1 fun hfits hwidth => ?_
    have hrows := toWord_of_not_lt_lastRow (hfits.height_le hwidth) hempty.2
    omega

theorem isInking_fillCircle (center : Point) (radius : Float) :
    IsInking n (f.Fits n) fun g => (f.withPage g).fillCircle center radius := by
  have hcol (g : Framebuffer) : (f.withPage g).lastCol = f.lastCol := rfl
  have hrow (g : Framebuffer) : (f.withPage g).lastRow = f.lastRow := rfl
  unfold fillCircle
  simp only [hcol, hrow]
  split
  · exact .skip
  · next hrows =>
    refine .sweep fun row hfirst hlast => ?_
    cases Circle.halfChord? radius (Float.ofNat row - center.y).abs with
    | none => exact .skip
    | some span =>
      dsimp only
      split
      · exact .skip
      · next hcols =>
        refine f.isInking_fillRow? n row _ _ hcols fun hfits hwidth => ?_
        have hbounds := toWord_of_not_lt_lastRow (hfits.height_le hwidth) hrows
        omega

/-! ## Shapes -/

theorem isInking_drawing (s : Shape) : IsInking n (f.Fits n) fun g pixels => (f.withPage g).drawing pixels s := by
  have hraster (g : Framebuffer) : (f.withPage g).toRaster = f.toRaster := rfl
  unfold drawing
  simp only [hraster]
  cases s with
  | line p q =>
    dsimp only
    split
    · exact f.isInking_strokeLine n _ _
    · exact .skip
  | rect p q =>
    dsimp only
    split
    · exact (f.isInking_strokeLine n _ _).bind <| (f.isInking_strokeLine n _ _).bind <|
        (f.isInking_strokeLine n _ _).bind <| f.isInking_strokeLine n _ _
    · exact .skip
  | circle center radius =>
    dsimp only
    split
    · exact f.isInking_strokeCircle n _ _
    · exact .skip
  | fillRect p q =>
    dsimp only
    split
    · exact f.isInking_fillRect n _ _
    · exact .skip
  | fillCircle center radius =>
    dsimp only
    split
    · exact f.isInking_fillCircle n _ _
    · exact .skip

/-! ## Drawing -/

theorem exists_writes_drawing (s : Shape) :
    ∃ S, Writes n (fun g pixels => (f.withPage g).drawing pixels s) S ∧ (f.Fits n → S.isSome) :=
  f.isInking_drawing n s

/-- What is on a framebuffer already does not matter, except for what is written on. -/
theorem drawing_with_pixels (pixels : Array UInt8) (s : Shape) {before : Array UInt8} :
    ({ f with pixels := pixels } : Framebuffer).drawing before s = f.drawing before s := by
  obtain ⟨S, hS, -⟩ := f.exists_writes_drawing before.size s
  have hpage : ({ f with pixels := pixels } : Framebuffer).ink = f.ink := rfl
  exact hS.congr hS hpage rfl

theorem draw?_bind_draw? (s t : Shape) :
    (f.draw? s >>= fun g => g.draw? t) =
      (f.drawing f.pixels s >>= fun pixels => f.drawing pixels t).map fun pixels => { f with pixels := pixels } := by
  unfold draw?
  cases f.drawing f.pixels s with
  | none => rfl
  | some pixels =>
    simp only [Option.map_some, Option.bind_eq_bind, Option.bind_some]
    rw [drawing_with_pixels]

/-- A shape drawn twice is drawn once. -/
theorem draw?_bind_self (s : Shape) : (f.draw? s >>= fun g => g.draw? s) = f.draw? s := by
  have hself : (f.drawing f.pixels s >>= fun pixels => f.drawing pixels s) = f.drawing f.pixels s :=
    (f.isInking_drawing f.pixels.size s).bind_self (g := f) rfl
  rw [draw?_bind_draw?, hself]
  rfl

/-- Shapes are drawn in any order. -/
theorem draw?_bind_comm (s t : Shape) :
    (f.draw? s >>= fun g => g.draw? t) = f.draw? t >>= fun g => g.draw? s := by
  obtain ⟨S, hS, -⟩ := f.exists_writes_drawing f.pixels.size s
  obtain ⟨T, hT, -⟩ := f.exists_writes_drawing f.pixels.size t
  have hcomm : Option.map₂ (· ∪ ·) T S = Option.map₂ (· ∪ ·) S T := Option.map₂_comm Set.union_comm
  have hreverse := hT.bind hS
  rw [hcomm] at hreverse
  rw [draw?_bind_draw?, draw?_bind_draw?]
  exact congrArg _ ((hS.bind hT).congr hreverse (g := f) rfl rfl)

/-- Drawing a shape inks a set of pixels that is up to the sides, the size of the buffer, the pen and the shape, or it is
refused for all pixels and inks. It is not refused if the buffer is whole. So a shape drawn twice is drawn once, and
shapes are drawn in any order. -/
theorem draw?_exact (width height : UInt64) (size : Float) (n : ℕ) (s : Shape) :
    (∃ S : Option (Set ℕ), ∀ f : Framebuffer, f.width = width → f.height = height → f.penSize = size →
      f.pixels.size = n → (f.Fits n → S.isSome) ∧ match S with
        | none => f.draw? s = none
        | some S => ∃ pixels, f.draw? s = some { f with pixels := pixels } ∧ pixels.size = n ∧
            ∀ i < n, (i ∈ S → pixels[i]? = some f.ink) ∧ (i ∉ S → pixels[i]? = f.pixels[i]?)) ∧
    (∀ f : Framebuffer, (f.draw? s >>= fun g => g.draw? s) = f.draw? s) ∧
    ∀ (f : Framebuffer) (t : Shape),
      (f.draw? s >>= fun g => g.draw? t) = f.draw? t >>= fun g => g.draw? s := by
  refine ⟨?_, fun f => f.draw?_bind_self s, fun f t => f.draw?_bind_comm s t⟩
  obtain ⟨S, hS, hsafe⟩ := exists_writes_drawing ⟨width, height, #[], size, 0⟩ n s
  refine ⟨S, ?_⟩
  rintro f rfl rfl rfl hsize
  refine ⟨fun hfits => hsafe ⟨hfits.size_eq, hfits.size_lt, hfits.width_le, hfits.height_le⟩, ?_⟩
  have hdraw : f.draw? s = (f.drawing f.pixels s).map fun pixels => { f with pixels := pixels } := rfl
  cases S with
  | none =>
    have hnone : f.drawing f.pixels s = none := hS f f.pixels hsize
    rw [hdraw, hnone]
    rfl
  | some S =>
    obtain ⟨pixels, hpixels, hafter⟩ := hS f f.pixels hsize
    have hsome : f.drawing f.pixels s = some pixels := hpixels
    exact ⟨pixels, by rw [hdraw, hsome]; rfl, hafter⟩

/-- A diagonal on a square of four pixels. -/
theorem draw?_diagonal : (blank 2 2).Fits 4 ∧ ∃ pixels,
    (blank 2 2).draw? (.line ⟨0, 0⟩ ⟨1, 1⟩) = some { blank 2 2 with pixels := pixels } ∧ pixels = #[255, 0, 0, 255] := by
  have hfits : (blank 2 2).Fits 4 := by constructor <;> decide
  obtain ⟨⟨S, hS⟩, -⟩ := draw?_exact 2 2 1 4 (.line ⟨0, 0⟩ ⟨1, 1⟩)
  obtain ⟨hsafe, hdraw⟩ := hS (blank 2 2) rfl rfl rfl rfl
  obtain ⟨S, rfl⟩ := Option.isSome_iff_exists.1 (hsafe hfits)
  obtain ⟨pixels, hpixels, -⟩ := hdraw
  have hrun : ((blank 2 2).draw? (.line ⟨0, 0⟩ ⟨1, 1⟩)).map (·.pixels) = some #[255, 0, 0, 255] := by decide +kernel
  rw [hpixels, Option.map_some, Option.some_inj] at hrun
  exact ⟨hfits, pixels, hpixels, hrun⟩

end Framebuffer

end Easel
