import Umd.Lib.Runs
/-!
# Ink regions

`find_ink_regions` projects the dark pixels of an image on its rows, which gives the line
bands, and those of each band on its columns, which gives the strips. With `min_area` 1 the
boxes of the strips are disjoint and tight and hold every dark pixel, in reading order
(`ink_regions`).
-/

namespace Umd.Raster

open Umd.Lib

structure Box where
  x : Nat
  y : Nat
  w : Nat
  h : Nat
deriving DecidableEq

def Box.area (b : Box) : Nat := b.w * b.h

def Box.centerRowCol (b : Box) : Nat × Nat := (b.y + b.h / 2, b.x + b.w / 2)

structure Color where
  r : UInt8
  g : UInt8
  b : UInt8
deriving DecidableEq

structure Region where
  box : Box
  kind : String
  color : Option Color
  readingOrder : Nat
deriving DecidableEq

/-- `RasterImage`, as `decode_bounded` makes it, which refuses an image without pixels. -/
structure RasterImage where
  width : Nat
  height : Nat
  pixel : Nat → Nat → Color
  width_pos : 0 < width
  height_pos : 0 < height

/-- The rows of a mask. -/
abbrev Mask := List (List Bool)

/-- `mask[y][x]` -/
def Mask.at (mask : Mask) (y x : Nat) : Bool := (mask.getD y []).getD x false

/-- The mask of the pixels that a test holds of, row by row. -/
def maskOf (w h : Nat) (test : Nat → Nat → Bool) : Mask :=
  (List.range h).map fun y => (List.range w).map fun x => test x y

def darkThreshold : Nat := 128

/-- `range(r.1, r.2 + 1)` -/
def inclusive (r : Nat × Nat) : List Nat := List.range' r.1 (r.2 + 1 - r.1)

/-- The loop of `_runs` at index `i`. -/
def runsLoop (i : Nat) (start : Option Nat) : List Bool → List (Nat × Nat)
  | [] => match start with
    | some s => [(s, i - 1)]
    | none => []
  | v :: cols => match v, start with
    | true, none => runsLoop (i + 1) (some i) cols
    | false, some s => (s, i - 1) :: runsLoop (i + 1) none cols
    | _, _ => runsLoop (i + 1) start cols

/-- `_runs`. -/
def inclusiveRuns (cols : List Bool) : List (Nat × Nat) := runsLoop 0 none cols

section Ink

-- `luma` is the brightness that `convert("L")` gives a color.
variable (luma : Color → Nat)

/-- `_binarize`. -/
def binarize (image : RasterImage) : Mask :=
  maskOf image.width image.height fun x y => luma (image.pixel x y) < darkThreshold

/-- The columns of a band that have ink. -/
def colInk (mask : Mask) (w : Nat) (band : Nat × Nat) : List Bool :=
  (List.range w).map fun x => (inclusive band).any fun y => mask.at y x

/-- The rows of a band that have ink in a strip of columns. -/
def stripRows (mask : Mask) (band strip : Nat × Nat) : List Nat :=
  (inclusive band).filter fun y => (inclusive strip).any fun x => mask.at y x

/-- The box of a strip, unless it has no ink. -/
def inkBox (mask : Mask) (band strip : Nat × Nat) : Option Box :=
  match (stripRows mask band strip).min?, (stripRows mask band strip).max? with
  | some top, some bottom => some { x := strip.1, y := top, w := strip.2 - strip.1 + 1, h := bottom - top + 1 }
  | _, _ => none

/-- One strip, after the regions so far and with the next number. -/
def inkStrip (mask : Mask) (minArea : Int) (band : Nat × Nat) (found : List Region × Nat) (strip : Nat × Nat) :
    List Region × Nat :=
  match inkBox mask band strip with
  | none => found
  | some box =>
    if (box.area : Int) < minArea then found
    else (found.1 ++ [{ box := box, kind := "region", color := none, readingOrder := found.2 }], found.2 + 1)

/-- `find_ink_regions`. -/
def findInkRegions (image : RasterImage) (minArea : Int) : List Region :=
  let mask := binarize luma image
  let inkRow := mask.map fun row => row.any id
  ((inclusiveRuns inkRow).foldl (fun found band =>
    (inclusiveRuns (colInk mask image.width band)).foldl (inkStrip mask minArea band) found) ([], 1)).1

end Ink

/-! ## What a reader takes for the ink -/

/-- A dark pixel. -/
def Dark (luma : Color → Nat) (image : RasterImage) (x y : Nat) : Prop :=
  x < image.width ∧ y < image.height ∧ luma (image.pixel x y) < 128

def Box.Has (b : Box) (x y : Nat) : Prop := b.x ≤ x ∧ x < b.x + b.w ∧ b.y ≤ y ∧ y < b.y + b.h

/-- A maximal run of rows that have ink. -/
def LineBand (luma : Color → Nat) (image : RasterImage) (band : Nat × Nat) : Prop :=
  IsRun (fun y => ∃ x, Dark luma image x y) band

/-- A box in a line band, whose four border lines each have a dark pixel of the box. -/
structure TightIn (luma : Color → Nat) (image : RasterImage) (band : Nat × Nat) (b : Box) : Prop where
  above : band.1 ≤ b.y
  below : b.y + b.h ≤ band.2
  top : ∃ x, b.Has x b.y ∧ Dark luma image x b.y
  bottom : ∃ x, b.Has x (b.y + b.h - 1) ∧ Dark luma image x (b.y + b.h - 1)
  left : ∃ y, b.Has b.x y ∧ Dark luma image b.x y
  right : ∃ y, b.Has (b.x + b.w - 1) y ∧ Dark luma image (b.x + b.w - 1) y

/-- One box is before another: in a line band above, or to the left in one line band. -/
def Before (luma : Color → Nat) (image : RasterImage) (b b' : Box) : Prop :=
  ∃ band band', LineBand luma image band ∧ LineBand luma image band' ∧ TightIn luma image band b ∧
    TightIn luma image band' b' ∧ (band.2 ≤ band'.1 ∨ band = band' ∧ b.x + b.w ≤ b'.x)

/-- Regions in reading order that hold the ink. -/
structure HoldsInk (luma : Color → Nat) (image : RasterImage) (regions : List Region) : Prop where
  disjoint : regions.Pairwise fun r r' => ∀ x y, ¬ (r.box.Has x y ∧ r'.box.Has x y)
  covered : ∀ x y, Dark luma image x y → ∃ r ∈ regions, r.box.Has x y
  tight : ∀ r ∈ regions, ∃ band, LineBand luma image band ∧ TightIn luma image band r.box
  ordered : regions.Pairwise fun r r' => Before luma image r.box r'.box
  numbered : regions.map (·.readingOrder) = List.range' 1 regions.length

/-! ## Masks and runs -/

theorem mem_inclusive {r : Nat × Nat} {i : Nat} : i ∈ inclusive r ↔ r.1 ≤ i ∧ i ≤ r.2 := by
  unfold inclusive
  rw [List.mem_range'_1]
  omega

theorem maskOf_at {w h : Nat} {test : Nat → Nat → Bool} {x y : Nat} :
    (maskOf w h test).at y x = true ↔ x < w ∧ y < h ∧ test x y = true := by
  unfold Mask.at maskOf
  by_cases hy : y < h
  · by_cases hx : x < w
    · simp [List.getD_eq_getElem?_getD, hx, hy]
    · simp [List.getD_eq_getElem?_getD, hx, hy]
  · simp [List.getD_eq_getElem?_getD, hy]

/-- An index at which a projection is on. -/
theorem on_map_range {n : Nat} {f : Nat → Bool} {i : Nat} : On ((List.range n).map f) i ↔ i < n ∧ f i = true := by
  unfold On
  by_cases hi : i < n
  · simp [hi]
  · simp [hi]

theorem runsLoop_eq (i : Nat) (start : Option Nat) (cols : List Bool) :
    runsLoop i start cols = (runsFrom i start cols).map fun r => (r.1, r.2 - 1) := by
  induction cols generalizing i start with
  | nil => cases start <;> rfl
  | cons v cols ih => cases v <;> cases start <;> simp [runsLoop, runsFrom, ih]

/-- The code's runs end where the maximal runs do, with their last index. -/
theorem inclusiveRuns_eq (cols : List Bool) : inclusiveRuns cols = (runs cols).map fun r => (r.1, r.2 - 1) :=
  runsLoop_eq 0 none cols

/-! ## The ink of one strip -/

section Strip

variable {luma : Color → Nat} {image : RasterImage}

theorem binarize_at {x y : Nat} : (binarize luma image).at y x = true ↔ Dark luma image x y := by
  unfold binarize Dark
  rw [maskOf_at, decide_eq_true_eq]
  rfl

/-- The rows that have ink. -/
theorem on_inkRow {y : Nat} : On ((binarize luma image).map fun row => row.any id) y ↔ ∃ x, Dark luma image x y := by
  unfold binarize maskOf Dark
  rw [List.map_map, on_map_range]
  simp only [Function.comp, List.any_map, List.any_eq_true, List.mem_range, id, darkThreshold]
  constructor
  · rintro ⟨hy, x, hx, hdark⟩
    exact ⟨x, hx, hy, of_decide_eq_true hdark⟩
  · rintro ⟨x, hx, hy, hdark⟩
    exact ⟨hy, x, hx, decide_eq_true hdark⟩

theorem on_colInk {band : Nat × Nat} {x : Nat} : On (colInk (binarize luma image) image.width band) x ↔
    ∃ y, band.1 ≤ y ∧ y ≤ band.2 ∧ Dark luma image x y := by
  unfold colInk
  simp only [on_map_range, List.any_eq_true, mem_inclusive, binarize_at]
  constructor
  · rintro ⟨-, y, ⟨hlo, hhi⟩, hdark⟩
    exact ⟨y, hlo, hhi, hdark⟩
  · rintro ⟨y, hlo, hhi, hdark⟩
    exact ⟨hdark.1, y, ⟨hlo, hhi⟩, hdark⟩

theorem mem_stripRows {band strip : Nat × Nat} {y : Nat} : y ∈ stripRows (binarize luma image) band strip ↔
    (band.1 ≤ y ∧ y ≤ band.2) ∧ ∃ x, strip.1 ≤ x ∧ x ≤ strip.2 ∧ Dark luma image x y := by
  unfold stripRows
  simp only [List.mem_filter, mem_inclusive, List.any_eq_true, binarize_at]
  constructor
  · rintro ⟨hy, x, ⟨hlo, hhi⟩, hdark⟩
    exact ⟨hy, x, hlo, hhi, hdark⟩
  · rintro ⟨hy, x, hlo, hhi, hdark⟩
    exact ⟨hy, x, ⟨hlo, hhi⟩, hdark⟩

/-- The columns of a line band that have ink in it. -/
def InkColumn (luma : Color → Nat) (image : RasterImage) (band : Nat × Nat) (x : Nat) : Prop :=
  ∃ y, band.1 ≤ y ∧ y < band.2 ∧ Dark luma image x y

/-- The box of a strip is as wide as the strip, and from its first row with ink to its last. -/
theorem inkBox_spec {band strip : Nat × Nat} (hband : band.1 < band.2)
    (hstrip : IsRun (InkColumn luma image band) strip) :
    ∃ b, inkBox (binarize luma image) (band.1, band.2 - 1) (strip.1, strip.2 - 1) = some b ∧ TightIn luma image band b ∧
      b.x = strip.1 ∧ b.x + b.w = strip.2 ∧
      ∀ x y, strip.1 ≤ x → x < strip.2 → band.1 ≤ y → y < band.2 → Dark luma image x y → b.Has x y := by
  have hlt := hstrip.lt
  have hrows : ∀ y, y ∈ stripRows (binarize luma image) (band.1, band.2 - 1) (strip.1, strip.2 - 1) ↔
      (band.1 ≤ y ∧ y < band.2) ∧ ∃ x, strip.1 ≤ x ∧ x < strip.2 ∧ Dark luma image x y := fun y => by
    rw [mem_stripRows]
    refine and_congr (by dsimp only; omega) (exists_congr fun x => ?_)
    rw [← and_assoc, ← and_assoc]
    exact and_congr_left' (by dsimp only; omega)
  obtain ⟨y₀, hy₀, hy₁, hdark₀⟩ := hstrip.on strip.1 le_rfl hlt
  have hmem := (hrows y₀).2 ⟨⟨hy₀, hy₁⟩, strip.1, le_rfl, hlt, hdark₀⟩
  obtain ⟨top, htop⟩ := Option.isSome_iff_exists.1 (List.isSome_min?_of_mem hmem)
  obtain ⟨bottom, hbottom⟩ := Option.isSome_iff_exists.1 (List.isSome_max?_of_mem hmem)
  obtain ⟨htopMem, htopLe⟩ := List.min?_eq_some_iff.1 htop
  obtain ⟨hbottomMem, hbottomLe⟩ := List.max?_eq_some_iff.1 hbottom
  have hle : top ≤ bottom := htopLe bottom hbottomMem
  obtain ⟨⟨htop₁, htop₂⟩, xt, hxt, hxt', hdarkTop⟩ := (hrows top).1 htopMem
  obtain ⟨⟨hbottom₁, hbottom₂⟩, xb, hxb, hxb', hdarkBottom⟩ := (hrows bottom).1 hbottomMem
  -- what is dark in the strip is in one of its rows
  have hhas : ∀ x y, strip.1 ≤ x → x < strip.2 → band.1 ≤ y → y < band.2 → Dark luma image x y →
      Box.Has ⟨strip.1, top, strip.2 - 1 - strip.1 + 1, bottom - top + 1⟩ x y := by
    intro x y hx hx' hy hy' hdark
    have hrow := (hrows y).2 ⟨⟨hy, hy'⟩, x, hx, hx', hdark⟩
    have hlow := htopLe y hrow
    have hhigh := hbottomLe y hrow
    unfold Box.Has
    dsimp only
    omega
  refine ⟨⟨strip.1, top, strip.2 - 1 - strip.1 + 1, bottom - top + 1⟩, ?_, ⟨htop₁, ?_, ⟨xt, ?_, hdarkTop⟩, ⟨xb, ?_⟩, ?_, ?_⟩,
    rfl, ?_, hhas⟩
  · unfold inkBox
    rw [htop, hbottom]
  · dsimp only
    omega
  · exact hhas xt top hxt hxt' htop₁ htop₂ hdarkTop
  · have hlast : top + (bottom - top + 1) - 1 = bottom := by omega
    dsimp only
    rw [hlast]
    exact ⟨hhas xb bottom hxb hxb' hbottom₁ hbottom₂ hdarkBottom, hdarkBottom⟩
  · exact ⟨y₀, hhas strip.1 y₀ le_rfl hlt hy₀ hy₁ hdark₀, hdark₀⟩
  · obtain ⟨y, hy, hy', hdark⟩ := hstrip.on (strip.2 - 1) (by omega) (by omega)
    have hlast : strip.1 + (strip.2 - 1 - strip.1 + 1) - 1 = strip.2 - 1 := by omega
    dsimp only
    rw [hlast]
    exact ⟨y, hhas (strip.2 - 1) y (by omega) (by omega) hy hy' hdark, hdark⟩
  · dsimp only
    omega

end Strip

/-! ## The regions of an image -/

/-- Boxes in order, numbered. -/
def numbered (n : Nat) (boxes : List Box) : List Region :=
  (boxes.zipIdx n).map fun b => { box := b.1, kind := "region", color := none, readingOrder := b.2 }

theorem numbered_append (n : Nat) (boxes boxes' : List Box) :
    numbered n (boxes ++ boxes') = numbered n boxes ++ numbered (n + boxes.length) boxes' := by
  unfold numbered
  rw [List.zipIdx_append, List.map_append]

theorem numbered_boxes (n : Nat) (boxes : List Box) : (numbered n boxes).map (·.box) = boxes := by
  unfold numbered
  rw [List.map_map]
  exact List.zipIdx_map_fst n boxes

theorem numbered_orders (n : Nat) (boxes : List Box) : (numbered n boxes).map (·.readingOrder) = List.range' n boxes.length := by
  unfold numbered
  rw [List.map_map]
  exact List.zipIdx_map_snd n boxes

/-- The box of a strip, unless it is too small. -/
def keptBox (mask : Mask) (minArea : Int) (band strip : Nat × Nat) : Option Box :=
  (inkBox mask band strip).filter fun b => ¬ (b.area : Int) < minArea

/-- The strips of a band add their boxes, with the numbers that follow. -/
theorem foldl_strips (mask : Mask) (minArea : Int) (band : Nat × Nat) (strips : List (Nat × Nat)) (found : List Region × Nat) :
    strips.foldl (inkStrip mask minArea band) found =
      (found.1 ++ numbered found.2 (strips.filterMap (keptBox mask minArea band)),
        found.2 + (strips.filterMap (keptBox mask minArea band)).length) := by
  induction strips generalizing found with
  | nil => simp [numbered]
  | cons strip strips ih =>
    rw [List.foldl_cons, ih]
    unfold inkStrip
    cases hbox : inkBox mask band strip with
    | none =>
      rw [List.filterMap_cons_none (by simp [keptBox, hbox])]
    | some b =>
      dsimp only
      split
      · rename_i hsmall
        rw [List.filterMap_cons_none (by simp [keptBox, hbox, hsmall])]
      · rename_i hlarge
        rw [List.filterMap_cons_some (b := b) (by simpa [keptBox, hbox, Option.filter] using hlarge), List.append_assoc]
        refine Prod.ext ?_ ?_
        · rfl
        · rw [List.length_cons]
          dsimp only
          omega

/-- The boxes of all bands, in the order they are found. -/
def keptBoxes (mask : Mask) (minArea : Int) (w : Nat) (bands : List (Nat × Nat)) : List Box :=
  bands.flatMap fun band => (inclusiveRuns (colInk mask w band)).filterMap (keptBox mask minArea band)

theorem foldl_bands (mask : Mask) (minArea : Int) (w : Nat) (bands : List (Nat × Nat)) (found : List Region × Nat) :
    bands.foldl (fun found band => (inclusiveRuns (colInk mask w band)).foldl (inkStrip mask minArea band) found) found =
      (found.1 ++ numbered found.2 (keptBoxes mask minArea w bands), found.2 + (keptBoxes mask minArea w bands).length) := by
  induction bands generalizing found with
  | nil => simp [numbered, keptBoxes]
  | cons band bands ih =>
    rw [List.foldl_cons, foldl_strips, ih]
    unfold keptBoxes
    rw [List.flatMap_cons, numbered_append, List.length_append, List.append_assoc, Nat.add_assoc]

section Regions

variable {luma : Color → Nat} {image : RasterImage}

/-- A maximal run of a band's columns with ink. -/
def Strip (luma : Color → Nat) (image : RasterImage) (band strip : Nat × Nat) : Prop :=
  IsRun (InkColumn luma image band) strip

theorem mem_strips {band strip : Nat × Nat} (hband : band.1 < band.2) :
    strip ∈ runs (colInk (binarize luma image) image.width (band.1, band.2 - 1)) ↔ Strip luma image band strip := by
  have hon : On (colInk (binarize luma image) image.width (band.1, band.2 - 1)) = InkColumn luma image band := by
    funext x
    refine propext (on_colInk.trans (exists_congr fun y => and_congr_right fun _ => and_congr_left' ?_))
    dsimp only
    omega
  rw [mem_runs_iff, hon, Strip]

theorem mem_bands {band : Nat × Nat} :
    band ∈ runs ((binarize luma image).map fun row => row.any id) ↔ LineBand luma image band := by
  have hon : On ((binarize luma image).map fun row => row.any id) = fun y => ∃ x, Dark luma image x y :=
    funext fun y => propext on_inkRow
  rw [mem_runs_iff, hon, LineBand]

theorem Box.Has.nonempty {b : Box} {x y : Nat} (h : b.Has x y) : 0 < b.w ∧ 0 < b.h := by
  unfold Box.Has at h
  omega

/-- What a strip gives, whose box has at least one pixel. -/
theorem keptBox_one {band strip : Nat × Nat} (hband : band.1 < band.2) (hstrip : Strip luma image band strip) :
    ∃ b, keptBox (binarize luma image) 1 (band.1, band.2 - 1) (strip.1, strip.2 - 1) = some b ∧ TightIn luma image band b ∧
      b.x = strip.1 ∧ b.x + b.w = strip.2 ∧
      ∀ x y, strip.1 ≤ x → x < strip.2 → band.1 ≤ y → y < band.2 → Dark luma image x y → b.Has x y := by
  obtain ⟨b, hbox, htight, hspec⟩ := inkBox_spec hband hstrip
  obtain ⟨x, hx, -⟩ := htight.top
  have harea : 0 < b.area := Nat.mul_pos hx.nonempty.1 hx.nonempty.2
  have hlarge : ¬ (b.area : Int) < 1 := by omega
  exact ⟨b, by simpa [keptBox, hbox, Option.filter] using hlarge, htight, hspec⟩

/-- The boxes that `find_ink_regions` numbers. -/
theorem findInkRegions_eq (minArea : Int) : findInkRegions luma image minArea =
    numbered 1 (keptBoxes (binarize luma image) minArea image.width
      (inclusiveRuns ((binarize luma image).map fun row => row.any id))) := by
  unfold findInkRegions
  dsimp only
  rw [foldl_bands, List.nil_append]

/-- A box that is kept comes from a strip of a line band. -/
theorem mem_keptBoxes {b : Box} : b ∈ keptBoxes (binarize luma image) 1 image.width
      (inclusiveRuns ((binarize luma image).map fun row => row.any id)) ↔
    ∃ band strip, LineBand luma image band ∧ Strip luma image band strip ∧
      keptBox (binarize luma image) 1 (band.1, band.2 - 1) (strip.1, strip.2 - 1) = some b := by
  unfold keptBoxes
  simp only [inclusiveRuns_eq, List.flatMap_map, List.filterMap_map, List.mem_flatMap, List.mem_filterMap, mem_bands]
  constructor
  · rintro ⟨band, hband, strip, hstrip, hb⟩
    exact ⟨band, strip, hband, (mem_strips hband.lt).1 hstrip, hb⟩
  · rintro ⟨band, strip, hband, hstrip, hb⟩
    exact ⟨band, hband, strip, (mem_strips hband.lt).2 hstrip, hb⟩

/-- Bands come from top to bottom, and the strips of each from left to right. -/
theorem keptBoxes_before : (keptBoxes (binarize luma image) 1 image.width
    (inclusiveRuns ((binarize luma image).map fun row => row.any id))).Pairwise (Before luma image) := by
  unfold keptBoxes
  rw [inclusiveRuns_eq, List.flatMap_map, List.pairwise_flatMap]
  constructor
  · intro band hband
    have hband := mem_bands.1 hband
    rw [inclusiveRuns_eq, List.filterMap_map, List.pairwise_filterMap]
    refine List.Pairwise.imp_of_mem (fun {strip strip'} hs hs' hlt b hb b' hb' => ?_) runs_apart
    obtain ⟨c, hc, htight, -, hright, -⟩ := keptBox_one hband.lt ((mem_strips hband.lt).1 hs)
    obtain ⟨c', hc', htight', hleft, -, -⟩ := keptBox_one hband.lt ((mem_strips hband.lt).1 hs')
    obtain rfl : c = b := Option.some.inj (hc.symm.trans hb)
    obtain rfl : c' = b' := Option.some.inj (hc'.symm.trans hb')
    exact ⟨band, band, hband, hband, htight, htight', .inr ⟨rfl, by omega⟩⟩
  · refine List.Pairwise.imp_of_mem (fun {band band'} hm hm' hlt b hb b' hb' => ?_) runs_apart
    have hband := mem_bands.1 hm
    have hband' := mem_bands.1 hm'
    simp only [inclusiveRuns_eq, List.filterMap_map, List.mem_filterMap] at hb hb'
    obtain ⟨strip, hs, hb⟩ := hb
    obtain ⟨strip', hs', hb'⟩ := hb'
    obtain ⟨c, hc, htight, -⟩ := keptBox_one hband.lt ((mem_strips hband.lt).1 hs)
    obtain ⟨c', hc', htight', -⟩ := keptBox_one hband'.lt ((mem_strips hband'.lt).1 hs')
    obtain rfl : c = b := Option.some.inj (hc.symm.trans hb)
    obtain rfl : c' = b' := Option.some.inj (hc'.symm.trans hb')
    exact ⟨band, band', hband, hband', htight, htight', .inl (by omega)⟩

/-- Boxes one before the other have no pixel in common. -/
theorem Before.disjoint {b b' : Box} (h : Before luma image b b') (x y : Nat) : ¬ (b.Has x y ∧ b'.Has x y) := by
  obtain ⟨band, band', -, -, htight, htight', hlt⟩ := h
  have hbelow := htight.below
  have habove := htight'.above
  unfold Box.Has
  rcases hlt with hlt | ⟨-, hlt⟩ <;> omega

variable (luma image)

/-- **The boxes of `find_ink_regions` with `min_area` 1 hold the ink.** -/
theorem ink_regions : HoldsInk luma image (findInkRegions luma image 1) := by
  rw [findInkRegions_eq]
  generalize hboxes : keptBoxes (binarize luma image) 1 image.width
    (inclusiveRuns ((binarize luma image).map fun row => row.any id)) = boxes
  have hordered : boxes.Pairwise (Before luma image) := hboxes ▸ keptBoxes_before
  have hregions : (numbered 1 boxes).Pairwise fun r r' => Before luma image r.box r'.box := by
    rw [← List.pairwise_map (f := fun r : Region => r.box), numbered_boxes]
    exact hordered
  have hmem : ∀ r ∈ numbered 1 boxes, r.box ∈ boxes := fun r hr => by
    have := List.mem_map_of_mem (f := fun r : Region => r.box) hr
    rwa [numbered_boxes] at this
  exact {
    disjoint := hregions.imp fun h => h.disjoint
    covered := fun x y hdark => by
      obtain ⟨band, hband, hy, hy'⟩ := @run_of_on ((binarize luma image).map fun row => row.any id) _
        (on_inkRow.2 ⟨x, hdark⟩)
      have hband := mem_bands.1 ((mem_runs_iff band).2 hband)
      obtain ⟨strip, hstrip, hx, hx'⟩ := @run_of_on (colInk (binarize luma image) image.width (band.1, band.2 - 1)) _
        (on_colInk.2 ⟨y, hy, by dsimp only; omega, hdark⟩)
      have hstrip := (mem_strips hband.lt).1 ((mem_runs_iff strip).2 hstrip)
      obtain ⟨b, hb, -, -, -, hhas⟩ := keptBox_one hband.lt hstrip
      have hin : b ∈ (numbered 1 boxes).map (·.box) := by
        rw [numbered_boxes, ← hboxes]
        exact mem_keptBoxes.2 ⟨band, strip, hband, hstrip, hb⟩
      obtain ⟨r, hr, rfl⟩ := List.mem_map.1 hin
      exact ⟨r, hr, hhas x y hx hx' hy hy' hdark⟩
    tight := fun r hr => by
      have hin := hmem r hr
      rw [← hboxes] at hin
      obtain ⟨band, strip, hband, hstrip, hb⟩ := mem_keptBoxes.1 hin
      obtain ⟨c, hc, htight, -⟩ := keptBox_one hband.lt hstrip
      obtain rfl : c = r.box := Option.some.inj (hc.symm.trans hb)
      exact ⟨band, hband, htight⟩
    ordered := hregions
    numbered := by
      rw [numbered_orders]
      congr 1
      exact (congrArg List.length (numbered_boxes 1 boxes)).symm.trans (List.length_map ..) }

end Regions

end Umd.Raster
