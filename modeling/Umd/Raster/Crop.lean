import Umd.Domain.IiifRegion
import Umd.Lib.Orders
import Umd.Lib.Python
import Umd.Raster.Regions
/-!
# Crops

`crop_bounded` on the regions that `IIIFSelector` accepts. The selector lets a fraction
stand behind a comma, which the crop splits at, and the crop rounds the origin and the
extent of a percentage apart: it keeps its bounds with no other error, and gives the
percentages that fit, for the regions of `crop_iff`.
-/

namespace Umd.Raster

open Umd.Lib Umd.Lib.Pattern Umd.Locators Umd.Projections

/-- What `crop_bounded` raises: a `CropOutOfBoundsError`, or an error of Python. -/
inductive CropError where
  | outOfBounds
  | python (e : PyError)
deriving DecidableEq

/-- The box of a crop, as it is handed to Pillow. -/
structure Crop where
  left : Int
  upper : Int
  right : Int
  lower : Int
deriving DecidableEq

section

variable (t : Tables)

/-- `strip()` -/
def trim (cs : List Char) : List Char := ((cs.dropWhile isSpace).reverse.dropWhile isSpace).reverse

/-- `int` of a text without sign or underscore. -/
def pyInt (cs : List Char) : Except PyError Int :=
  if full (digits t) (trim cs) then .ok (digitsValue t (trim cs)) else .error .valueError

/-- `float` of a text without sign, underscore or exponent. -/
def pyFloat (cs : List Char) : Except PyError ℚ :=
  match splitFirst ['.'] (trim cs) with
  | some (ds, fs) =>
    if full (digits t) ds && full (digits t) fs then .ok (digitsValue t ds + digitsValue t fs / 10 ^ fs.length)
    else .error .valueError
  | none => if full (digits t) (trim cs) then .ok (digitsValue t (trim cs)) else .error .valueError

/-- `_pct_to_box`. -/
def pctToBox (xr yr wr hr : ℚ) (width height : Nat) : Except CropError (Int × Int × Int × Int) :=
  if wr ≤ 0 || hr ≤ 0 then .error .outOfBounds
  else .ok (pyRound (xr / 100 * width), pyRound (yr / 100 * height), pyRound (wr / 100 * width), pyRound (hr / 100 * height))

/-- `region.lower().startswith("pct:")`: no other character has a lower case that begins with one of these four. -/
def isPct (region : List Char) : Bool := (region.take 4).map Char.toLower = "pct:".toList

/-- `a, b, c, d = values` -/
def unpack {α : Type} : Except PyError (List α) → Except CropError (α × α × α × α)
  | .ok [a, b, c, d] => .ok (a, b, c, d)
  | .ok _ => .error (.python .valueError)
  | .error e => .error (.python e)

/-- The box that a region stands for. -/
def regionBox (region : List Char) (width height : Nat) : Except CropError (Int × Int × Int × Int) :=
  if isPct region then do
    let (xr, yr, wr, hr) ← unpack (((region.drop 4).splitOn ',').mapM (pyFloat t))
    pctToBox xr yr wr hr width height
  else unpack ((region.splitOn ',').mapM (pyInt t))

/-- The check of the bounds, and the crop. -/
def cropBox (width height : Nat) (box : Int × Int × Int × Int) : Except CropError Crop :=
  let (x, y, w, h) := box
  if x < 0 || y < 0 || w ≤ 0 || h ≤ 0 || x + w > width || y + h > height then .error .outOfBounds
  else .ok ⟨x, y, x + w, y + h⟩

/-- `crop_bounded`. -/
def cropBounded (image : RasterImage) (selector : Selector) : Except CropError Crop :=
  match selector with
  | .iiif region => do cropBox image.width image.height (← regionBox t region.toList image.width image.height)
  | _ => .error .outOfBounds

/-! ## What a region says -/

/-- A number with a point before the fraction, and its value. -/
inductive PointText : List Char → ℚ → Prop where
  | whole {ds : List Char} (h : DigitText t ds) : PointText ds (digitsValue t ds)
  | fraction {ds fs : List Char} (h : DigitText t ds) (h' : DigitText t fs) :
    PointText (ds ++ '.' :: fs) (digitsValue t ds + digitsValue t fs / 10 ^ fs.length)

/-- A percentage region and its four percentages. -/
def PctRegion (region : List Char) (x y w h : ℚ) : Prop :=
  ∃ a b c d nl, PointText t a x ∧ PointText t b y ∧ PointText t c w ∧ PointText t d h ∧ LastLine nl ∧
    region = "pct:".toList ++ (a ++ ',' :: (b ++ ',' :: (c ++ ',' :: (d ++ nl))))

/-- A percentage region within the image that covers a pixel in each axis. -/
structure PctInside (image : RasterImage) (region : List Char) (x y w h : ℚ) : Prop where
  reads : PctRegion t region x y w h
  right : x + w ≤ 100
  below : y + h ≤ 100
  wide : 1 ≤ pyRound (w / 100 * image.width)
  high : 1 ≤ pyRound (h / 100 * image.height)

/-- A crop inside the image, or the error for one that is not; and the crop of a percentage region within the image. -/
structure CropsInside (image : RasterImage) (region : String) : Prop where
  inside : ∀ crop, cropBounded t image (.iiif region) = .ok crop →
    0 ≤ crop.left ∧ crop.left < crop.right ∧ crop.right ≤ image.width ∧
      0 ≤ crop.upper ∧ crop.upper < crop.lower ∧ crop.lower ≤ image.height
  raises : ∀ e, cropBounded t image (.iiif region) = .error e → e = .outOfBounds
  succeeds : ∀ x y w h, PctInside t image region.toList x y w h → ∃ crop, cropBounded t image (.iiif region) = .ok crop

/-- The regions with no comma before a fraction, whose percentages, if they lie within the image, still do when they are rounded. -/
structure Croppable (image : RasterImage) (region : String) : Prop where
  commas : region.toList.count ',' = 3
  fits : ∀ x y w h, PctInside t image region.toList x y w h →
    pyRound (x / 100 * image.width) + pyRound (w / 100 * image.width) ≤ image.width ∧
      pyRound (y / 100 * image.height) + pyRound (h / 100 * image.height) ≤ image.height

end

/-! ## Numbers -/

variable {t : Tables}

theorem full_digits_iff {cs : List Char} : full (digits t) cs = true ↔ DigitText t cs := by
  unfold full
  rw [List.any_eq_true]
  constructor
  · rintro ⟨rest, hrest, hempty⟩
    obtain ⟨ds, hds, rfl⟩ := mem_digits_iff.1 hrest
    rwa [List.isEmpty_iff.1 hempty, List.append_nil]
  · exact fun h => ⟨[], mem_digits_iff.2 ⟨cs, h, (List.append_nil cs).symm⟩, rfl⟩

theorem pointText_nonneg {cs : List Char} {x : ℚ} (h : PointText t cs x) : 0 ≤ x := by
  cases h <;> positivity

theorem letter_plain {c : Char} (h : c.isAlpha = true) : c.toNat < 128 ∧ c.isDigit = false := by
  simp only [Char.isAlpha, Char.isUpper, Char.isLower, Char.isDigit, UInt32.le_iff_toNat_le, Bool.or_eq_true, Bool.and_eq_true,
    decide_eq_true_eq, Bool.and_eq_false_iff, decide_eq_false_iff_not, ge_iff_le] at h ⊢
  simp only [Char.toNat]
  have hA : 'A'.val.toNat = 65 := rfl
  have hZ : 'Z'.val.toNat = 90 := rfl
  have ha : 'a'.val.toNat = 97 := rfl
  have hz : 'z'.val.toNat = 122 := rfl
  have h0 : '0'.val.toNat = 48 := rfl
  have h9 : '9'.val.toNat = 57 := rfl
  omega

/-- A percentage is a number with a point, or has a comma. -/
theorem percentText_cases {cs : List Char} (h : PercentText t cs) : (∃ x, PointText t cs x) ∨ 1 ≤ cs.count ',' := by
  cases h with
  | whole h => exact .inl ⟨_, .whole h⟩
  | fraction mark hmark h h' =>
    rcases hmark with rfl | rfl
    · exact .inl ⟨_, .fraction h h'⟩
    · refine .inr ?_
      rw [List.count_append, List.count_cons_self]
      omega

theorem splitOn_length (a : Char) (cs : List Char) : (cs.splitOn a).length = cs.count a + 1 := by
  induction cs with
  | nil => rfl
  | cons c cs ih =>
    rw [List.splitOn_cons_eq_if_modifyHead, List.count_cons]
    split
    · simp_all
    · simp_all

/-- Four parts without commas. -/
theorem splitOn_four {a b c d : List Char} (ha : ',' ∉ a) (hb : ',' ∉ b) (hc : ',' ∉ c) (hd : ',' ∉ d) :
    (a ++ ',' :: (b ++ ',' :: (c ++ ',' :: d))).splitOn ',' = [a, b, c, d] := by
  have hall : ∀ part ∈ [a, b, c, d], ',' ∉ part := by simp [ha, hb, hc, hd]
  have := List.splitOn_intercalate ',' hall (List.cons_ne_nil _ _)
  simpa [List.intercalate_cons_cons] using this

theorem lastLine_comma {nl : List Char} (h : LastLine nl) : ',' ∉ nl := by
  rcases h with rfl | rfl <;> decide

section

variable (ht : DigitTable t)

include ht

theorem decimal_not_space {c : Char} (hc : isDecimal t c = true) : isSpace c = false := by
  by_contra hs
  rw [isDecimal, ht.space c (by simpa using hs)] at hc
  cases hc

/-- A text that begins and ends with a digit, and a newline that may follow, is stripped to the text. -/
theorem trim_digits {cs nl : List Char} (hfirst : ∀ c, cs.head? = some c → isDecimal t c = true)
    (hlast : ∀ c, cs.getLast? = some c → isDecimal t c = true) (hne : cs ≠ []) (hnl : LastLine nl) : trim (cs ++ nl) = cs := by
  obtain ⟨c, cs', rfl⟩ := List.exists_cons_of_ne_nil hne
  have hc := decimal_not_space ht (hfirst c rfl)
  have hrev : ((c :: cs').reverse.dropWhile isSpace) = (c :: cs').reverse := by
    obtain ⟨d, ds, hd⟩ := List.exists_cons_of_ne_nil (l := (c :: cs').reverse) (by simp)
    have hd' : isSpace d = false := decimal_not_space ht (hlast d (by
      rw [← List.head?_reverse, hd]
      rfl))
    rw [hd, List.dropWhile_cons_of_neg (by simp [hd'])]
  unfold trim
  rw [List.cons_append, List.dropWhile_cons_of_neg (by simp [hc]), ← List.cons_append, List.reverse_append]
  rcases hnl with rfl | rfl
  · rw [List.reverse_nil, List.nil_append, hrev, List.reverse_reverse]
  · rw [List.reverse_singleton, List.singleton_append, List.dropWhile_cons_of_pos (by decide), hrev, List.reverse_reverse]

theorem pyInt_digits {ds nl : List Char} (h : DigitText t ds) (hnl : LastLine nl) : pyInt t (ds ++ nl) = .ok (digitsValue t ds) := by
  have htrim : trim (ds ++ nl) = ds := trim_digits ht (fun c hc => h.2 c (List.mem_of_head? hc))
    (fun c hc => h.2 c (List.mem_of_getLast? hc)) h.1 hnl
  unfold pyInt
  rw [htrim, if_pos (full_digits_iff.2 h)]

theorem pyFloat_point {cs nl : List Char} {x : ℚ} (h : PointText t cs x) (hnl : LastLine nl) : pyFloat t (cs ++ nl) = .ok x := by
  have hpoint : ∀ {ds}, DigitText t ds → '.' ∉ ds := fun hds => hds.not_mem (ht.mark (by decide) (by decide))
  unfold pyFloat
  cases h with
  | whole h =>
    rw [trim_digits ht (fun c hc => h.2 c (List.mem_of_head? hc)) (fun c hc => h.2 c (List.mem_of_getLast? hc)) h.1 hnl,
      splitFirst_none fun hi => hpoint h (hi.subset (List.mem_singleton_self _))]
    exact if_pos (full_digits_iff.2 h)
  | @fraction ds fs h h' =>
    have hsplit : splitFirst ['.'] (ds ++ '.' :: fs) = some (ds, fs) := by
      have := @splitFirst_append _ _ '.' [] ds fs List.not_mem_nil fun hi => hpoint h (hi.subset (List.mem_singleton_self _))
      simpa using this
    rw [trim_digits ht (fun c hc => ?_) (fun c hc => ?_) (by simp) hnl, hsplit]
    · dsimp only
      rw [full_digits_iff.2 h, full_digits_iff.2 h']
      rfl
    · obtain ⟨d, ds, rfl⟩ := List.exists_cons_of_ne_nil h.1
      exact h.2 c (by simpa using Or.inl (Option.some.inj hc).symm)
    · rw [List.getLast?_append, List.getLast?_cons] at hc
      obtain ⟨f, fs, rfl⟩ := List.exists_cons_of_ne_nil h'.1
      refine h'.2 c (List.mem_of_getLast? ?_)
      rw [List.getLast?_cons] at hc ⊢
      simpa using hc

/-- No number has a comma. -/
theorem pointText_comma {cs : List Char} {x : ℚ} (h : PointText t cs x) : ',' ∉ cs := by
  have hcomma : ∀ {ds}, DigitText t ds → ',' ∉ ds := fun hds => hds.not_mem (ht.mark (by decide) (by decide))
  cases h with
  | whole h => exact hcomma h
  | fraction h h' => simp [hcomma h, hcomma h']

/-! ## Regions -/

/-- The percentages of a region are read where it is split. -/
theorem pct_parts {region : List Char} {x y w h : ℚ} (hregion : PctRegion t region x y w h) :
    isPct region = true ∧ ((region.drop 4).splitOn ',').mapM (pyFloat t) = .ok [x, y, w, h] ∧
      (0 ≤ x ∧ 0 ≤ y ∧ 0 ≤ w ∧ 0 ≤ h) := by
  obtain ⟨a, b, c, d, nl, ha, hb, hc, hd, hnl, rfl⟩ := hregion
  have hcomma := lastLine_comma hnl
  have hdrop : ("pct:".toList ++ (a ++ ',' :: (b ++ ',' :: (c ++ ',' :: (d ++ nl))))).drop 4 =
      a ++ ',' :: (b ++ ',' :: (c ++ ',' :: (d ++ nl))) := rfl
  refine ⟨rfl, ?_, pointText_nonneg ha, pointText_nonneg hb, pointText_nonneg hc, pointText_nonneg hd⟩
  rw [hdrop, splitOn_four (pointText_comma ht ha) (pointText_comma ht hb) (pointText_comma ht hc)
    (by simp [pointText_comma ht hd, hcomma])]
  have hread : ∀ {cs : List Char} {q : ℚ}, PointText t cs q → pyFloat t cs = .ok q := fun hq => by
    have := pyFloat_point ht hq (.inl rfl : LastLine [])
    rwa [List.append_nil] at this
  exact mapM_cons_ok.2 ⟨_, _, hread ha, mapM_cons_ok.2 ⟨_, _, hread hb, mapM_cons_ok.2 ⟨_, _, hread hc,
    mapM_cons_ok.2 ⟨_, _, pyFloat_point ht hd hnl, rfl, rfl⟩, rfl⟩, rfl⟩, rfl⟩

/-- The box of a percentage region. -/
theorem regionBox_pct {region : List Char} {x y w h : ℚ} (hregion : PctRegion t region x y w h) (width height : Nat) :
    regionBox t region width height = pctToBox x y w h width height := by
  obtain ⟨hpct, hparts, -⟩ := pct_parts ht hregion
  unfold regionBox
  rw [if_pos hpct, hparts]
  rfl

/-- A region has one reading. -/
theorem PctRegion.unique {region : List Char} {x y w h x' y' w' h' : ℚ} (hregion : PctRegion t region x y w h)
    (hregion' : PctRegion t region x' y' w' h') : x = x' ∧ y = y' ∧ w = w' ∧ h = h' := by
  have hparts := (pct_parts ht hregion).2.1
  rw [(pct_parts ht hregion').2.1] at hparts
  simp only [Except.ok.injEq, List.cons.injEq, and_true] at hparts
  exact ⟨hparts.1.symm, hparts.2.1.symm, hparts.2.2.1.symm, hparts.2.2.2.symm⟩

/-- Numbers of pixels are split at the three commas, and read. -/
theorem regionBox_xywh {region : List Char} (h : iiifXywh t region = true) (width height : Nat) :
    isPct region = false ∧ region.count ',' = 3 ∧ ∃ box, regionBox t region width height = .ok box := by
  obtain ⟨a, b, c, d, nl, ha, hb, hc, hd, hnl, rfl⟩ := iiifXywh_iff.1 h
  have hcomma : ∀ {ds}, DigitText t ds → ',' ∉ ds := fun hds => hds.not_mem (ht.mark (by decide) (by decide))
  have hpct : isPct (a ++ ',' :: (b ++ ',' :: (c ++ ',' :: (d ++ nl)))) = false := by
    obtain ⟨e, es, rfl⟩ := List.exists_cons_of_ne_nil ha.1
    have hdigit := ha.2 e (.head _)
    unfold isPct
    rw [List.cons_append, List.take_succ_cons, List.map_cons, decide_eq_false_iff_not]
    intro heq
    have hlower : e.toLower = 'p' := (List.cons.inj heq).1
    have halpha : e.isAlpha = true := by
      rw [← Char.isAlpha_toLower_eq_isAlpha, hlower]
      rfl
    obtain ⟨hsmall, hno⟩ := letter_plain halpha
    rw [ht.mark hsmall hno] at hdigit
    cases hdigit
  refine ⟨hpct, ?_, ?_⟩
  · simp [List.count_eq_zero_of_not_mem, hcomma ha, hcomma hb, hcomma hc, hcomma hd, lastLine_comma hnl]
  · have hread : ∀ {cs : List Char}, DigitText t cs → pyInt t cs = .ok (digitsValue t cs) := fun hcs => by
      have := pyInt_digits ht hcs (.inl rfl : LastLine [])
      rwa [List.append_nil] at this
    have hparts : ((a ++ ',' :: (b ++ ',' :: (c ++ ',' :: (d ++ nl)))).splitOn ',').mapM (pyInt t) =
        .ok [(digitsValue t a : Int), digitsValue t b, digitsValue t c, digitsValue t d] := by
      rw [splitOn_four (hcomma ha) (hcomma hb) (hcomma hc) (by simp [hcomma hd, lastLine_comma hnl])]
      exact mapM_cons_ok.2 ⟨_, _, hread ha, mapM_cons_ok.2 ⟨_, _, hread hb, mapM_cons_ok.2 ⟨_, _, hread hc,
        mapM_cons_ok.2 ⟨_, _, pyInt_digits ht hd hnl, rfl, rfl⟩, rfl⟩, rfl⟩, rfl⟩
    unfold regionBox
    rw [hpct, hparts]
    exact ⟨_, rfl⟩

/-- A percentage region has its percentages if no fraction stands behind a comma, and cannot be unpacked otherwise. -/
theorem regionBox_cases {region : List Char} (h : iiifPct t region = true) (width height : Nat) :
    (region.count ',' = 3 ∧ ∃ x y w h, PctRegion t region x y w h) ∨
      (region.count ',' ≠ 3 ∧ ∃ e, regionBox t region width height = .error (.python e)) := by
  obtain ⟨a, b, c, d, nl, ha, hb, hc, hd, hnl, rfl⟩ := iiifPct_iff.1 h
  have hcount : ("pct:".toList ++ (a ++ ',' :: (b ++ ',' :: (c ++ ',' :: (d ++ nl))))).count ',' =
      a.count ',' + b.count ',' + c.count ',' + d.count ',' + 3 := by
    have hnone : nl.count ',' = 0 := List.count_eq_zero_of_not_mem (lastLine_comma hnl)
    simp only [List.count_append, List.count_cons_self, hnone]
    have : "pct:".toList.count ',' = 0 := by decide
    omega
  rw [hcount]
  by_cases hpoint : (∃ x, PointText t a x) ∧ (∃ y, PointText t b y) ∧ (∃ w, PointText t c w) ∧ ∃ h, PointText t d h
  · obtain ⟨⟨x, hx⟩, ⟨y, hy⟩, ⟨w, hw⟩, h, hh⟩ := hpoint
    have hzero : ∀ {cs : List Char} {q : ℚ}, PointText t cs q → cs.count ',' = 0 :=
      fun hq => List.count_eq_zero_of_not_mem (pointText_comma ht hq)
    rw [hzero hx, hzero hy, hzero hw, hzero hh]
    exact .inl ⟨rfl, x, y, w, h, a, b, c, d, nl, hx, hy, hw, hh, hnl, rfl⟩
  · have hmore : 0 < a.count ',' + b.count ',' + c.count ',' + d.count ',' := by
      have ha' := percentText_cases ha
      have hb' := percentText_cases hb
      have hc' := percentText_cases hc
      have hd' := percentText_cases hd
      by_contra hnone
      exact hpoint ⟨ha'.resolve_right (by omega), hb'.resolve_right (by omega), hc'.resolve_right (by omega),
        hd'.resolve_right (by omega)⟩
    refine .inr ⟨by omega, ?_⟩
    generalize hregion : "pct:".toList ++ (a ++ ',' :: (b ++ ',' :: (c ++ ',' :: (d ++ nl)))) = region at hcount
    have hpct : isPct region = true := by rw [← hregion]; rfl
    have hlen : ((region.drop 4).splitOn ',').length = a.count ',' + b.count ',' + c.count ',' + d.count ',' + 4 := by
      have hsame : (region.drop 4).count ',' = region.count ',' := by rw [← hregion]; rfl
      rw [splitOn_length, hsame, hcount]
    unfold regionBox
    rw [if_pos hpct]
    cases hmap : ((region.drop 4).splitOn ',').mapM (pyFloat t) with
    | error e => exact ⟨e, rfl⟩
    | ok values =>
      have hvalues : values.length = ((region.drop 4).splitOn ',').length := by
        have := mapM_map (g := fun _ : List Char => ()) (k := fun _ : ℚ => ()) (fun _ => rfl) hmap
        simpa using congrArg List.length this
      match values, hvalues with
      | [], h => simp [hlen] at h
      | [_], h => simp [hlen] at h
      | [_, _], h => simp [hlen] at h
      | [_, _, _], h => simp [hlen] at h
      | [_, _, _, _], h => simp [hlen] at h; omega
      | _ :: _ :: _ :: _ :: _ :: _, _ => exact ⟨_, rfl⟩

end

/-! ## Crops -/

/-- The check of the bounds lets through what is in the image. -/
theorem cropBox_ok_iff {width height : Nat} {x y w h : Int} {crop : Crop} : cropBox width height (x, y, w, h) = .ok crop ↔
    (0 ≤ x ∧ 0 ≤ y ∧ 0 < w ∧ 0 < h ∧ x + w ≤ width ∧ y + h ≤ height) ∧ crop = ⟨x, y, x + w, y + h⟩ := by
  unfold cropBox
  dsimp only
  split
  · rename_i hout
    simp only [Bool.or_eq_true, decide_eq_true_eq] at hout
    exact iff_of_false nofun (by omega)
  · rename_i hin
    simp only [Bool.or_eq_true, decide_eq_true_eq, not_or, not_lt, not_le] at hin
    rw [Except.ok.injEq, eq_comm (a := crop)]
    refine (and_iff_right ?_).symm
    omega

theorem cropBox_error {width height : Nat} {box : Int × Int × Int × Int} {e : CropError}
    (h : cropBox width height box = .error e) : e = .outOfBounds := by
  obtain ⟨x, y, w, h'⟩ := box
  unfold cropBox at h
  dsimp only at h
  split at h
  · cases h
    rfl
  · cases h

/-- What comes of a box is inside the image, or out of bounds. -/
theorem crop_of_box {image : RasterImage} {region : String} {box : Int × Int × Int × Int}
    (hbox : regionBox t region.toList image.width image.height = .ok box) :
    cropBounded t image (.iiif region) = cropBox image.width image.height box := by
  unfold cropBounded
  dsimp only
  rw [hbox]
  rfl

theorem crop_of_error {image : RasterImage} {region : String} {e : CropError}
    (hbox : regionBox t region.toList image.width image.height = .error e) :
    cropBounded t image (.iiif region) = .error e := by
  unfold cropBounded
  dsimp only
  rw [hbox]
  rfl

/-- A crop is inside the image, whatever region it is of. -/
theorem crop_inside {image : RasterImage} {region : String} {crop : Crop} (h : cropBounded t image (.iiif region) = .ok crop) :
    0 ≤ crop.left ∧ crop.left < crop.right ∧ crop.right ≤ image.width ∧
      0 ≤ crop.upper ∧ crop.upper < crop.lower ∧ crop.lower ≤ image.height := by
  cases hbox : regionBox t region.toList image.width image.height with
  | error e =>
    rw [crop_of_error hbox] at h
    cases h
  | ok box =>
    rw [crop_of_box hbox] at h
    obtain ⟨x, y, w, h'⟩ := box
    obtain ⟨hin, rfl⟩ := cropBox_ok_iff.1 h
    dsimp only
    omega

/-- A percentage region within the image is cropped if and only if its rounded box still lies within it. -/
theorem pctInside_crop (ht : DigitTable t) {image : RasterImage} {region : String} {x y w h : ℚ}
    (hinside : PctInside t image region.toList x y w h) : (∃ crop, cropBounded t image (.iiif region) = .ok crop) ↔
      pyRound (x / 100 * image.width) + pyRound (w / 100 * image.width) ≤ image.width ∧
        pyRound (y / 100 * image.height) + pyRound (h / 100 * image.height) ≤ image.height := by
  obtain ⟨-, -, hx, hy, hw, hh⟩ := pct_parts ht hinside.reads
  have hpositive : ∀ {q : ℚ} {n : Nat}, 0 ≤ q → 1 ≤ pyRound (q / 100 * n) → ¬ q ≤ 0 := fun {q n} hq hround hle => by
    obtain rfl : q = 0 := le_antisymm hle hq
    have hzero : pyRound (0 / 100 * n) = 0 := by
      rw [zero_div, zero_mul]
      decide +kernel
    omega
  have hleft : 0 ≤ pyRound (x / 100 * image.width) := pyRound_nonneg (by positivity)
  have htop : 0 ≤ pyRound (y / 100 * image.height) := pyRound_nonneg (by positivity)
  have hwide := hinside.wide
  have hhigh := hinside.high
  have hbox : regionBox t region.toList image.width image.height =
      .ok (pyRound (x / 100 * image.width), pyRound (y / 100 * image.height), pyRound (w / 100 * image.width),
        pyRound (h / 100 * image.height)) := by
    rw [regionBox_pct ht hinside.reads]
    unfold pctToBox
    rw [if_neg]
    simp [hpositive hw hwide, hpositive hh hhigh]
  rw [crop_of_box hbox]
  simp only [cropBox_ok_iff]
  constructor
  · rintro ⟨_, ⟨-, -, -, -, hright, hbelow⟩, -⟩
    exact ⟨hright, hbelow⟩
  · rintro ⟨hright, hbelow⟩
    exact ⟨_, ⟨hleft, htop, by omega, by omega, hright, hbelow⟩, rfl⟩

theorem accepted_cases {region : String} (h : Selector.check t (.iiif region) = .ok (.iiif region)) :
    iiifXywh t region.toList = true ∨ iiifPct t region.toList = true := by
  simp only [Selector.check] at h
  split at h
  · rename_i hok
    simp only [Bool.and_eq_true, Bool.or_eq_true] at hok
    exact hok.2
  · cases h

/-- **A crop keeps its bounds and gives the percentages that fit, for the regions that have no comma before a fraction and whose
percentages still lie within the image when origin and extent are rounded apart, and for no others.** -/
theorem crop_iff (ht : DigitTable t) (image : RasterImage) (region : String)
    (haccepted : Selector.check t (.iiif region) = .ok (.iiif region)) : CropsInside t image region ↔ Croppable t image region := by
  constructor
  · intro hcrops
    refine ⟨?_, fun x y w h hinside => (pctInside_crop ht hinside).1 (hcrops.succeeds x y w h hinside)⟩
    rcases accepted_cases haccepted with hxywh | hpct
    · exact (regionBox_xywh ht hxywh image.width image.height).2.1
    · rcases regionBox_cases ht hpct image.width image.height with ⟨hcount, -⟩ | ⟨-, e, he⟩
      · exact hcount
      · cases hcrops.raises _ (crop_of_error he)
  · rintro ⟨hcommas, hfits⟩
    refine ⟨fun crop => crop_inside, fun e he => ?_, fun x y w h hinside => (pctInside_crop ht hinside).2 (hfits x y w h hinside)⟩
    rcases accepted_cases haccepted with hxywh | hpct
    · obtain ⟨-, -, box, hbox⟩ := regionBox_xywh ht hxywh image.width image.height
      rw [crop_of_box hbox] at he
      exact cropBox_error he
    · rcases regionBox_cases ht hpct image.width image.height with ⟨-, x, y, w, h, hregion⟩ | ⟨hcount, -⟩
      · cases hbox : pctToBox x y w h image.width image.height with
        | error e' =>
          rw [crop_of_error ((regionBox_pct ht hregion _ _).trans hbox)] at he
          cases he
          unfold pctToBox at hbox
          split at hbox
          · cases hbox
            rfl
          · cases hbox
        | ok box =>
          rw [crop_of_box ((regionBox_pct ht hregion _ _).trans hbox)] at he
          exact cropBox_error he
      · exact absurd hcommas hcount

/-- The ten digits alone. -/
def tenDigits : Tables where
  lower := id
  decimal := fun c => if c.isDigit then some (c.toNat - 48) else none
  sha512B32url := id

theorem tenDigits_table : DigitTable tenDigits := by
  refine ⟨fun _ _ => rfl, fun c hc => ?_⟩
  have hno : c.isDigit = false := by
    by_contra hdigit
    simp only [Bool.not_eq_false, Char.isDigit, Bool.and_eq_true, decide_eq_true_eq, UInt32.le_iff_toNat_le, ge_iff_le] at hdigit
    simp only [isSpace, Char.toNat, Bool.or_eq_true, Bool.and_eq_true, decide_eq_true_eq] at hc
    have h0 : '0'.val.toNat = 48 := rfl
    have h9 : '9'.val.toNat = 57 := rfl
    omega
  exact if_neg (by simp [hno])

/-- Three white pixels in a row. -/
def strip3 : RasterImage where
  width := 3
  height := 1
  pixel _ _ := ⟨255, 255, 255⟩
  width_pos := by decide
  height_pos := by decide

theorem crop_iff_strip : CropsInside tenDigits strip3 "0,0,2,1" ↔ Croppable tenDigits strip3 "0,0,2,1" :=
  crop_iff tenDigits_table strip3 "0,0,2,1" (by decide +kernel)

/-- The right half of three pixels is rounded to one that ends outside, and a comma before a fraction is taken for another part. -/
theorem half_not_cropped : Selector.check tenDigits (.iiif "pct:50,0,50,100") = .ok (.iiif "pct:50,0,50,100") ∧
    ¬ CropsInside tenDigits strip3 "pct:50,0,50,100" ∧
    Selector.check tenDigits (.iiif "pct:0,5,0,50,100") = .ok (.iiif "pct:0,5,0,50,100") ∧
    cropBounded tenDigits strip3 (.iiif "pct:0,5,0,50,100") = .error (.python .valueError) := by
  refine ⟨by decide +kernel, fun hcrops => ?_, by decide +kernel, by decide +kernel⟩
  have hone : ∀ s : List Char, s ≠ [] → s.all (isDecimal tenDigits) = true → PointText tenDigits s (digitsValue tenDigits s) :=
    fun s hne hs => .whole ⟨hne, List.all_eq_true.1 hs⟩
  obtain ⟨crop, hcrop⟩ := hcrops.succeeds 50 0 50 100 {
    reads := ⟨['5', '0'], ['0'], ['5', '0'], ['1', '0', '0'], [], hone _ (by decide) (by decide +kernel), hone _ (by decide) (by decide +kernel),
      hone _ (by decide) (by decide +kernel), hone _ (by decide) (by decide +kernel), .inl rfl, by decide +kernel⟩
    right := by norm_num
    below := by norm_num
    wide := by decide +kernel
    high := by decide +kernel }
  have herror : cropBounded tenDigits strip3 (.iiif "pct:50,0,50,100") = .error .outOfBounds := by decide +kernel
  rw [herror] at hcrop
  cases hcrop

end Umd.Raster
