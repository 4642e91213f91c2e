import Umd.Raster.Components
/-!
# Panels

`detect_panels` fills the pixels whose quantized color is not the background's, boxes each
4-connected component, and keeps the boxes of at least `min_fill` pixels. It is the box that
it measures: it gives the components of at least `min_fill` filled pixels if and only if no
smaller component has a box so large (`panels_iff`).
-/

namespace Umd.Raster

open Umd.Lib

def quantizeColor (c : Color) : Color := ⟨c.r &&& 0xF8, c.g &&& 0xF8, c.b &&& 0xF8⟩

/-- The order of the keys `(b.center_row_col[0], b.center_row_col[1])`. -/
def CenterLe (b b' : Box) : Prop :=
  b.centerRowCol.1 < b'.centerRowCol.1 ∨ b.centerRowCol.1 = b'.centerRowCol.1 ∧ b.centerRowCol.2 ≤ b'.centerRowCol.2

instance : DecidableRel CenterLe := fun _ _ => inferInstanceAs (Decidable (_ ∨ _))

/-- `_reading_order`. -/
def readingOrder (boxes : List Box) : List Box := boxes.insertionSort CenterLe

/-- The pixels whose quantized color is not the background's. -/
def panelMask (image : RasterImage) (bg : Color) : Mask :=
  maskOf image.width image.height fun x y => quantizeColor (image.pixel x y) ≠ quantizeColor bg

/-- A panel, with the color at its center. -/
def panel (image : RasterImage) (b : Box) (i : Nat) : Region where
  box := b
  kind := "panel"
  color := some (image.pixel (b.x + b.w / 2) (b.y + b.h / 2))
  readingOrder := i

/-- `detect_panels`. -/
def detectPanels (image : RasterImage) (minFill : Int) (background : Option Color) : List Region :=
  let bg := background.getD (image.pixel 0 0)
  let comps := (components (panelMask image bg) image.width image.height true).filter fun b => minFill ≤ (b.area : Int)
  ((readingOrder comps).zipIdx 1).map fun p => panel image p.1 p.2

/-! ## Components -/

/-- A pixel that is not of the background. -/
def Foreground (image : RasterImage) (bg : Color) (c : Nat × Nat) : Prop :=
  c.1 < image.height ∧ c.2 < image.width ∧ quantizeColor (image.pixel c.2 c.1) ≠ quantizeColor bg

/-- The foreground pixels that one of them is 4-connected with. -/
def IsComponent (image : RasterImage) (bg : Color) (comp : Finset (Nat × Nat)) : Prop :=
  ∃ a, Foreground image bg a ∧ ∀ b, b ∈ comp ↔ Relation.ReflTransGen (fun c d => Beside c d ∧ Foreground image bg d) a b

/-- One region for each component of at least `min_fill` pixels, with its tight box, and no other, by the centers of the boxes
and numbered. -/
structure ShowsPanels (image : RasterImage) (bg : Color) (minFill : Int) (regions : List Region) : Prop where
  components : ∃ comps : List (Finset (Nat × Nat)), comps.Nodup ∧
    (∀ comp, comp ∈ comps ↔ IsComponent image bg comp ∧ minFill ≤ (comp.card : Int)) ∧
    List.Forall₂ (fun r comp => TightBox comp r.box) regions comps
  ordered : regions.Pairwise fun r r' => CenterLe r.box r'.box
  numbered : regions.map (·.readingOrder) = List.range' 1 regions.length

/-! ## The components that are filled -/

section Fill

variable {image : RasterImage} {bg : Color}

theorem filled_iff {c : Nat × Nat} : Filled (panelMask image bg) image.width image.height true c ↔ Foreground image bg c := by
  unfold Filled panelMask Foreground
  rw [maskOf_at, decide_eq_true_eq]
  tauto

/-- `_components` boxes the components, each once. -/
theorem components_spec (image : RasterImage) (bg : Color) : ∃ classes : List ((Nat × Nat) × List (Nat × Nat)),
    components (panelMask image bg) image.width image.height true = classes.map boxOf ∧
      (classes.map fun c => c.2.toFinset).Nodup ∧ (∀ c ∈ classes, TightBox c.2.toFinset (boxOf c)) ∧
      ∀ comp, comp ∈ classes.map (fun c => c.2.toFinset) ↔ IsComponent image bg comp := by
  obtain ⟨classes, hboxes, hnodup, htight, hcomps, -⟩ := components_classes (panelMask image bg) image.width image.height true
  have hforeground : Filled (panelMask image bg) image.width image.height true = Foreground image bg :=
    funext fun _ => propext filled_iff
  rw [hforeground] at hcomps
  exact ⟨classes, hboxes, hnodup, htight, hcomps⟩

end Fill

/-! ## The panels of an image -/

instance : Std.Total CenterLe := ⟨fun b b' => by unfold CenterLe; omega⟩

instance : IsTrans Box CenterLe := ⟨fun b b' b'' h h' => by unfold CenterLe at *; omega⟩

theorem zipIdx_panel (image : RasterImage) (boxes : List Box) (n : Nat) :
    ((boxes.zipIdx n).map fun p => panel image p.1 p.2).map (·.box) = boxes ∧
      ((boxes.zipIdx n).map fun p => panel image p.1 p.2).map (·.readingOrder) = List.range' n boxes.length := by
  rw [List.map_map, List.map_map]
  exact ⟨List.zipIdx_map_fst n boxes, List.zipIdx_map_snd n boxes⟩

/-- The components that `detect_panels` gives a region are those whose box is large enough. -/
theorem detected (image : RasterImage) (minFill : Int) (background : Option Color) :
    ∃ comps : List (Finset (Nat × Nat)), comps.Nodup ∧
      (∀ comp, comp ∈ comps ↔
        IsComponent image (background.getD (image.pixel 0 0)) comp ∧ ∃ b, TightBox comp b ∧ minFill ≤ (b.area : Int)) ∧
      List.Forall₂ (fun r comp => TightBox comp r.box) (detectPanels image minFill background) comps := by
  obtain ⟨classes, hboxes, hnodup, htight, hcomps⟩ := components_spec image (background.getD (image.pixel 0 0))
  let kept := (classes.filter fun c => minFill ≤ ((boxOf c).area : Int)).insertionSort fun c c' => CenterLe (boxOf c) (boxOf c')
  have hperm : kept.Perm (classes.filter fun c => minFill ≤ ((boxOf c).area : Int)) := List.perm_insertionSort ..
  have hsorted : (detectPanels image minFill background).map (·.box) = kept.map boxOf := by
    unfold detectPanels readingOrder
    dsimp only
    rw [(zipIdx_panel ..).1, hboxes, List.filter_map]
    exact (List.map_insertionSort _ _ boxOf _ fun _ _ _ _ => Iff.rfl).symm
  have hmem : ∀ c, c ∈ kept ↔ c ∈ classes ∧ minFill ≤ ((boxOf c).area : Int) := fun c => by
    rw [hperm.mem_iff, List.mem_filter, decide_eq_true_eq]
  refine ⟨kept.map fun c => c.2.toFinset, ?_, fun comp => ⟨fun hcomp => ?_, ?_⟩, ?_⟩
  · exact (hperm.map _).nodup_iff.2 (hnodup.sublist (List.filter_sublist.map _))
  · obtain ⟨c, hc, rfl⟩ := List.mem_map.1 hcomp
    obtain ⟨hc, harea⟩ := (hmem c).1 hc
    exact ⟨(hcomps _).1 (List.mem_map_of_mem hc), boxOf c, htight c hc, harea⟩
  · rintro ⟨hcomp, b, hb, harea⟩
    obtain ⟨c, hc, rfl⟩ := List.mem_map.1 ((hcomps comp).2 hcomp)
    rw [hb.unique (htight c hc)] at harea
    exact List.mem_map_of_mem ((hmem c).2 ⟨hc, harea⟩)
  · have hall : List.Forall₂ (fun b comp => TightBox comp b) ((detectPanels image minFill background).map (·.box))
        (kept.map fun c => c.2.toFinset) := by
      rw [hsorted, List.forall₂_map_left_iff, List.forall₂_map_right_iff, List.forall₂_same]
      exact fun c hc => htight c ((hmem c).1 hc).1
    exact List.forall₂_map_left_iff.1 hall

theorem IsComponent.boxed {image : RasterImage} {bg : Color} {comp : Finset (Nat × Nat)} (h : IsComponent image bg comp) :
    ∃ b, TightBox comp b := by
  obtain ⟨classes, -, -, htight, hcomps⟩ := components_spec image bg
  obtain ⟨c, hc, rfl⟩ := List.mem_map.1 ((hcomps comp).2 h)
  exact ⟨boxOf c, htight c hc⟩

/-- **`detect_panels` gives the components of at least `min_fill` pixels if and only if no smaller one has a box of that
many.** -/
theorem panels_iff (image : RasterImage) (minFill : Int) (background : Option Color) :
    ShowsPanels image (background.getD (image.pixel 0 0)) minFill (detectPanels image minFill background) ↔
      ∀ comp b, IsComponent image (background.getD (image.pixel 0 0)) comp → TightBox comp b →
        minFill ≤ (b.area : Int) → minFill ≤ (comp.card : Int) := by
  obtain ⟨comps, hnodup, hmem, hboxes⟩ := detected image minFill background
  have hlarge : ∀ comp b, TightBox comp b → minFill ≤ (comp.card : Int) → minFill ≤ (b.area : Int) := fun comp b hb hcard => by
    have := hb.card_le
    omega
  constructor
  · rintro ⟨⟨comps', hnodup', hmem', hboxes'⟩, -, -⟩ comp b hcomp hb harea
    have hsub : comps' ⊆ comps := fun c hc => by
      obtain ⟨hc, hcard⟩ := (hmem' c).1 hc
      obtain ⟨b, hb⟩ := hc.boxed
      exact (hmem c).2 ⟨hc, b, hb, hlarge c b hb hcard⟩
    -- there are as many of them as regions
    have hlen : comps.length ≤ comps'.length := (hboxes.length_eq.symm.trans hboxes'.length_eq).le
    have hperm := (hnodup'.subperm hsub).perm_of_length_le hlen
    exact ((hmem' comp).1 (hperm.mem_iff.2 ((hmem comp).2 ⟨hcomp, b, hb, harea⟩))).2
  · intro hcond
    have hregions := zipIdx_panel image (readingOrder ((components (panelMask image (background.getD (image.pixel 0 0)))
      image.width image.height true).filter fun b => minFill ≤ (b.area : Int))) 1
    refine ⟨⟨comps, hnodup, fun comp => ?_, hboxes⟩, ?_, ?_⟩
    · rw [hmem]
      refine and_congr_right fun hcomp => ⟨fun ⟨b, hb, harea⟩ => hcond comp b hcomp hb harea, fun hcard => ?_⟩
      obtain ⟨b, hb⟩ := hcomp.boxed
      exact ⟨b, hb, hlarge comp b hb hcard⟩
    · rw [← List.pairwise_map (f := fun r : Region => r.box)]
      unfold detectPanels
      rw [hregions.1]
      exact List.pairwise_insertionSort ..
    · unfold detectPanels
      rw [hregions.2]
      congr 1
      simp

/-- An L of three pixels, white on black. -/
def corner : RasterImage where
  width := 2
  height := 2
  pixel x y := if x = 1 ∧ y = 1 then ⟨0, 0, 0⟩ else ⟨255, 255, 255⟩
  width_pos := by decide
  height_pos := by decide

/-- Its box has four pixels, and the L only three. -/
theorem corner_not_full : (detectPanels corner 4 (some ⟨0, 0, 0⟩)).map (·.box) = [⟨0, 0, 2, 2⟩] ∧
    ¬ ShowsPanels corner ⟨0, 0, 0⟩ 4 (detectPanels corner 4 (some ⟨0, 0, 0⟩)) := by
  have hfound : (detectPanels corner 4 (some ⟨0, 0, 0⟩)).map (·.box) = [⟨0, 0, 2, 2⟩] := by decide +kernel
  refine ⟨hfound, ?_⟩
  rintro ⟨⟨comps, -, hmem, hboxes⟩, -, -⟩
  have hlen : comps.length = 1 := by
    rw [← hboxes.length_eq, ← List.length_map (f := fun r : Region => r.box), hfound]
    rfl
  obtain ⟨comp, rfl⟩ := List.length_eq_one_iff.1 hlen
  obtain ⟨⟨a, ha, hreach⟩, hcard⟩ := (hmem comp).1 (by simp)
  have hfore : ∀ c, Foreground corner ⟨0, 0, 0⟩ c → c ∈ ({(0, 0), (0, 1), (1, 0)} : Finset (Nat × Nat)) := by
    rintro ⟨y, x⟩ ⟨hy, hx, hc⟩
    simp only [corner] at hy hx hc
    have hnot : ¬ (x = 1 ∧ y = 1) := fun h => hc (by rw [if_pos h])
    simp only [Finset.mem_insert, Finset.mem_singleton, Prod.mk.injEq]
    omega
  have hsub : comp ⊆ {(0, 0), (0, 1), (1, 0)} := fun c hc => by
    rcases Relation.ReflTransGen.cases_tail ((hreach c).1 hc) with rfl | ⟨_, -, hlast⟩
    · exact hfore _ ha
    · exact hfore _ hlast.2
  have hle : comp.card ≤ 3 := Finset.card_le_card hsub
  omega

end Umd.Raster
