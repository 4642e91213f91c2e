import Umd.Lib.Flood
import Umd.Raster.Regions
/-!
# Components

`_components` fills the cells of a mask that are dark, or those that are not, from each
one in row-major order. Every fill ends, and the boxes are the tight boxes of the
4-connected components, each once, by their first cells (`components_found`).
-/

namespace Umd.Raster

open Umd.Lib

/-- The cells above, below, to the left and to the right, as rows and columns. -/
def sides (c : Nat × Nat) : List (Nat × Nat) :=
  (if 0 < c.1 then [(c.1 - 1, c.2)] else []) ++ [(c.1 + 1, c.2)] ++ (if 0 < c.2 then [(c.1, c.2 - 1)] else []) ++ [(c.1, c.2 + 1)]

/-- The sides of a cell that the fill goes on to, unless they are visited. -/
def neighbours (mask : Mask) (w h : Nat) (dark : Bool) (c : Nat × Nat) : List (Nat × Nat) :=
  (sides c).filter fun n => n.1 < h && n.2 < w && mask.at n.1 n.2 == dark

/-- The bounds of the cells that came off the queue. -/
structure Extent where
  minX : Nat
  maxX : Nat
  minY : Nat
  maxY : Nat

def Extent.visit (e : Extent) (c : Nat × Nat) : Extent where
  minX := if c.2 < e.minX then c.2 else e.minX
  maxX := if c.2 > e.maxX then c.2 else e.maxX
  minY := if c.1 < e.minY then c.1 else e.minY
  maxY := if c.1 > e.maxY then c.1 else e.maxY

def Extent.first (c : Nat × Nat) : Extent := ⟨c.2, c.2, c.1, c.1⟩

def Extent.box (e : Extent) : Box := ⟨e.minX, e.minY, e.maxX - e.minX + 1, e.maxY - e.minY + 1⟩

/-- The cells of an image, row by row. -/
def cellsOf (w h : Nat) : List (Nat × Nat) := (List.range h).flatMap fun y => (List.range w).map fun x => (y, x)

/-- `_components`. -/
def components (mask : Mask) (w h : Nat) (dark : Bool) : List Box :=
  ((cellsOf w h).foldl (scanStep (neighbours mask w h dark) (fun c => mask.at c.1 c.2 == dark) Extent.visit Extent.first
    (w * h)) ([], [])).2.map Extent.box

/-! ## What is found -/

/-- A cell of the mask that is to be filled. -/
def Filled (mask : Mask) (w h : Nat) (dark : Bool) (c : Nat × Nat) : Prop := c.1 < h ∧ c.2 < w ∧ mask.at c.1 c.2 = dark

/-- Cells that have a side in common. -/
def Beside (c d : Nat × Nat) : Prop :=
  c.2 = d.2 ∧ (c.1 + 1 = d.1 ∨ d.1 + 1 = c.1) ∨ c.1 = d.1 ∧ (c.2 + 1 = d.2 ∨ d.2 + 1 = c.2)

/-- The cells that one of them is 4-connected with, among those that are to be filled. -/
def ComponentOf (fills : Nat × Nat → Prop) (comp : Finset (Nat × Nat)) : Prop :=
  ∃ a, fills a ∧ ∀ b, b ∈ comp ↔ Relation.ReflTransGen (fun c d => Beside c d ∧ fills d) a b

/-- The least box around some cells. -/
structure TightBox (comp : Finset (Nat × Nat)) (b : Box) : Prop where
  within : ∀ c ∈ comp, b.Has c.2 c.1
  left : ∃ c ∈ comp, c.2 = b.x
  right : ∃ c ∈ comp, c.2 + 1 = b.x + b.w
  top : ∃ c ∈ comp, c.1 = b.y
  bottom : ∃ c ∈ comp, c.1 + 1 = b.y + b.h

/-- Row by row, and in a row from the left. -/
def RowMajor (c d : Nat × Nat) : Prop := c.1 < d.1 ∨ c.1 = d.1 ∧ c.2 < d.2

def FirstCell (comp : Finset (Nat × Nat)) (c : Nat × Nat) : Prop := c ∈ comp ∧ ∀ b ∈ comp, b = c ∨ RowMajor c b

/-- The scan of `_components` up to some cell. -/
def scanTo (mask : Mask) (w h : Nat) (dark : Bool) (cells : List (Nat × Nat)) : List (Nat × Nat) × List Extent :=
  cells.foldl (scanStep (neighbours mask w h dark) (fun c => mask.at c.1 c.2 == dark) Extent.visit Extent.first (w * h)) ([], [])

/-- No fill leaves anything in its queue. -/
def FillsEnd (mask : Mask) (w h : Nat) (dark : Bool) : Prop :=
  ∀ cells c later, cellsOf w h = cells ++ c :: later → c ∉ (scanTo mask w h dark cells).1 → mask.at c.1 c.2 = dark →
    (flood (neighbours mask w h dark) Extent.visit (w * h) (scanTo mask w h dark cells).1 c (Extent.first c)).queue = []

/-! ## Boxes -/

theorem TightBox.unique {comp : Finset (Nat × Nat)} {b b' : Box} (h : TightBox comp b) (h' : TightBox comp b') : b = b' := by
  obtain ⟨l, hl, hlx⟩ := h.left
  obtain ⟨r, hr, hrx⟩ := h.right
  obtain ⟨t, ht, hty⟩ := h.top
  obtain ⟨m, hm, hmy⟩ := h.bottom
  obtain ⟨l', hl', hlx'⟩ := h'.left
  obtain ⟨r', hr', hrx'⟩ := h'.right
  obtain ⟨t', ht', hty'⟩ := h'.top
  obtain ⟨m', hm', hmy'⟩ := h'.bottom
  have hin := fun c hc => h.within c hc
  have hin' := fun c hc => h'.within c hc
  unfold Box.Has at hin hin'
  have := hin l' hl'
  have := hin r' hr'
  have := hin t' ht'
  have := hin m' hm'
  have := hin' l hl
  have := hin' r hr
  have := hin' t ht
  have := hin' m hm
  cases b
  cases b'
  simp only [Box.mk.injEq]
  dsimp only at *
  omega

/-- A component has no more pixels than its box. -/
theorem TightBox.card_le {comp : Finset (Nat × Nat)} {b : Box} (h : TightBox comp b) : comp.card ≤ b.area := by
  have hsub : comp ⊆ Finset.Ico b.y (b.y + b.h) ×ˢ Finset.Ico b.x (b.x + b.w) := fun c hc => by
    obtain ⟨hx, hx', hy, hy'⟩ := h.within c hc
    simp [hx, hx', hy, hy']
  refine (Finset.card_le_card hsub).trans ?_
  rw [Finset.card_product, Nat.card_Ico, Nat.card_Ico, Box.area, Nat.mul_comm]
  simp

theorem foldl_least {α : Type} (f : α → Nat) (l : List α) (m : Nat) :
    (∀ c ∈ l, l.foldl (fun m c => if f c < m then f c else m) m ≤ f c) ∧
      l.foldl (fun m c => if f c < m then f c else m) m ≤ m ∧
      (l.foldl (fun m c => if f c < m then f c else m) m = m ∨ ∃ c ∈ l, f c = l.foldl (fun m c => if f c < m then f c else m) m) := by
  induction l generalizing m with
  | nil => simp
  | cons a l ih =>
    obtain ⟨hall, hle, heq⟩ := ih (if f a < m then f a else m)
    rw [List.foldl_cons]
    have hstep : (if f a < m then f a else m) ≤ m ∧ (if f a < m then f a else m) ≤ f a := by split <;> omega
    refine ⟨fun c hc => ?_, hle.trans hstep.1, ?_⟩
    · rcases List.mem_cons.1 hc with rfl | hc
      · exact hle.trans hstep.2
      · exact hall c hc
    · rcases heq with heq | ⟨c, hc, heq⟩
      · rw [heq]
        split
        · exact .inr ⟨a, by simp, rfl⟩
        · exact .inl rfl
      · exact .inr ⟨c, List.mem_cons_of_mem _ hc, heq⟩

theorem foldl_greatest {α : Type} (f : α → Nat) (l : List α) (m : Nat) :
    (∀ c ∈ l, f c ≤ l.foldl (fun m c => if f c > m then f c else m) m) ∧
      m ≤ l.foldl (fun m c => if f c > m then f c else m) m ∧
      (l.foldl (fun m c => if f c > m then f c else m) m = m ∨ ∃ c ∈ l, f c = l.foldl (fun m c => if f c > m then f c else m) m) := by
  induction l generalizing m with
  | nil => simp
  | cons a l ih =>
    obtain ⟨hall, hle, heq⟩ := ih (if f a > m then f a else m)
    rw [List.foldl_cons]
    have hstep : m ≤ (if f a > m then f a else m) ∧ f a ≤ (if f a > m then f a else m) := by split <;> omega
    refine ⟨fun c hc => ?_, hstep.1.trans hle, ?_⟩
    · rcases List.mem_cons.1 hc with rfl | hc
      · exact hstep.2.trans hle
      · exact hall c hc
    · rcases heq with heq | ⟨c, hc, heq⟩
      · rw [heq]
        split
        · exact .inr ⟨a, by simp, rfl⟩
        · exact .inl rfl
      · exact .inr ⟨c, List.mem_cons_of_mem _ hc, heq⟩

theorem foldl_visit (l : List (Nat × Nat)) (e : Extent) : l.foldl Extent.visit e =
    ⟨l.foldl (fun m c => if c.2 < m then c.2 else m) e.minX, l.foldl (fun m c => if c.2 > m then c.2 else m) e.maxX,
      l.foldl (fun m c => if c.1 < m then c.1 else m) e.minY, l.foldl (fun m c => if c.1 > m then c.1 else m) e.maxY⟩ := by
  induction l generalizing e with
  | nil => rfl
  | cons c l ih => exact ih (e.visit c)

/-- The bounds of the cells of a fill give their tight box. -/
theorem tight_extent {l : List (Nat × Nat)} {a : Nat × Nat} (ha : a ∈ l) :
    TightBox l.toFinset (l.foldl Extent.visit (Extent.first a)).box := by
  rw [foldl_visit]
  obtain ⟨hleft, hleft', hx⟩ := foldl_least (·.2) l a.2
  obtain ⟨hright, hright', hx'⟩ := foldl_greatest (·.2) l a.2
  obtain ⟨htop, htop', hy⟩ := foldl_least (·.1) l a.1
  obtain ⟨hbottom, hbottom', hy'⟩ := foldl_greatest (·.1) l a.1
  have hxs := hx.elim (fun h => ⟨a, ha, h.symm⟩) id
  have hxs' := hx'.elim (fun h => ⟨a, ha, h.symm⟩) id
  have hys := hy.elim (fun h => ⟨a, ha, h.symm⟩) id
  have hys' := hy'.elim (fun h => ⟨a, ha, h.symm⟩) id
  unfold Extent.box Extent.first
  dsimp only
  refine ⟨fun c hc => ?_, ?_, ?_, ?_, ?_⟩
  · have hc := List.mem_toFinset.1 hc
    have := hleft c hc
    have := hright c hc
    have := htop c hc
    have := hbottom c hc
    unfold Box.Has
    dsimp only
    omega
  · obtain ⟨c, hc, h⟩ := hxs
    exact ⟨c, List.mem_toFinset.2 hc, h⟩
  · obtain ⟨c, hc, h⟩ := hxs'
    refine ⟨c, List.mem_toFinset.2 hc, ?_⟩
    dsimp only
    omega
  · obtain ⟨c, hc, h⟩ := hys
    exact ⟨c, List.mem_toFinset.2 hc, h⟩
  · obtain ⟨c, hc, h⟩ := hys'
    refine ⟨c, List.mem_toFinset.2 hc, ?_⟩
    dsimp only
    omega

/-! ## The components that are filled -/

theorem mem_sides {c d : Nat × Nat} : d ∈ sides c ↔ Beside c d := by
  obtain ⟨y, x⟩ := c
  obtain ⟨y', x'⟩ := d
  unfold sides Beside
  by_cases hy : 0 < y <;> by_cases hx : 0 < x <;>
    simp only [hy, hx, if_true, if_false, List.mem_append, List.mem_singleton, List.not_mem_nil, false_or, or_false,
      Prod.mk.injEq] <;> constructor <;> intro h <;> omega

theorem Beside.symm {c d : Nat × Nat} (h : Beside c d) : Beside d c := by
  unfold Beside at *
  omega

theorem mem_cellsOf {w h : Nat} {c : Nat × Nat} : c ∈ cellsOf w h ↔ c.1 < h ∧ c.2 < w := by
  unfold cellsOf
  simp only [List.mem_flatMap, List.mem_map, List.mem_range]
  constructor
  · rintro ⟨y, hy, x, hx, rfl⟩
    exact ⟨hy, hx⟩
  · exact fun hc => ⟨c.1, hc.1, c.2, hc.2, rfl⟩

theorem cellsOf_length (w h : Nat) : (cellsOf w h).length = w * h := by
  unfold cellsOf
  simp [Nat.mul_comm]

/-- The fill from a cell, boxed. -/
def boxOf (class' : (Nat × Nat) × List (Nat × Nat)) : Box := (class'.2.foldl Extent.visit (Extent.first class'.1)).box

section Fill

variable {mask : Mask} {w h : Nat} {dark : Bool}

theorem mem_neighbours {c d : Nat × Nat} : d ∈ neighbours mask w h dark c ↔ Beside c d ∧ Filled mask w h dark d := by
  unfold neighbours Filled
  rw [List.mem_filter, mem_sides, Bool.and_eq_true, Bool.and_eq_true, decide_eq_true_eq, decide_eq_true_eq, beq_iff_eq, and_assoc]

theorem cellsOf_pairwise (w h : Nat) : (cellsOf w h).Pairwise RowMajor := by
  unfold cellsOf
  rw [List.pairwise_flatMap]
  constructor
  · intro y _
    rw [List.pairwise_map]
    exact List.pairwise_lt_range.imp fun hlt => .inr ⟨rfl, hlt⟩
  · refine List.pairwise_lt_range.imp fun {y y'} hlt c hc d hd => ?_
    obtain ⟨x, -, rfl⟩ := List.mem_map.1 hc
    obtain ⟨x', -, rfl⟩ := List.mem_map.1 hd
    exact .inl hlt

/-- `_components` boxes the components by their first cells, each once. -/
theorem components_classes (mask : Mask) (w h : Nat) (dark : Bool) : ∃ classes : List ((Nat × Nat) × List (Nat × Nat)),
    components mask w h dark = classes.map boxOf ∧ (classes.map fun c => c.2.toFinset).Nodup ∧
      (∀ c ∈ classes, TightBox c.2.toFinset (boxOf c)) ∧
      (∀ comp, comp ∈ classes.map (fun c => c.2.toFinset) ↔ ComponentOf (Filled mask w h dark) comp) ∧
      (∀ c ∈ classes, FirstCell c.2.toFinset c.1) ∧ (classes.map (·.1)).Pairwise RowMajor := by
  have hrel : (fun x y => y ∈ neighbours mask w h dark x) = fun c d => Beside c d ∧ Filled mask w h dark d := by
    funext c d
    exact propext mem_neighbours
  have hcell : ∀ {c}, Filled mask w h dark c → c ∈ cellsOf w h := fun hc => mem_cellsOf.2 ⟨hc.1, hc.2.1⟩
  have hfilled : ∀ {c}, c ∈ cellsOf w h → (mask.at c.1 c.2 == dark) = true → Filled mask w h dark c := fun hc hp =>
    ⟨(mem_cellsOf.1 hc).1, (mem_cellsOf.1 hc).2, beq_iff_eq.1 hp⟩
  obtain ⟨classes, hscan, hfound, hsub, hfirst⟩ := @scan_ordered (Nat × Nat) Extent _
    (neighbours mask w h dark) (fun c => mask.at c.1 c.2 == dark)
    Extent.visit Extent.first (cellsOf w h) (fun c _ d hd => hcell (mem_neighbours.1 hd).2)
    (fun c d hd => beq_iff_eq.2 (mem_neighbours.1 hd).2.2.2)
    (fun c hc hp d hd => mem_neighbours.2 ⟨(mem_neighbours.1 hd).1.symm, hfilled hc hp⟩)
    _ (cellsOf_length ..).le (cellsOf w h) (fun a ha _ => ha) _ (cellsOf_pairwise w h)
  have hstarts : ∀ c ∈ classes, Filled mask w h dark c.1 := fun c hc =>
    hfilled (hsub.subset (List.mem_map_of_mem hc)) (hscan.isClass c hc).fills
  have hmem : ∀ c ∈ classes, c.1 ∈ c.2 := fun c hc => ((hscan.isClass c hc).mem_iff c.1).2 .refl
  have hclass : ∀ c ∈ classes, ∀ b, b ∈ c.2 ↔ Relation.ReflTransGen (fun c d => Beside c d ∧ Filled mask w h dark d) c.1 b :=
    fun c hc b => by rw [(hscan.isClass c hc).mem_iff, hrel]
  refine ⟨classes, ?_, ?_, fun c hc => tight_extent (hmem c hc), fun comp => ⟨fun hcomp => ?_, ?_⟩, fun c hc => ?_,
    (cellsOf_pairwise w h).sublist hsub⟩
  · unfold components boxOf
    rw [hscan.filled, List.map_map]
    rfl
  · -- classes with a cell in common are one place in the list
    have hnodup := hscan.nodup
    rw [hscan.visited, List.nodup_flatten, List.pairwise_map] at hnodup
    refine List.pairwise_map.2 (hnodup.2.imp_of_mem fun {c c'} hc _ hdisjoint heq => ?_)
    have hin : c.1 ∈ c'.2 := by
      rw [← List.mem_toFinset, ← heq, List.mem_toFinset]
      exact hmem c hc
    exact hdisjoint (hmem c hc) hin
  · obtain ⟨c, hc, rfl⟩ := List.mem_map.1 hcomp
    exact ⟨c.1, hstarts c hc, fun b => by rw [List.mem_toFinset, hclass c hc]⟩
  · rintro ⟨a, ha, hiff⟩
    obtain ⟨c, hc, hac⟩ := hfound a (hcell ha) (beq_iff_eq.2 ha.2.2)
    refine List.mem_map.2 ⟨c, hc, Finset.ext fun b => ?_⟩
    -- what the class's first cell reaches is what `a` reaches
    have hto := (hclass c hc a).1 hac
    have hback : Relation.ReflTransGen (fun c d => Beside c d ∧ Filled mask w h dark d) a c.1 := by
      have hstart := hstarts c hc
      clear hac hiff ha
      induction hto with
      | refl => exact .refl
      | tail hprev hstep ih =>
        refine .head ⟨hstep.1.symm, ?_⟩ ih
        rcases Relation.ReflTransGen.cases_tail hprev with heq | ⟨_, -, hlast⟩
        · rwa [heq]
        · exact hlast.2
    rw [List.mem_toFinset, hclass c hc, hiff]
    exact ⟨hback.trans, hto.trans⟩
  · refine ⟨List.mem_toFinset.2 (hmem c hc), fun b hb => ?_⟩
    have hbin := List.mem_toFinset.1 hb
    refine hfirst c hc b hbin ?_
    rcases Relation.ReflTransGen.cases_tail ((hclass c hc b).1 hbin) with heq | ⟨_, -, hlast⟩
    · rw [heq]
      exact hcell (hstarts c hc)
    · exact hcell hlast.2

theorem fillsEnd (mask : Mask) (w h : Nat) (dark : Bool) : FillsEnd mask w h dark := by
  intro cells c later hcells hfresh hdark
  have hcell : ∀ {c}, Filled mask w h dark c → c ∈ cellsOf w h := fun hc => mem_cellsOf.2 ⟨hc.1, hc.2.1⟩
  have hfilled : ∀ {c}, c ∈ cellsOf w h → (mask.at c.1 c.2 == dark) = true → Filled mask w h dark c := fun hc hp =>
    ⟨(mem_cellsOf.1 hc).1, (mem_cellsOf.1 hc).2, beq_iff_eq.1 hp⟩
  exact scan_ends (fun c _ d hd => hcell (mem_neighbours.1 hd).2) (fun c d hd => beq_iff_eq.2 (mem_neighbours.1 hd).2.2.2)
    (fun c hc hp d hd => mem_neighbours.2 ⟨(mem_neighbours.1 hd).1.symm, hfilled hc hp⟩) (cellsOf_length ..).le
    (fun a ha _ => by rw [hcells]; exact List.mem_append_left _ ha) (by rw [hcells]; simp) (beq_iff_eq.2 hdark) hfresh

/-- **`_components` ends, and gives the tight box of each component once, by their first cells.** -/
theorem components_found (mask : Mask) (w h : Nat) (dark : Bool) : FillsEnd mask w h dark ∧
    ∃ found : List ((Nat × Nat) × Finset (Nat × Nat)),
      List.Forall₂ (fun f b => TightBox f.2 b) found (components mask w h dark) ∧ (found.map (·.2)).Nodup ∧
        (∀ comp, comp ∈ found.map (·.2) ↔ ComponentOf (Filled mask w h dark) comp) ∧
        (∀ f ∈ found, FirstCell f.2 f.1) ∧ (found.map (·.1)).Pairwise RowMajor := by
  obtain ⟨classes, hboxes, hnodup, htight, hcomps, hfirst, horder⟩ := components_classes mask w h dark
  refine ⟨fillsEnd mask w h dark, classes.map fun c => (c.1, c.2.toFinset), ?_, ?_, fun comp => ?_, fun f hf => ?_, ?_⟩
  · rw [hboxes, List.forall₂_map_left_iff, List.forall₂_map_right_iff, List.forall₂_same]
    exact htight
  · rw [List.map_map]
    exact hnodup
  · rw [List.map_map]
    exact hcomps comp
  · obtain ⟨c, hc, rfl⟩ := List.mem_map.1 hf
    exact hfirst c hc
  · rw [List.map_map]
    exact horder

end Fill

end Umd.Raster
