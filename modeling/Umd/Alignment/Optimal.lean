import Umd.Alignment.Accounted
import Umd.Lib.Warping
/-!
# The DTW path has the least total

In exact arithmetic and with no negative distance, the way back through the cost table is a
warping path, and no other has a smaller total (`dtw_optimal`). The border of the table
adds up, so the way back never runs along it before it must: a tie is taken diagonally.
-/

namespace Umd.Alignment

open PyFloat Umd.Lib.Warping

/-- Floats without rounding. -/
class ExactFloat (F : Type) [PyFloat F] [AddCommMonoid F] [LinearOrder F] : Prop where
  lit_zero : (lit 0 : F) = 0
  add_eq : ∀ a b : F, PyFloat.add a b = a + b
  lt_eq : ∀ a b : F, PyFloat.lt a b = decide (a < b)
  eq_eq : ∀ a b : F, PyFloat.eq a b = decide (a = b)

instance : ExactFloat ℚ where
  lit_zero := rfl
  add_eq _ _ := rfl
  lt_eq _ _ := rfl
  eq_eq _ _ := rfl

section
variable {F : Type} [PyFloat F] [AddCommMonoid F] [LinearOrder F] [ExactFloat F]

theorem pyMin_eq (a b : F) : pyMin a b = min a b := by
  unfold pyMin
  rw [ExactFloat.lt_eq]
  by_cases h : b < a
  · simp [h, min_eq_right h.le]
  · simp [h, min_eq_left (not_lt.1 h)]

variable {d : List (List F)} {n m : Nat} {δ : ℕ → ℕ → F}

/-- The cost table is the padded table of the distances. -/
theorem cost_padded (hcell : ∀ i < n, ∀ j < m, cell d i j = .ok (δ i j)) (hn : 0 < n) (hm : 0 < m) :
    ∀ i j, i ≤ n → j ≤ m → cost d i j = .ok (padded δ i j) := by
  intro i j
  fun_induction cost d i j with
  | case1 =>
    intro _ _
    rw [padded, ExactFloat.lit_zero]
  | case2 i ih =>
    intro hi hj
    rw [ih (by omega) hj, hcell i (by omega) 0 hm, padded]
    simp only [bind, Except.bind, pure, Except.pure, ExactFloat.add_eq]
  | case3 j ih =>
    intro hi hj
    rw [ih hi (by omega), hcell 0 hn j (by omega), padded]
    simp only [bind, Except.bind, pure, Except.pure, ExactFloat.add_eq]
  | case4 i j ih₁ ih₂ ih₃ =>
    intro hi hj
    rw [ih₁ (by omega) (by omega), ih₂ (by omega) hj, ih₃ hi (by omega), hcell i (by omega) j (by omega), padded]
    simp only [bind, Except.bind, pure, Except.pure, pyMin_eq, ExactFloat.add_eq]

variable [IsOrderedAddMonoid F]

/-- A path to a cell, of the least total. -/
def Least (δ : ℕ → ℕ → F) (i j : ℕ) (path : List (ℕ × ℕ)) : Prop := Warps i j path ∧ total δ path = best δ i j

omit [PyFloat F] [ExactFloat F] [IsOrderedAddMonoid F] in
/-- One more move on a least path, where the recursion takes it. -/
theorem Least.snoc {i j : ℕ} {path : List (ℕ × ℕ)} (h : Least δ i j path) {q : ℕ × ℕ} (hmove : Move (i, j) q)
    (hbest : best δ q.1 q.2 = best δ i j + δ q.1 q.2) : Least δ q.1 q.2 (path ++ [q]) :=
  ⟨h.1.snoc hmove, by rw [total_snoc, h.2, hbest]⟩

/-- The way back from any cell but the corner is a least path to the cell before it. -/
theorem walk_least (hd : ∀ i j, 0 ≤ δ i j) (hcell : ∀ i < n, ∀ j < m, cell d i j = .ok (δ i j)) (hn : 0 < n) (hm : 0 < m) :
    ∀ i j path, i ≤ n → j ≤ m → i ≠ 0 ∨ j ≠ 0 →
      ∃ front, walk d i j path = .ok (front ++ path) ∧ Least δ (i - 1) (j - 1) front := by
  have hcorner : Least δ 0 0 [(0, 0)] := ⟨warps_one, by simp [total, best]⟩
  intro i j path
  fun_induction walk d i j path with
  | case1 path => exact fun _ _ h => by simp at h
  | case2 i path ih =>
    intro hi hj _
    cases i with
    | zero => exact ⟨[(0, 0)], by rw [walk]; rfl, hcorner⟩
    | succ i =>
      obtain ⟨front, hwalk, hleast⟩ := ih (by omega) hj (.inl (Nat.succ_ne_zero i))
      refine ⟨front ++ [(i + 1, 0)], by rw [hwalk, List.append_assoc]; rfl, ?_⟩
      exact hleast.snoc (.inr (.inl rfl)) (by rw [best])
  | case3 j path ih =>
    intro hi hj _
    cases j with
    | zero => exact ⟨[(0, 0)], by rw [walk]; rfl, hcorner⟩
    | succ j =>
      obtain ⟨front, hwalk, hleast⟩ := ih hi (by omega) (.inr (Nat.succ_ne_zero j))
      refine ⟨front ++ [(0, j + 1)], by rw [hwalk, List.append_assoc]; rfl, ?_⟩
      exact hleast.snoc (.inr (.inr rfl)) (by rw [best])
  | case4 i j path ih₁ ih₂ ih₃ =>
    intro hi hj _
    have hwhole : best δ i j = δ i j + min (min (padded δ i j) (padded δ i (j + 1))) (padded δ (i + 1) j) := by
      have hpadded := padded_eq_best hd (i + 1) (j + 1) (.inl (Nat.succ_ne_zero i))
      rw [padded] at hpadded
      exact hpadded.symm
    rw [cost_padded hcell hn hm i j (by omega) (by omega), cost_padded hcell hn hm i (j + 1) (by omega) hj,
      cost_padded hcell hn hm (i + 1) j hi (by omega)]
    simp only [bind, Except.bind, pyMin_eq, ExactFloat.eq_eq, decide_eq_true_eq]
    split
    · rename_i hdiagonal
      rw [hdiagonal] at hwhole
      by_cases hzero : i = 0 ∧ j = 0
      · obtain ⟨rfl, rfl⟩ := hzero
        exact ⟨[(0, 0)], by rw [walk]; rfl, hcorner⟩
      · have hne : i ≠ 0 ∨ j ≠ 0 := by omega
        obtain ⟨front, hwalk, hleast⟩ := ih₁ (by omega) (by omega) hne
        have hmove : Move (i - 1, j - 1) (i, j) := by
          simp only [Move, Prod.mk.injEq]
          omega
        refine ⟨front ++ [(i, j)], by rw [hwalk, List.append_assoc]; rfl, ?_⟩
        exact hleast.snoc hmove (by rw [hwhole, padded_eq_best hd i j hne, add_comm])
    · rename_i hdiagonal
      split
      · rename_i hup
        rw [hup] at hwhole
        -- into the first row the diagonal is no worse
        have hne : i ≠ 0 := by
          rintro rfl
          refine hdiagonal (le_antisymm ((min_le_left _ _).trans (min_le_left _ _)) ?_)
          rw [hup]
          exact (padded_border hd j).2
        obtain ⟨front, hwalk, hleast⟩ := ih₂ (by omega) hj (.inl hne)
        have hmove : Move (i - 1, j) (i, j) := .inr (.inl (by simp [Nat.sub_add_cancel (Nat.one_le_iff_ne_zero.2 hne)]))
        refine ⟨front ++ [(i, j)], by rw [hwalk, List.append_assoc]; rfl, ?_⟩
        exact hleast.snoc hmove (by rw [hwhole, padded_eq_best hd i (j + 1) (.inl hne), add_comm])
      · rename_i hup
        have hside : min (min (padded δ i j) (padded δ i (j + 1))) (padded δ (i + 1) j) = padded δ (i + 1) j := by
          rcases min_choice (min (padded δ i j) (padded δ i (j + 1))) (padded δ (i + 1) j) with h | h
          · rcases min_choice (padded δ i j) (padded δ i (j + 1)) with h' | h'
            · exact absurd (h.trans h') hdiagonal
            · exact absurd (h.trans h') hup
          · exact h
        rw [hside] at hwhole
        have hne : j ≠ 0 := by
          rintro rfl
          refine hdiagonal (le_antisymm ((min_le_left _ _).trans (min_le_left _ _)) ?_)
          rw [hside]
          exact (padded_border hd i).1
        obtain ⟨front, hwalk, hleast⟩ := ih₃ hi (by omega) (.inr hne)
        have hmove : Move (i, j - 1) (i, j) := .inr (.inr (by simp [Nat.sub_add_cancel (Nat.one_le_iff_ne_zero.2 hne)]))
        refine ⟨front ++ [(i, j)], by rw [hwalk, List.append_assoc]; rfl, ?_⟩
        exact hleast.snoc hmove (by rw [hwhole, padded_eq_best hd (i + 1) j (.inr hne), add_comm])

/-- `distance(left[i], right[j])`, and nothing beyond the lists. -/
def distanceAt (left right : List (AlignableUnit F)) (distance : AlignableUnit F → AlignableUnit F → F) (i j : ℕ) : F :=
  match left[i]?, right[j]? with
  | some l, some r => distance l r
  | _, _ => 0

variable {left right : List (AlignableUnit F)} {distance : AlignableUnit F → AlignableUnit F → F}

omit [LinearOrder F] [IsOrderedAddMonoid F] [ExactFloat F] [PyFloat F] in
theorem cell_distanceAt {i j : ℕ} (hi : i < left.length) (hj : j < right.length) :
    cell (left.map fun l => right.map fun r => distance l r) i j = .ok (distanceAt left right distance i j) := by
  simp [cell, distanceAt, List.getElem?_map, List.getElem?_eq_getElem hi, List.getElem?_eq_getElem hj]

/-- **The path is a warping path from the first units to the last ones that visits every unit, and no warping path has a
smaller total.** -/
theorem dtw_optimal (hl : left ≠ []) (hr : right ≠ []) (hd : ∀ l ∈ left, ∀ r ∈ right, 0 ≤ distance l r) :
    ∃ path, dtwPath left right distance = .ok path ∧ Warps (left.length - 1) (right.length - 1) path ∧
      (∀ i < left.length, ∃ j, (i, j) ∈ path) ∧ (∀ j < right.length, ∃ i, (i, j) ∈ path) ∧
      ∀ path', Warps (left.length - 1) (right.length - 1) path' →
        total (distanceAt left right distance) path ≤ total (distanceAt left right distance) path' := by
  have hn : 0 < left.length := List.length_pos_iff.2 hl
  have hm : 0 < right.length := List.length_pos_iff.2 hr
  have hpos : ∀ i j, 0 ≤ distanceAt left right distance i j := by
    intro i j
    unfold distanceAt
    split
    · rename_i l r hleft hright
      exact hd l (List.mem_of_getElem? hleft) r (List.mem_of_getElem? hright)
    · exact le_rfl
  have hcell : ∀ i < left.length, ∀ j < right.length, cell (left.map fun l => right.map fun r => distance l r) i j =
      .ok (distanceAt left right distance i j) := fun i hi j hj => cell_distanceAt hi hj
  obtain ⟨front, hwalk, hleast⟩ := walk_least hpos hcell hn hm left.length right.length [] le_rfl le_rfl (.inl hn.ne')
  rw [List.append_nil] at hwalk
  have hpath : dtwPath left right distance = .ok front := by
    unfold dtwPath
    dsimp only
    rw [cost_padded hcell hn hm _ 0 le_rfl (Nat.zero_le _), cost_padded hcell hn hm 0 _ (Nat.zero_le _) le_rfl,
      cost_padded hcell hn hm _ _ le_rfl le_rfl]
    exact hwalk
  have hcovers : Covers left.length right.length front := by
    rcases @dtwPath_iff F _ left right distance with ⟨-, path, hok, hcovers⟩ | ⟨-, herror⟩
    · cases hpath.symm.trans hok
      exact hcovers
    · rw [hpath] at herror
      cases herror
  refine ⟨front, hpath, hleast.1, hcovers.left, hcovers.right, fun path' hwarps => ?_⟩
  rw [hleast.2]
  exact best_le_total hwarps

end

theorem timecodeDistance_nonneg (a b : AlignableUnit ℚ) : 0 ≤ timecodeDistance a b :=
  show 0 ≤ max (a.mid - b.mid) (-(a.mid - b.mid)) from abs_nonneg _

/-- One unit on the left, and two on the right. -/
def oneLeft : List (AlignableUnit ℚ) := [⟨"L:1", 0, 1, "", []⟩]

def twoRight : List (AlignableUnit ℚ) := [⟨"R:1", 0, 1, "", []⟩, ⟨"R:2", 1, 2, "", []⟩]

theorem dtw_optimal_two : ∃ path, dtwPath oneLeft twoRight timecodeDistance = .ok path ∧ Warps 0 1 path :=
  let ⟨path, hpath, hwarps, _⟩ := dtw_optimal (by simp [oneLeft]) (by simp [twoRight]) fun l _ r _ => timecodeDistance_nonneg l r
  ⟨path, hpath, hwarps⟩

end Umd.Alignment
