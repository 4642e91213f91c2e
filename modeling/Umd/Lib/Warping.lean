import Mathlib
/-!
# Warping paths

Paths through a table of distances, from its first cell to another by diagonal moves and
moves along one side. The recursion of dynamic time warping gives the least total of such
a path (`best_le_total`); a table with a border that adds up has the same values one cell
further on (`padded_eq_best`), as long as no distance is negative.
-/

namespace Umd.Lib.Warping

/-- A move of `(1, 1)`, `(1, 0)` or `(0, 1)`. -/
def Move (p q : ℕ × ℕ) : Prop := q = (p.1 + 1, p.2 + 1) ∨ q = (p.1 + 1, p.2) ∨ q = (p.1, p.2 + 1)

/-- A path by moves from the first cell to the cell `(i, j)`. -/
structure Warps (i j : ℕ) (path : List (ℕ × ℕ)) : Prop where
  starts : path.head? = some (0, 0)
  ends : path.getLast? = some (i, j)
  moves : path.IsChain Move

theorem warps_one : Warps 0 0 [(0, 0)] := ⟨rfl, rfl, List.isChain_singleton _⟩

theorem Warps.snoc {i j : ℕ} {path : List (ℕ × ℕ)} (h : Warps i j path) {q : ℕ × ℕ} (hq : Move (i, j) q) :
    Warps q.1 q.2 (path ++ [q]) := by
  refine ⟨?_, by simp, ?_⟩
  · rw [List.head?_append, h.starts]
    rfl
  · rw [List.isChain_append]
    refine ⟨h.moves, List.isChain_singleton _, fun p hp r hr => ?_⟩
    rw [h.ends] at hp
    cases hp
    cases hr
    exact hq

/-- A path that has moved. -/
theorem Warps.of_snoc {i j : ℕ} {path : List (ℕ × ℕ)} {q : ℕ × ℕ} (h : Warps i j (path ++ [q])) (hne : path ≠ []) :
    q = (i, j) ∧ ∃ p, Warps p.1 p.2 path ∧ Move p q := by
  obtain ⟨hstart, hend, hmoves⟩ := h
  rw [List.isChain_append] at hmoves
  have hlast := List.getLast?_eq_getLast_of_ne_nil hne
  refine ⟨by simpa using hend, path.getLast hne, ⟨?_, hlast, hmoves.1⟩, hmoves.2.2 _ hlast _ rfl⟩
  cases path with
  | nil => exact absurd rfl hne
  | cons p path => exact hstart

section
variable {α : Type} [AddCommMonoid α]

/-- The sum of the distances on a path. -/
def total (d : ℕ → ℕ → α) (path : List (ℕ × ℕ)) : α := (path.map fun p => d p.1 p.2).sum

theorem total_snoc (d : ℕ → ℕ → α) (path : List (ℕ × ℕ)) (q : ℕ × ℕ) : total d (path ++ [q]) = total d path + d q.1 q.2 := by
  simp [total]

variable [LinearOrder α]

/-- The least total of a path to a cell. -/
def best (d : ℕ → ℕ → α) : ℕ → ℕ → α
  | 0, 0 => d 0 0
  | i + 1, 0 => best d i 0 + d (i + 1) 0
  | 0, j + 1 => best d 0 j + d 0 (j + 1)
  | i + 1, j + 1 => d (i + 1) (j + 1) + min (min (best d i j) (best d i (j + 1))) (best d (i + 1) j)
termination_by i j => i + j

/-- The table with a row and a column in front, which add up. -/
def padded (d : ℕ → ℕ → α) : ℕ → ℕ → α
  | 0, 0 => 0
  | i + 1, 0 => padded d i 0 + d i 0
  | 0, j + 1 => padded d 0 j + d 0 j
  | i + 1, j + 1 => d i j + min (min (padded d i j) (padded d i (j + 1))) (padded d (i + 1) j)
termination_by i j => i + j

variable [IsOrderedAddMonoid α] {d : ℕ → ℕ → α}

theorem best_move {p q : ℕ × ℕ} (h : Move p q) : best d q.1 q.2 ≤ best d p.1 p.2 + d q.1 q.2 := by
  obtain ⟨i, j⟩ := p
  rcases h with rfl | rfl | rfl
  · rw [best, add_comm]
    exact add_le_add_left ((min_le_left _ _).trans (min_le_left _ _)) _
  · cases j with
    | zero => exact le_of_eq (by rw [best])
    | succ j =>
      rw [best, add_comm]
      exact add_le_add_left ((min_le_left _ _).trans (min_le_right _ _)) _
  · cases i with
    | zero => exact le_of_eq (by rw [best])
    | succ i =>
      rw [best, add_comm]
      exact add_le_add_left (min_le_right _ _) _

/-- **No path to a cell has a smaller total.** -/
theorem best_le_total {i j : ℕ} {path : List (ℕ × ℕ)} (h : Warps i j path) : best d i j ≤ total d path := by
  induction path using List.reverseRecOn generalizing i j with
  | nil => cases h.starts
  | append_singleton path q ih =>
    rcases List.eq_nil_or_concat path with rfl | hne
    · obtain ⟨hstart, hend, -⟩ := h
      cases hstart
      cases hend
      exact le_of_eq (by simp [total, best])
    · obtain ⟨init, p, rfl⟩ := hne
      obtain ⟨rfl, p, hp, hmove⟩ := h.of_snoc (by simp)
      rw [total_snoc]
      exact (best_move hmove).trans (add_le_add_left (ih hp) _)

theorem best_border (hd : ∀ i j, 0 ≤ d i j) (k : ℕ) : best d k 0 ≤ best d (k + 1) 0 ∧ best d 0 k ≤ best d 0 (k + 1) := by
  rw [best, best]
  exact ⟨le_add_of_nonneg_right (hd _ _), le_add_of_nonneg_right (hd _ _)⟩

/-- **One cell further on, and on the border itself, the padded table has the least totals.** -/
theorem padded_eq_best (hd : ∀ i j, 0 ≤ d i j) (i j : ℕ) (hne : i ≠ 0 ∨ j ≠ 0) : padded d i j = best d (i - 1) (j - 1) := by
  fun_induction padded d i j with
  | case1 => simp at hne
  | case2 i ih =>
    cases i with
    | zero => simp [padded, best]
    | succ i =>
      rw [ih (.inl (Nat.succ_ne_zero i))]
      change best d i 0 + d (i + 1) 0 = best d (i + 1) 0
      conv_rhs => rw [best]
  | case3 j ih =>
    cases j with
    | zero => simp [padded, best]
    | succ j =>
      rw [ih (.inr (Nat.succ_ne_zero j))]
      change best d 0 j + d 0 (j + 1) = best d 0 (j + 1)
      conv_rhs => rw [best]
  | case4 i j ih₁ ih₂ ih₃ =>
    rw [ih₂ (.inr (Nat.succ_ne_zero j)), ih₃ (.inl (Nat.succ_ne_zero i)), Nat.add_sub_cancel, Nat.add_sub_cancel]
    cases i with
    | zero =>
      cases j with
      | zero => simp [padded, best, hd]
      | succ j =>
        rw [ih₁ (.inr (Nat.succ_ne_zero j)), Nat.add_sub_cancel, Nat.zero_sub, min_eq_left (best_border hd j).2, min_self, add_comm]
        conv_rhs => rw [best]
    | succ i =>
      cases j with
      | zero =>
        rw [ih₁ (.inl (Nat.succ_ne_zero i)), Nat.add_sub_cancel, Nat.zero_sub, min_self, min_eq_left (best_border hd i).1, add_comm]
        conv_rhs => rw [best]
      | succ j =>
        rw [ih₁ (.inl (Nat.succ_ne_zero i)), Nat.add_sub_cancel, Nat.add_sub_cancel]
        conv_rhs => rw [best]

/-- A border only grows. -/
theorem padded_border (hd : ∀ i j, 0 ≤ d i j) (k : ℕ) : padded d k 0 ≤ padded d (k + 1) 0 ∧ padded d 0 k ≤ padded d 0 (k + 1) := by
  rw [padded, padded]
  exact ⟨le_add_of_nonneg_right (hd _ _), le_add_of_nonneg_right (hd _ _)⟩

end

end Umd.Lib.Warping
