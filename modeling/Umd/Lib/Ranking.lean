import Mathlib
/-!
# The first greatest of a list

`firstMax lt xs` is the first element of `xs` that none comes above, as Python's
`max` picks it; `lt` need not be a total order.
-/

namespace Umd.Lib

variable {α : Type}

/-- The first of the greatest elements. -/
def firstMax (lt : α → α → Bool) : List α → Option α
  | [] => none
  | x :: xs => some (xs.foldl (fun best y => if lt best y then y else best) x)

theorem firstMax_isSome {lt : α → α → Bool} {xs : List α} (h : xs ≠ []) : ∃ m, firstMax lt xs = some m := by
  cases xs with
  | nil => exact absurd rfl h
  | cons x xs => exact ⟨_, rfl⟩

theorem firstMax_mem {lt : α → α → Bool} {xs : List α} {m : α} (h : firstMax lt xs = some m) : m ∈ xs := by
  have hfold : ∀ (ys : List α) (x : α), ys.foldl (fun best y => if lt best y then y else best) x ∈ x :: ys := by
    intro ys
    induction ys with
    | nil => exact fun x => List.mem_singleton_self x
    | cons y ys ih =>
      intro x
      rw [List.foldl_cons]
      split
      · exact List.mem_cons_of_mem _ (ih y)
      · rcases List.mem_cons.1 (ih x) with he | hm
        · rw [he]
          exact List.mem_cons_self
        · exact List.mem_cons_of_mem _ (List.mem_cons_of_mem _ hm)
  cases xs with
  | nil => cases h
  | cons x xs =>
    cases h
    exact hfold xs x

section Keys

variable {β : Type} [LinearOrder β] {key : α → β} {lt : α → α → Bool}

/-- Where `lt` compares keys of a linear order, it is the first with the greatest key. -/
theorem firstMax_eq_argmax (hlt : ∀ x y, lt x y = true ↔ key x < key y) (xs : List α) : firstMax lt xs = xs.argmax key := by
  have hfold : ∀ (ys : List α) (x : α), some (ys.foldl (fun best y => if lt best y then y else best) x) =
      ys.foldl (List.argAux fun b c => key c < key b) (some x) := by
    intro ys
    induction ys with
    | nil => exact fun _ => rfl
    | cons y ys ih =>
      intro x
      rw [List.foldl_cons, List.foldl_cons, ih]
      congr 1
      by_cases hxy : key x < key y
      · rw [if_pos ((hlt x y).2 hxy)]
        exact (if_pos hxy).symm
      · rw [if_neg fun hl => hxy ((hlt x y).1 hl)]
        exact (if_neg hxy).symm
  cases xs with
  | nil => rfl
  | cons x xs => exact hfold xs x

/-- None comes above it. -/
theorem firstMax_le (hlt : ∀ x y, lt x y = true ↔ key x < key y) {xs : List α} {m : α} (h : firstMax lt xs = some m) :
    ∀ y ∈ xs, key y ≤ key m := by
  rw [firstMax_eq_argmax hlt] at h
  exact fun y hy => List.le_of_mem_argmax hy h

end Keys

end Umd.Lib
