import Mathlib
/-!
# Catching up with a log

A fold of steps that may fail, where a step on an item that is in the fold already changes
nothing. What is folded may then be folded again: a fold that begins anywhere in what is there
ends as the fold of the whole log does (`Settles.catchUp`).
-/

namespace Umd.Lib

variable {σ α ε : Type} {f : σ → α → Except ε σ} {init : σ}

/-- A step on an item of the fold changes nothing. -/
def Settles (f : σ → α → Except ε σ) (init : σ) : Prop :=
  ∀ (as : List α) (t : σ), as.foldlM f init = .ok t → ∀ a ∈ as, f t a = .ok t

theorem Settles.again (h : Settles f init) {as bs : List α} {t : σ} (has : as.foldlM f init = .ok t) (hsub : bs ⊆ as) :
    bs.foldlM f t = .ok t := by
  induction bs with
  | nil => rfl
  | cons b bs ih =>
    rw [List.foldlM_cons, h as t has b (hsub List.mem_cons_self)]
    exact ih fun a ha => hsub (List.mem_cons_of_mem _ ha)

/-- **The fold from inside what is folded is the fold of the whole.** -/
theorem Settles.catchUp (h : Settles f init) {low mid post : List α} {t : σ} (ht : (low ++ mid).foldlM f init = .ok t) :
    (mid ++ post).foldlM f t = (low ++ (mid ++ post)).foldlM f init := by
  have hmid : mid.foldlM f t = .ok t := h.again ht (List.subset_append_right _ _)
  rw [List.foldlM_append, hmid, ← List.append_assoc, List.foldlM_append, ht]

end Umd.Lib
