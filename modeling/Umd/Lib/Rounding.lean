import Umd.Lib.Python
/-!
# Rounding

`round` keeps the order (`roundTo_mono`).
-/

namespace Umd.Lib

theorem roundTo_mono (digits : ℕ) {q q' : ℚ} (h : q ≤ q') : roundTo digits q ≤ roundTo digits q' := by
  have hscale : (0 : ℚ) ≤ 10 ^ digits := by positivity
  have hscaled : q * 10 ^ digits ≤ q' * 10 ^ digits := mul_le_mul_of_nonneg_right h hscale
  have hfloor : (q * 10 ^ digits).floor ≤ (q' * 10 ^ digits).floor := Rat.floor_monotone hscaled
  unfold roundTo
  dsimp only
  refine div_le_div_of_nonneg_right (Int.cast_le.2 ?_) hscale
  generalize q * 10 ^ digits = s at hscaled hfloor ⊢
  generalize q' * 10 ^ digits = s' at hscaled hfloor ⊢
  rcases hfloor.lt_or_eq with hlt | heq
  · split_ifs <;> omega
  · rw [← heq]
    -- both are rounded above one whole number, by how far they are from it
    split_ifs with h1 h2 h3 h4 h5 h6 <;> first | omega | (exfalso; linarith)

theorem roundTo_zero (digits : ℕ) : roundTo digits 0 = 0 := by
  have hfloor : (0 : ℚ).floor = 0 := rfl
  unfold roundTo
  rw [zero_mul]
  dsimp only
  rw [hfloor]
  simp

end Umd.Lib
