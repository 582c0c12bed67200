import Mathlib.Algebra.Order.BigOperators.Group.List
import Mathlib.Algebra.BigOperators.Ring.List
import Mathlib.Algebra.Order.Field.Basic
import Mathlib.Algebra.GroupWithZero.Nat

/-!
# Weighted means

The mean of some values under positive weights lies between the values.
-/

namespace WeightedMean

variable {α K : Type*} [Field K] [LinearOrder K] [IsStrictOrderedRing K] {l : List α} {f w : α → K}

/-- The mean of the values under the weights. -/
def mean (f w : α → K) (l : List α) : K := (l.map fun a => f a * w a).sum / (l.map w).sum

theorem sum_weights_pos (hne : l ≠ []) (hw : ∀ a ∈ l, 0 < w a) : 0 < (l.map w).sum := by
  apply List.sum_pos
  · rw [List.forall_mem_map]
    exact hw
  · simpa using hne

theorem sum_mul_eq (hne : l ≠ []) (hw : ∀ a ∈ l, 0 < w a) :
    (l.map fun a => f a * w a).sum = (l.map fun a => mean f w l * w a).sum := by
  rw [List.sum_map_mul_left, mean, div_mul_cancel₀ _ (sum_weights_pos hne hw).ne']

theorem exists_le_mean (hne : l ≠ []) (hw : ∀ a ∈ l, 0 < w a) : ∃ a ∈ l, f a ≤ mean f w l := by
  obtain ⟨a, ha, hle⟩ := List.exists_le_of_sum_le hne _ _ (sum_mul_eq (f := f) hne hw).le
  exact ⟨a, ha, le_of_mul_le_mul_right hle (hw a ha)⟩

theorem exists_mean_le (hne : l ≠ []) (hw : ∀ a ∈ l, 0 < w a) : ∃ a ∈ l, mean f w l ≤ f a := by
  obtain ⟨a, ha, hle⟩ := List.exists_le_of_sum_le hne _ _ (sum_mul_eq (f := f) hne hw).ge
  exact ⟨a, ha, le_of_mul_le_mul_right hle (hw a ha)⟩

end WeightedMean
