import Mathlib.Data.List.Basic
import Mathlib.Data.List.Pairwise

/-!
# Numbers that keep a distance

How many of them fit into a window.
-/

namespace Spacing

/-- **Of numbers at least `n` apart** a window of width `w` holds at most `w / n + 1`. -/
theorem length_le {n : ℕ} (hn : 0 < n) {l : List ℕ} (h : l.Pairwise fun a b => a + n ≤ b) (lo w : ℕ)
    (hwindow : ∀ a ∈ l, lo ≤ a ∧ a ≤ lo + w) : l.length ≤ w / n + 1 := by
  induction l generalizing lo w with
  | nil => exact Nat.zero_le _
  | cons a l ih =>
    rw [List.pairwise_cons] at h
    rw [List.forall_mem_cons] at hwindow
    cases l with
    | nil => exact Nat.le_add_left 1 _
    | cons b l =>
      -- the window of the others starts `n` later, and there is one
      have hb := h.1 b List.mem_cons_self
      have hb' := hwindow.2 b List.mem_cons_self
      have hle : n ≤ w := by omega
      have hrest := ih h.2 (lo + n) (w - n) fun x hx => by
        have hx₁ := h.1 x hx
        have hx₂ := hwindow.2 x hx
        omega
      have hdiv : (w - n) / n + 1 = w / n := by
        rw [← Nat.add_div_right _ hn, Nat.sub_add_cancel hle]
      rw [List.length_cons]
      omega

end Spacing
