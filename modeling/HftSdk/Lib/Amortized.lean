import Mathlib.Algebra.BigOperators.Group.Finset.Basic
import Mathlib.Algebra.Order.BigOperators.Group.Finset
import Mathlib.Data.Fintype.BigOperators

/-!
# Amortised costs

A step of a run costs something, is given some credit, and changes a potential. When no step costs
more than its credit and what the potential drops by, a whole run costs no more than its credit and
the potential that it starts with (`total_le`). The potential of a system of many parties is the sum
of theirs; in a step of one party the others may lose a little too (`sum_le_of_one_moves`).
-/

namespace Run

variable {σ α : Type*} (step : σ → α → σ)

/-- What the steps of a run come to. -/
def total (cost : σ → α → Nat) : σ → List α → Nat
  | _, [] => 0
  | s, a :: as => cost s a + total cost (step s a) as

variable {step} {cost cost' credit : σ → α → Nat}

theorem total_add (s : σ) (as : List α) :
    total step (fun s a => cost s a + cost' s a) s as =
      total step cost s as + total step cost' s as := by
  induction as generalizing s with
  | nil => rfl
  | cons a as ih =>
    rw [total, total, total, ih]
    omega

theorem total_mul (k : Nat) (s : σ) (as : List α) :
    total step (fun s a => k * cost s a) s as = k * total step cost s as := by
  induction as generalizing s with
  | nil => rfl
  | cons a as ih => rw [total, total, ih, Nat.mul_add]

/-- **The accounting rule.** -/
theorem total_le (potential : σ → Nat)
    (hstep : ∀ s a, cost s a + potential (step s a) ≤ potential s + credit s a) (s : σ)
    (as : List α) :
    total step cost s as + potential (as.foldl step s) ≤ potential s + total step credit s as := by
  induction as generalizing s with
  | nil => exact (Nat.zero_add _).le
  | cons a as ih =>
    have hone := hstep s a
    have hrest := ih (step s a)
    rw [total, total, List.foldl_cons]
    omega

theorem sum_le_of_one_moves {ι : Type*} [Fintype ι] [DecidableEq ι] {f g : ι → Nat} (i : ι)
    {c d k : Nat} (hmoves : c + g i + (Fintype.card ι - 1) * k ≤ f i + d)
    (hother : ∀ j ≠ i, g j ≤ f j + k) : c + ∑ j, g j ≤ ∑ j, f j + d := by
  have hrest : ∑ j ∈ Finset.univ.erase i, g j ≤
      ∑ j ∈ Finset.univ.erase i, f j + (Fintype.card ι - 1) * k := by
    calc ∑ j ∈ Finset.univ.erase i, g j
        ≤ ∑ j ∈ Finset.univ.erase i, (f j + k) :=
          Finset.sum_le_sum fun j hj => hother j (Finset.ne_of_mem_erase hj)
      _ = ∑ j ∈ Finset.univ.erase i, f j + (Fintype.card ι - 1) * k := by
          rw [Finset.sum_add_distrib, Finset.sum_const, Nat.nsmul_eq_mul,
            Finset.card_erase_of_mem (Finset.mem_univ i), Finset.card_univ]
  rw [← Finset.add_sum_erase _ g (Finset.mem_univ i), ← Finset.add_sum_erase _ f (Finset.mem_univ i)]
  omega

end Run
