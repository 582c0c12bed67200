import Mathlib.Algebra.BigOperators.Group.List.Basic
import Mathlib.Tactic.NormNum

/-!
# 64-bit integers

`Price` and `Quantity` are `int64_t`s. Where a model computes with `Int64` its operations wrap
around. Wrapping is a ring homomorphism, so a result is right exactly when it fits, whatever was
added up on the way to it (`sumFrom_ofInt`).
-/

namespace HftSdk

namespace Machine

/-- An `int64_t` holds the number. -/
def Fits (x : Int) : Prop := -2 ^ 63 ≤ x ∧ x < 2 ^ 63

instance (x : Int) : Decidable (Fits x) := by
  unfold Fits
  infer_instance

theorem toInt_ofInt_iff {x : Int} : (Int64.ofInt x).toInt = x ↔ Fits x := by
  constructor
  · intro h
    rw [← h]
    exact ⟨Int64.le_toInt _, Int64.toInt_lt _⟩
  · rintro ⟨hlo, hhi⟩
    exact Int64.toInt_ofInt_of_le hlo hhi

/-! ## Comparisons -/

theorem pos_iff {a : Int64} : 0 < a ↔ 0 < a.toInt := Int64.lt_iff_toInt_lt

theorem ofInt_le_iff {x : Int} (hx : Fits x) {a : Int64} : .ofInt x ≤ a ↔ x ≤ a.toInt := by
  rw [Int64.le_iff_toInt_le, toInt_ofInt_iff.mpr hx]

theorem le_ofInt_iff {x : Int} (hx : Fits x) {a : Int64} : a ≤ .ofInt x ↔ a.toInt ≤ x := by
  rw [Int64.le_iff_toInt_le, toInt_ofInt_iff.mpr hx]

theorem lt_ofInt_iff {x : Int} (hx : Fits x) {a : Int64} : a < .ofInt x ↔ a.toInt < x := by
  rw [Int64.lt_iff_toInt_lt, toInt_ofInt_iff.mpr hx]

/-! ## Out of the range -/

theorem toInt_ofInt_cases {x : Int} (hlo : -2 ^ 64 < x) (hhi : x < 2 ^ 64) :
    (Int64.ofInt x).toInt =
      if x < -2 ^ 63 then x + 2 ^ 64 else if x < 2 ^ 63 then x else x - 2 ^ 64 := by
  rw [Int64.toInt_ofInt, Int.bmod_def, Int64.size]
  norm_num at hlo hhi ⊢
  split_ifs <;> omega

theorem toInt_ofInt_turns (x : Int) : ∃ k, (Int64.ofInt x).toInt = x - k * 2 ^ 64 := by
  refine ⟨x.bdiv (2 ^ 64), ?_⟩
  have h := Int.bmod_add_bdiv x (2 ^ 64)
  rw [Int64.toInt_ofInt, Int64.size]
  push_cast at h ⊢
  omega

/-! ## Running totals -/

/-- The loop `total += q`. -/
def sumFrom (total : Int64) (qs : List Int64) : Int64 := qs.foldl (· + ·) total

/-- **A running total** is the exact one, wrapped around. -/
theorem sumFrom_ofInt (t : Int) (qs : List Int) :
    sumFrom (.ofInt t) (qs.map Int64.ofInt) = .ofInt (t + qs.sum) := by
  induction qs generalizing t with
  | nil =>
    rw [List.sum_nil, Int.add_zero]
    rfl
  | cons q qs ih =>
    have hstep : sumFrom (.ofInt t) ((q :: qs).map Int64.ofInt) =
        sumFrom (.ofInt (t + q)) (qs.map Int64.ofInt) := by
      rw [Int64.ofInt_add]
      rfl
    rw [hstep, ih, List.sum_cons, Int.add_assoc]

theorem toInt_ofInt_le {x : Int} (h : 0 ≤ x) : (Int64.ofInt x).toInt ≤ x := by
  rw [Int64.toInt_ofInt, Int.bmod_def, Int64.size]
  split_ifs <;> omega

theorem toInt_ofInt_eq_iff_lt {x : Int} (h : 0 ≤ x) : (Int64.ofInt x).toInt = x ↔ x < 2 ^ 63 := by
  rw [toInt_ofInt_iff]
  exact and_iff_right (by omega)

/-! ## Truncating division -/

theorem tdiv_le {n d hi : Int} (hd : 0 < d) (h : n ≤ hi * d) : n.tdiv d ≤ hi :=
  calc n.tdiv d ≤ (hi * d).tdiv d := Int.tdiv_le_tdiv hd h
    _ = hi := Int.mul_tdiv_cancel hi hd.ne'

theorem lt_of_le_tdiv {n d lo : Int} (hd : 0 < d) (h : lo ≤ n.tdiv d) : (lo - 1) * d < n := by
  by_contra hle
  have := tdiv_le hd (not_lt.mp hle)
  omega

theorem lt_of_tdiv_le {n d hi : Int} (hd : 0 < d) (h : n.tdiv d ≤ hi) : n < (hi + 1) * d := by
  by_contra hle
  have := Int.le_tdiv_of_mul_le hd (not_lt.mp hle)
  omega

theorem toInt_div_of_pos (n : Int64) {d : Int64} (hd : 0 < d.toInt) :
    (n / d).toInt = n.toInt.tdiv d.toInt := by
  apply Int64.toInt_div_of_ne_right
  rintro rfl
  exact absurd hd (by decide)

end Machine

end HftSdk
