import Mathlib.Data.Nat.ModEq

/-!
# Wrapping sequence counters

A 64-bit counter that is counted up from 0 stands for the number of times it was counted up, of which
it has the low bits. As long as two counters are not too far apart, their wrapped difference and
their comparison are those of the numbers. Masked with a power of two less one, a counter is an index
into a ring; the numbers of a window that is not wider than the ring have different indices.
-/

namespace SequenceCounter

theorem toNat_sub {r w : ℕ} (hle : r ≤ w) (hlt : w - r < 2 ^ 64) :
    (UInt64.ofNat w - UInt64.ofNat r).toNat = w - r := by
  rw [← UInt64.ofNat_sub hle, UInt64.toNat_ofNat', Nat.mod_eq_of_lt hlt]

theorem toNat_sub_overrun {r w : ℕ} (hle : w ≤ r) :
    (UInt64.ofNat w - UInt64.ofNat r).toNat = (2 ^ 64 - (r - w) % 2 ^ 64) % 2 ^ 64 := by
  rw [UInt64.toNat_sub, UInt64.toNat_ofNat', UInt64.toNat_ofNat']
  omega

theorem ofNat_inj {r w : ℕ} (hle : r ≤ w) (hlt : w - r < 2 ^ 64) :
    UInt64.ofNat r = UInt64.ofNat w ↔ r = w := by
  constructor
  · intro h
    have hsub := toNat_sub hle hlt
    rw [h, UInt64.sub_self] at hsub
    change 0 = w - r at hsub
    omega
  · exact congrArg _

theorem ofNat_succ (n : ℕ) : UInt64.ofNat n + 1 = UInt64.ofNat (n + 1) :=
  (UInt64.ofNat_add n 1).symm

theorem toNat_and_mask {size : ℕ} (hpow : size.isPowerOfTwo) (hlt : size < 2 ^ 64) (n : ℕ) :
    (UInt64.ofNat n &&& UInt64.ofNat (size - 1)).toNat = n % size := by
  obtain ⟨k, rfl⟩ := hpow
  have hk : k < 64 := (Nat.pow_lt_pow_iff_right (by decide)).mp hlt
  rw [UInt64.toNat_and, UInt64.toNat_ofNat', UInt64.toNat_ofNat',
    Nat.mod_eq_of_lt (a := 2 ^ k - 1) (by omega), Nat.and_two_pow_sub_one_eq_mod]
  exact Nat.mod_mod_of_dvd n (Nat.pow_dvd_pow 2 hk.le)

theorem mod_ne {size i j : ℕ} (hlt : i < j) (hwindow : j < i + size) : i % size ≠ j % size := by
  intro h
  have hdvd : size ∣ j - i := (Nat.modEq_iff_dvd' hlt.le).mp h
  have := Nat.le_of_dvd (by omega) hdvd
  omega

end SequenceCounter
