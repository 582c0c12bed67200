import Mathlib.Data.List.Basic
import Mathlib.Data.Nat.Digits.Defs

/-!
# Mixing words

The steps of which the finalizers of hash functions are made lose nothing: folding a word onto its
lower half, multiplying it by a number that has an inverse, and reading it from its bytes.
-/

namespace WordMix

variable {w : Nat}

/-- A word folded onto its lower bits. -/
def fold (k : Nat) (x : BitVec w) : BitVec w := x ^^^ (x >>> k)

/-- **Folding by half or more** undoes itself. -/
theorem fold_fold {k : Nat} (hk : w ≤ 2 * k) (x : BitVec w) : fold k (fold k x) = x := by
  have htwice : x >>> k >>> k = 0#w := by
    rw [← BitVec.shiftRight_add]
    exact BitVec.ushiftRight_eq_zero (by omega)
  unfold fold
  rw [BitVec.ushiftRight_xor_distrib, htwice, BitVec.xor_zero, BitVec.xor_assoc, BitVec.xor_self,
    BitVec.xor_zero]

theorem fold_inj {k : Nat} (hk : w ≤ 2 * k) {x y : BitVec w} : fold k x = fold k y ↔ x = y := by
  refine ⟨fun h => ?_, congrArg _⟩
  rw [← fold_fold hk x, h, fold_fold hk]

/-- **A factor with an inverse** can be divided out. -/
theorem mul_inj {c d : BitVec w} (hcd : c * d = 1#w) {x y : BitVec w} : x * c = y * c ↔ x = y := by
  refine ⟨fun h => ?_, congrArg (· * c)⟩
  have hboth := congrArg (· * d) h
  simpa only [BitVec.mul_assoc, hcd, BitVec.mul_one] using hboth

/-- The number that bytes stand for, lowest byte first. -/
def ofBytes (bytes : List UInt8) : Nat := Nat.ofDigits 256 (bytes.map UInt8.toNat)

theorem ofBytes_lt (bytes : List UInt8) : ofBytes bytes < 256 ^ bytes.length := by
  have hlt := Nat.ofDigits_lt_base_pow_length (b := 256) (l := bytes.map UInt8.toNat) (by decide) (by
    intro d hd
    obtain ⟨c, -, rfl⟩ := List.mem_map.mp hd
    exact c.toNat_lt)
  rwa [List.length_map] at hlt

theorem ofBytes_inj {l l' : List UInt8} (hlength : l.length = l'.length)
    (h : ofBytes l = ofBytes l') : l = l' := by
  have hbyte : ∀ m : List UInt8, ∀ d ∈ m.map UInt8.toNat, d < 256 := by
    intro m d hd
    obtain ⟨c, -, rfl⟩ := List.mem_map.mp hd
    exact c.toNat_lt
  have hlength' : (l.map UInt8.toNat).length = (l'.map UInt8.toNat).length := by
    rw [List.length_map, hlength, List.length_map]
  apply List.map_injective_iff.mpr fun _ _ => UInt8.toNat_inj.mp
  exact Nat.ofDigits_inj_of_len_eq (by decide) hlength' (hbyte l) (hbyte l') h

/-! ## Shifting out the top bit -/

theorem eq_of_shiftLeft_one {x y : BitVec w} (h : x <<< 1 = y <<< 1) (hmsb : x.msb = y.msb) :
    x = y := by
  apply BitVec.eq_of_getLsbD_eq
  intro i hi
  by_cases hlast : i + 1 < w
  · have hbit := congrArg (fun z => z.getLsbD (i + 1)) h
    simp only [BitVec.getLsbD_shiftLeft, hlast, decide_true, Bool.true_and] at hbit
    exact hbit
  · obtain rfl : i = w - 1 := by omega
    rw [← BitVec.msb_eq_getLsbD_last, ← BitVec.msb_eq_getLsbD_last, hmsb]

end WordMix
