import HftSdk.Common.Types
import HftSdk.Lib.WordMix
import Mathlib.Data.List.TakeWhile

/-!
# Symbols and their hashes

`Symbol` and `SymbolHash` in `common/types.hpp`. A symbol keeps the first eight characters of its
name, and names are told apart by those alone (`of_eq_of_iff`). `SymbolHash` tells all symbols apart
(`symbolHash_inj`).
-/

namespace HftSdk

namespace Symbol

/-! ## Names -/

/-- The characters of a C string, which the first NUL ends. -/
def chars (s : List UInt8) : List UInt8 := s.takeWhile (· ≠ 0)

/-- `Symbol(const char *s)`: `std::strlen`, then `std::memcpy` into zeros. -/
def of (s : List UInt8) : Symbol :=
  let len := min (chars s).length 8
  { data := Vector.ofFn fun i => if i < len then s.getD i 0 else 0 }

/-- `to_string()`: the characters before the first NUL. -/
def toString (s : Symbol) : List UInt8 := s.data.toList.takeWhile (· ≠ 0)

theorem chars_of_no_nul {s : List UInt8} (h : ∀ c ∈ s, c ≠ 0) : chars s = s := by
  unfold chars
  rw [List.takeWhile_eq_self_iff]
  intro c hc
  simpa using h c hc

theorem ne_zero_of_mem_chars {s : List UInt8} {c : UInt8} (h : c ∈ chars s) : c ≠ 0 := by
  simpa using List.mem_takeWhile_imp h

theorem toList_of (s : List UInt8) :
    (of s).data.toList =
      (chars s).take 8 ++ List.replicate (8 - ((chars s).take 8).length) 0 := by
  obtain ⟨rest, hrest⟩ : chars s <+: s := List.takeWhile_prefix _
  apply List.ext_getElem
  · rw [Vector.length_toList, List.length_append, List.length_replicate]
    have := List.length_take_le 8 (chars s)
    omega
  · intro i hi hi'
    rw [Vector.length_toList] at hi
    rw [Vector.getElem_toList]
    unfold of
    dsimp only
    rw [Vector.getElem_ofFn]
    dsimp only
    by_cases hlt : i < min (chars s).length 8
    · have hchars : i < (chars s).length := by omega
      rw [if_pos hlt, List.getElem_append_left (by rw [List.length_take]; omega), List.getElem_take]
      conv_lhs => rw [← hrest]
      rw [List.getD_eq_getElem?_getD, List.getElem?_append_left hchars,
        List.getElem?_eq_getElem hchars]
      rfl
    · rw [if_neg hlt, List.getElem_append_right (by rw [List.length_take]; omega),
        List.getElem_replicate]

theorem toString_of (s : List UInt8) : (of s).toString = (chars s).take 8 := by
  unfold toString
  rw [toList_of, List.takeWhile_append_of_pos]
  · have hnil : (List.replicate (8 - ((chars s).take 8).length) (0 : UInt8)).takeWhile (· ≠ 0) =
        [] := by
      cases 8 - ((chars s).take 8).length <;> simp [List.replicate_succ]
    rw [hnil, List.append_nil]
  · intro c hc
    simpa using ne_zero_of_mem_chars (List.mem_of_mem_take hc)

theorem of_congr {s t : List UInt8} (h : (chars s).take 8 = (chars t).take 8) : of s = of t := by
  have hdata : (of s).data = (of t).data := by
    apply Vector.toList_inj.mp
    rw [toList_of, toList_of, h]
  cases hs : of s
  cases ht : of t
  rw [hs, ht] at hdata
  exact congrArg Symbol.mk hdata

/-- **A name goes in and comes out**, cut to its first eight characters, and these alone tell two
names apart. -/
theorem of_eq_of_iff (s t : List UInt8) :
    (of s).toString = (chars s).take 8 ∧ of (of s).toString = of s ∧
      (of s = of t ↔ (chars s).take 8 = (chars t).take 8) := by
  refine ⟨toString_of s, of_congr ?_, fun h => ?_, of_congr⟩
  · have hkept : ∀ c ∈ (chars s).take 8, c ≠ 0 := fun c hc =>
      ne_zero_of_mem_chars (List.mem_of_mem_take hc)
    rw [toString_of, chars_of_no_nul hkept, List.take_take, Nat.min_self]
  · rw [← toString_of, h, toString_of]

end Symbol

/-! ## The hash -/

/-- `std::memcpy` into a 64-bit word, on a machine whose words have their lowest byte first. -/
def Symbol.word (s : Symbol) : UInt64 := .ofNat (WordMix.ofBytes s.data.toList)

/-- `SymbolHash`. -/
def SymbolHash (s : Symbol) : UInt64 :=
  let v := s.word
  let v := v ^^^ (v >>> 33)
  let v := v * 0xff51afd7ed558ccd
  v ^^^ (v >>> 33)

theorem Symbol.word_inj {s t : Symbol} : s.word = t.word ↔ s = t := by
  refine ⟨fun h => ?_, congrArg _⟩
  have hlt : ∀ s : Symbol, WordMix.ofBytes s.data.toList < 2 ^ 64 := by
    intro s
    refine (WordMix.ofBytes_lt _).trans_eq ?_
    rw [Vector.length_toList]
    norm_num
  have hnat := congrArg UInt64.toNat h
  unfold Symbol.word at hnat
  rw [UInt64.toNat_ofNat', UInt64.toNat_ofNat', Nat.mod_eq_of_lt (hlt s), Nat.mod_eq_of_lt (hlt t)]
    at hnat
  have hdata := Vector.toList_inj.mp (WordMix.ofBytes_inj (by simp) hnat)
  cases s
  cases t
  exact congrArg Symbol.mk hdata

theorem toBitVec_symbolHash (s : Symbol) :
    (SymbolHash s).toBitVec =
      WordMix.fold 33 (WordMix.fold 33 s.word.toBitVec * 0xff51afd7ed558ccd#64) := rfl

theorem symbolHash_inj {s t : Symbol} : SymbolHash s = SymbolHash t ↔ s = t := by
  have hinverse : 0xff51afd7ed558ccd#64 * 0x4f74430c22a54005#64 = 1#64 := by decide
  rw [← UInt64.toBitVec_inj, toBitVec_symbolHash, toBitVec_symbolHash,
    WordMix.fold_inj (by decide), WordMix.mul_inj hinverse, WordMix.fold_inj (by decide),
    UInt64.toBitVec_inj, Symbol.word_inj]

end HftSdk
