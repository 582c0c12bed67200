import HftSdk.Lib.OrderStatistic
import Mathlib.Algebra.Order.Floor.Semifield
import Mathlib.Data.Rat.Floor

/-!
# Percentiles of a benchmark

`benchmark_p99.hpp`. What the clock measures is an input, and the products of the indices are exact.
The warmup calls, which nothing measures, are left out.

The code scales the last index, not the number of samples, and truncates. It is one rank short of the
nearest rank unless the number of samples is a multiple of the percentile's denominator, or one more
(`nearestRank_eq_succ`).
-/

namespace HftSdk

open OrderStatistic

structure LatencyStats where
  p99Ns : ℤ := 0
  p999Ns : ℤ := 0
  samples : ℕ := 0
deriving DecidableEq

def clampIndex (idx size : ℕ) : ℕ :=
  if size ≤ idx then
    if size ≠ 0 then size - 1 else 0
  else idx

/-- `static_cast<std::size_t>(p * (n - 1))`. -/
def percentileIndex (p : ℚ) (n : ℕ) : ℕ := ⌊p * (n - 1 : ℕ)⌋₊

/-- The latencies of `iterations` measured calls, at most as many as the buffer holds. -/
def measured (latency : ℕ → ℤ) (latenciesBuffer : List ℤ) (iterations : ℕ) : List ℤ :=
  (List.range (if latenciesBuffer.length < iterations then latenciesBuffer.length
    else iterations)).map latency

/-- The stats, and the buffer. -/
def benchmarkP99 (latency : ℕ → ℤ) (latenciesBuffer : List ℤ) (iterations : ℕ) :
    LatencyStats × List ℤ :=
  let measured := measured latency latenciesBuffer iterations
  let n := measured.length
  if n = 0 then ({}, latenciesBuffer)
  else
    let data := measured.mergeSort (· ≤ ·)
    let idxP99 := clampIndex (percentileIndex (99 / 100) n) n
    let idxP999 := clampIndex (percentileIndex (999 / 1000) n) n
    ({ p99Ns := data.getD idxP99 0, p999Ns := data.getD idxP999 0, samples := n },
      data ++ latenciesBuffer.drop n)

/-! ## Nearest ranks -/

/-- The nearest rank of a percentile among `n` samples. -/
def nearestRank (p : ℚ) (n : ℕ) : ℕ := ⌈p * n⌉₊

/-- **The percentiles of some samples**, by nearest rank. -/
structure NearestRank (l : List ℤ) (stats : LatencyStats) : Prop where
  p99 : 99 / 100 * (l.length : ℚ) ≤ l.countP (· ≤ stats.p99Ns)
  p999 : 999 / 1000 * (l.length : ℚ) ≤ l.countP (· ≤ stats.p999Ns)
  mem_p99 : stats.p99Ns ∈ l
  mem_p999 : stats.p999Ns ∈ l
  ordered : stats.p99Ns ≤ stats.p999Ns

/-- The sample of nearest rank is as small as the one below it. -/
def Repeats (p : ℚ) (l : List ℤ) : Prop :=
  kth l (nearestRank p l.length) = kth l (nearestRank p l.length - 1)

/-! ## Ranks and indices -/

/-- The percentile that leaves out one of `d`. -/
def allBut (d : ℕ) : ℚ := (d - 1 : ℕ) / d

theorem p99_eq : (99 / 100 : ℚ) = allBut 100 := by norm_num [allBut]

theorem p999_eq : (999 / 1000 : ℚ) = allBut 1000 := by norm_num [allBut]

theorem nearestRank_le_iff {d : ℕ} (hd : 1 ≤ d) (n k : ℕ) :
    nearestRank (allBut d) n ≤ k ↔ (d - 1) * n ≤ k * d := by
  have hpos : (0 : ℚ) < d := by exact_mod_cast hd
  unfold nearestRank allBut
  rw [Nat.ceil_le, div_mul_eq_mul_div, div_le_iff₀ hpos]
  exact_mod_cast Iff.rfl

section Percentile

variable {d : ℕ} (hd : d = 100 ∨ d = 1000) {n : ℕ} (hn : 1 ≤ n)
include hd hn

theorem nearestRank_bounds : 1 ≤ nearestRank (allBut d) n ∧ nearestRank (allBut d) n ≤ n := by
  have hzero := nearestRank_le_iff (by omega : 1 ≤ d) n 0
  have hle := nearestRank_le_iff (by omega : 1 ≤ d) n n
  obtain rfl | rfl := hd <;> omega

omit hn in
theorem percentileIndex_eq : percentileIndex (allBut d) n = n - 1 - (n - 1 + (d - 1)) / d := by
  unfold percentileIndex allBut
  rw [div_mul_eq_mul_div, ← Nat.cast_mul, Nat.floor_div_eq_div]
  obtain rfl | rfl := hd <;> omega

theorem percentileIndex_lt : percentileIndex (allBut d) n < n := by
  rw [percentileIndex_eq hd]
  obtain rfl | rfl := hd <;> omega

theorem nearestRank_le_index (h : n % d ≤ 1) :
    nearestRank (allBut d) n ≤ percentileIndex (allBut d) n + 1 := by
  rw [nearestRank_le_iff (by omega), percentileIndex_eq hd]
  obtain rfl | rfl := hd <;> omega

theorem nearestRank_eq_succ (h : ¬ n % d ≤ 1) :
    nearestRank (allBut d) n = percentileIndex (allBut d) n + 1 + 1 := by
  have hle := nearestRank_le_iff (by omega : 1 ≤ d) n (percentileIndex (allBut d) n + 1)
  have hnext := nearestRank_le_iff (by omega : 1 ≤ d) n (percentileIndex (allBut d) n + 1 + 1)
  rw [percentileIndex_eq hd] at hle hnext ⊢
  obtain rfl | rfl := hd <;> omega

end Percentile

/-- **One percentile**: enough samples are no larger than the chosen one when it has the nearest rank, or
is as large as the sample that has. -/
theorem percentile_iff {d : ℕ} (hd : d = 100 ∨ d = 1000) {l : List ℤ} (hl : 1 ≤ l.length) {v : ℤ}
    (hv : kth l (percentileIndex (allBut d) l.length + 1) = some v) :
    allBut d * (l.length : ℚ) ≤ l.countP (· ≤ v) ↔ l.length % d ≤ 1 ∨ Repeats (allBut d) l := by
  obtain ⟨hr, hle⟩ := nearestRank_bounds hd hl
  rw [← Nat.ceil_le]
  change nearestRank (allBut d) l.length ≤ _ ↔ _
  by_cases hmod : l.length % d ≤ 1
  · have hcount := (countP_of_kth (by omega) hv).2
    exact iff_of_true ((nearestRank_le_index hd hl hmod).trans hcount) (Or.inl hmod)
  · have heq := nearestRank_eq_succ hd hl hmod
    obtain ⟨a, ha⟩ := kth_isSome hr hle
    have hva : v ≤ a := kth_mono (by omega) hv ha
    rw [le_countP_iff hr ha, or_iff_right hmod, Repeats, ha, heq, Nat.add_sub_cancel, hv,
      Option.some_inj]
    omega

/-! ## The benchmark -/

theorem length_measured (latency : ℕ → ℤ) (latenciesBuffer : List ℤ) (iterations : ℕ) :
    (measured latency latenciesBuffer iterations).length = min iterations latenciesBuffer.length := by
  unfold measured
  rw [List.length_map, List.length_range]
  split <;> omega

theorem clampIndex_of_lt {idx size : ℕ} (h : idx < size) : clampIndex idx size = idx :=
  if_neg (Nat.not_le.mpr h)

theorem kth_benchmarkP99 {latency : ℕ → ℤ} {latenciesBuffer : List ℤ} {iterations : ℕ} {l : List ℤ}
    (hl : measured latency latenciesBuffer iterations = l) (h : 1 ≤ l.length) :
    let stats := (benchmarkP99 latency latenciesBuffer iterations).1
    kth l (percentileIndex (allBut 100) l.length + 1) = some stats.p99Ns ∧
      kth l (percentileIndex (allBut 1000) l.length + 1) = some stats.p999Ns := by
  have hpick {idx : ℕ} (hidx : idx < l.length) : kth l (idx + 1) =
      some ((l.mergeSort (· ≤ ·)).getD (clampIndex idx l.length) 0) := by
    have hsorted : idx < (l.mergeSort (· ≤ ·)).length := by rwa [List.length_mergeSort]
    rw [clampIndex_of_lt hidx, List.getD_eq_getElem?_getD, kth, Nat.add_sub_cancel,
      List.getElem?_eq_getElem hsorted, Option.getD_some]
  unfold benchmarkP99
  dsimp only
  rw [hl, if_neg (by omega), p99_eq, p999_eq]
  exact ⟨hpick (percentileIndex_lt (Or.inl rfl) h), hpick (percentileIndex_lt (Or.inr rfl) h)⟩

theorem nearestRank_iff {latency : ℕ → ℤ} {latenciesBuffer : List ℤ} {iterations : ℕ} {l : List ℤ}
    (hl : measured latency latenciesBuffer iterations = l) (h : 1 ≤ l.length) :
    NearestRank l (benchmarkP99 latency latenciesBuffer iterations).1 ↔
      (l.length % 100 ≤ 1 ∨ Repeats (99 / 100) l) ∧
        (l.length % 1000 ≤ 1 ∨ Repeats (999 / 1000) l) := by
  obtain ⟨hv, hw⟩ := kth_benchmarkP99 hl h
  have hle := percentileIndex_eq (Or.inl rfl : 100 = 100 ∨ 100 = 1000) (n := l.length)
  have hle' := percentileIndex_eq (Or.inr rfl : 1000 = 100 ∨ 1000 = 1000) (n := l.length)
  rw [p99_eq, p999_eq, ← percentile_iff (Or.inl rfl) h hv, ← percentile_iff (Or.inr rfl) h hw]
  constructor
  · intro hrank
    exact ⟨p99_eq ▸ hrank.p99, p999_eq ▸ hrank.p999⟩
  · rintro ⟨hcount, hcount'⟩
    refine ⟨p99_eq ▸ hcount, p999_eq ▸ hcount', kth_mem hv, kth_mem hw, kth_mono ?_ hv hw⟩
    omega

/-! ## Samples that do not repeat -/

theorem kth_range {n k : ℕ} (hk : k - 1 < n) :
    kth ((List.range n).map (Nat.cast : ℕ → ℤ)) k = some ((k - 1 : ℕ) : ℤ) := by
  have hsorted : ((List.range n).map (Nat.cast : ℕ → ℤ)).mergeSort (· ≤ ·) =
      (List.range n).map Nat.cast := by
    apply List.mergeSort_of_pairwise
    rw [List.pairwise_map]
    exact List.pairwise_le_range.imp fun h => by simpa using h
  rw [kth, hsorted, List.getElem?_map, List.getElem?_range hk, Option.map_some]

theorem not_repeats_range {d : ℕ} (hd : d = 100 ∨ d = 1000) {n : ℕ} (hn : 1 ≤ n)
    (hmod : ¬ n % d ≤ 1) : ¬ Repeats (allBut d) ((List.range n).map Nat.cast) := by
  have hle := (nearestRank_bounds hd hn).2
  have heq := nearestRank_eq_succ hd hn hmod
  rw [Repeats, List.length_map, List.length_range, kth_range (by omega), kth_range (by omega),
    Option.some_inj, Nat.cast_inj]
  omega

/-- **When the percentiles are those of nearest rank**: when the number of samples is a multiple of the
percentile's denominator or one more, or the sample of nearest rank repeats the one below it. For all
latencies, when the number of samples is a multiple of 1000 or one more. -/
theorem benchmarkP99_nearestRank_iff (latenciesBuffer : List ℤ) (iterations : ℕ)
    (hn : 1 ≤ min iterations latenciesBuffer.length) :
    (∀ latency, NearestRank (measured latency latenciesBuffer iterations)
      (benchmarkP99 latency latenciesBuffer iterations).1 ↔
        (min iterations latenciesBuffer.length % 100 ≤ 1 ∨
          Repeats (99 / 100) (measured latency latenciesBuffer iterations)) ∧
        (min iterations latenciesBuffer.length % 1000 ≤ 1 ∨
          Repeats (999 / 1000) (measured latency latenciesBuffer iterations))) ∧
    ((∀ latency, NearestRank (measured latency latenciesBuffer iterations)
      (benchmarkP99 latency latenciesBuffer iterations).1) ↔
        min iterations latenciesBuffer.length % 1000 ≤ 1) := by
  have hlength (latency : ℕ → ℤ) := length_measured latency latenciesBuffer iterations
  have hcount : (if latenciesBuffer.length < iterations then latenciesBuffer.length
      else iterations) = min iterations latenciesBuffer.length := by
    split <;> omega
  generalize min iterations latenciesBuffer.length = n at hn hlength hcount ⊢
  have hiff (latency : ℕ → ℤ) : NearestRank (measured latency latenciesBuffer iterations)
      (benchmarkP99 latency latenciesBuffer iterations).1 ↔
        (n % 100 ≤ 1 ∨ Repeats (99 / 100) (measured latency latenciesBuffer iterations)) ∧
        (n % 1000 ≤ 1 ∨ Repeats (999 / 1000) (measured latency latenciesBuffer iterations)) := by
    rw [nearestRank_iff rfl (by rw [hlength]; exact hn), hlength]
  refine ⟨hiff, ?_, fun hmod latency => (hiff latency).mpr ⟨Or.inl (by omega), Or.inl hmod⟩⟩
  intro hall
  by_contra hmod
  have hrepeats := ((hiff Nat.cast).mp (hall Nat.cast)).2.resolve_left hmod
  have hrange : measured Nat.cast latenciesBuffer iterations = (List.range n).map Nat.cast := by
    unfold measured
    rw [hcount]
  rw [hrange, p999_eq] at hrepeats
  exact not_repeats_range (Or.inr rfl) hn hmod hrepeats

theorem benchmarkP99_nearestRank_two : (1 ≤ min 2 [0, 0].length) ∧
    ((∀ latency, NearestRank (measured latency [0, 0] 2) (benchmarkP99 latency [0, 0] 2).1) ↔
      min 2 [(0 : ℤ), 0].length % 1000 ≤ 1) :=
  ⟨by decide, (benchmarkP99_nearestRank_iff [0, 0] 2 (by decide)).2⟩

/-- Of two samples, the smaller one is reported. -/
theorem benchmarkP99_not_nearestRank : ¬ ∀ (latency : ℕ → ℤ) (latenciesBuffer : List ℤ)
    (iterations : ℕ), 1 ≤ min iterations latenciesBuffer.length →
    NearestRank (measured latency latenciesBuffer iterations)
      (benchmarkP99 latency latenciesBuffer iterations).1 := by
  intro h
  have hl : measured Nat.cast [0, 0] 2 = (List.range 2).map Nat.cast := rfl
  have hsmaller : (benchmarkP99 Nat.cast [0, 0] 2).1.p99Ns = 0 := by
    have hkth := (kth_benchmarkP99 hl (by decide)).1
    rw [percentileIndex_eq (Or.inl rfl), kth_range (by decide), Option.some_inj] at hkth
    exact hkth.symm
  have hp99 := (h Nat.cast [0, 0] 2 (by decide)).p99
  have hcount : ((List.range 2).map (Nat.cast : ℕ → ℤ)).countP (· ≤ 0) = 1 := by decide
  rw [hsmaller, hl, hcount, List.length_map, List.length_range] at hp99
  norm_num at hp99

end HftSdk
