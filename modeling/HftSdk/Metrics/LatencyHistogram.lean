import HftSdk.Lib.OrderStatistic
import HftSdk.Lib.Run
import Mathlib.Data.Fintype.Basic
import Mathlib.Data.Rat.Floor
import Mathlib.Tactic.Linarith

/-!
# The latency histogram

`metrics/latency_histogram.hpp`: `record`, `percentile` and `reset`. The sum of the samples, which only
the mean reads, is left out. `percentile` takes its rank `ceil(n * p)` exactly. It answers with the
midpoint of the bucket of the sample of that rank, among the samples clamped to the range.
-/

namespace HftSdk

open OrderStatistic

/-- The template's parameters. -/
structure HistogramShape where
  NUM_BUCKETS : ℕ
  BUCKET_WIDTH_NS : ℤ
  num_pos : 1 ≤ NUM_BUCKETS
  width_pos : 1 ≤ BUCKET_WIDTH_NS

namespace HistogramShape

variable (g : HistogramShape)

def MAX_LATENCY_NS : ℤ := g.NUM_BUCKETS * g.BUCKET_WIDTH_NS

/-- The bucket that a sample is counted in. -/
def bucket (latency_ns : ℤ) : Fin g.NUM_BUCKETS :=
  let latency_ns := if latency_ns < 0 then 0 else latency_ns
  let bucket := (latency_ns.tdiv g.BUCKET_WIDTH_NS).toNat
  ⟨if g.NUM_BUCKETS ≤ bucket then g.NUM_BUCKETS - 1 else bucket, by
    have := g.num_pos
    split <;> omega⟩

/-- What a bucket stands for. -/
def midpoint (i : Fin g.NUM_BUCKETS) : ℤ := i * g.BUCKET_WIDTH_NS + g.BUCKET_WIDTH_NS.tdiv 2

/-! ## Buckets and clamped samples -/

/-- A sample, clamped to the range of the histogram. -/
def clamp (latency_ns : ℤ) : ℤ := max 0 (min latency_ns (g.MAX_LATENCY_NS - 1))

/-- The latencies of a bucket. -/
def InBucket (i : Fin g.NUM_BUCKETS) (latency_ns : ℤ) : Prop :=
  i * g.BUCKET_WIDTH_NS ≤ latency_ns ∧ latency_ns < (i + 1) * g.BUCKET_WIDTH_NS

theorem clamp_mono {a b : ℤ} (h : a ≤ b) : g.clamp a ≤ g.clamp b :=
  max_le_max_left 0 (min_le_min_right _ h)

theorem bucket_val (latency_ns : ℤ) : ((g.bucket latency_ns : ℕ) : ℤ) =
    min (max 0 latency_ns / g.BUCKET_WIDTH_NS) (g.NUM_BUCKETS - 1) := by
  have hnum := g.num_pos
  have hclamped : (if latency_ns < 0 then 0 else latency_ns) = max 0 latency_ns := by
    split <;> omega
  have hnonneg : 0 ≤ max 0 latency_ns := le_max_left _ _
  have hdiv : 0 ≤ max 0 latency_ns / g.BUCKET_WIDTH_NS :=
    Int.ediv_nonneg hnonneg (by have := g.width_pos; omega)
  unfold bucket
  dsimp only
  rw [hclamped, Int.tdiv_eq_ediv_of_nonneg hnonneg]
  split <;> omega

theorem bucket_mono {a b : ℤ} (h : a ≤ b) : g.bucket a ≤ g.bucket b := by
  have hdiv : max 0 a / g.BUCKET_WIDTH_NS ≤ max 0 b / g.BUCKET_WIDTH_NS :=
    Int.ediv_le_ediv (by have := g.width_pos; omega) (max_le_max_left 0 h)
  have ha := g.bucket_val a
  have hb := g.bucket_val b
  rw [Fin.le_def]
  omega

theorem inBucket_clamp (latency_ns : ℤ) :
    g.InBucket (g.bucket latency_ns) (g.clamp latency_ns) := by
  have hwidth := g.width_pos
  have hlo := Int.ediv_mul_le (max 0 latency_ns) (b := g.BUCKET_WIDTH_NS) (by omega)
  have hhi := Int.lt_ediv_add_one_mul_self (max 0 latency_ns) (b := g.BUCKET_WIDTH_NS) (by omega)
  unfold InBucket clamp MAX_LATENCY_NS
  rw [bucket_val]
  generalize max 0 latency_ns / g.BUCKET_WIDTH_NS = q at hlo hhi ⊢
  by_cases hlast : q ≤ g.NUM_BUCKETS - 1
  · have hin : (q + 1) * g.BUCKET_WIDTH_NS ≤ g.NUM_BUCKETS * g.BUCKET_WIDTH_NS :=
      Int.mul_le_mul_of_nonneg_right (by omega) (by omega)
    rw [min_eq_left hlast]
    omega
  · -- over the range: the last bucket
    have hover : g.NUM_BUCKETS * g.BUCKET_WIDTH_NS ≤ q * g.BUCKET_WIDTH_NS :=
      Int.mul_le_mul_of_nonneg_right (by omega) (by omega)
    have hlower : ((g.NUM_BUCKETS : ℤ) - 1) * g.BUCKET_WIDTH_NS =
        g.NUM_BUCKETS * g.BUCKET_WIDTH_NS - g.BUCKET_WIDTH_NS := by ring
    have hpos : 1 * g.BUCKET_WIDTH_NS ≤ g.NUM_BUCKETS * g.BUCKET_WIDTH_NS :=
      Int.mul_le_mul_of_nonneg_right (by have := g.num_pos; omega) (by omega)
    rw [min_eq_right (by omega), sub_add_cancel, hlower]
    omega

theorem midpoint_near {i : Fin g.NUM_BUCKETS} {latency_ns : ℤ} (h : g.InBucket i latency_ns) :
    |g.midpoint i - latency_ns| ≤ g.BUCKET_WIDTH_NS / 2 := by
  have hwidth := g.width_pos
  obtain ⟨hlo, hhi⟩ := h
  rw [add_mul, one_mul] at hhi
  rw [abs_le, midpoint, Int.tdiv_eq_ediv_of_nonneg (by omega)]
  omega

theorem midpoint_mono {i j : Fin g.NUM_BUCKETS} (h : i ≤ j) : g.midpoint i ≤ g.midpoint j := by
  have hmul : (i : ℤ) * g.BUCKET_WIDTH_NS ≤ j * g.BUCKET_WIDTH_NS :=
    Int.mul_le_mul_of_nonneg_right (by exact_mod_cast h) (by have := g.width_pos; omega)
  unfold midpoint
  omega

end HistogramShape

/-! ## The histogram -/

structure LatencyHistogram (g : HistogramShape) where
  buckets_ : Fin g.NUM_BUCKETS → ℕ := fun _ => 0
  total_samples_ : ℕ := 0
  min_ns_ : ℤ := 2 ^ 63 - 1
  max_ns_ : ℤ := -2 ^ 63

namespace LatencyHistogram

variable {g : HistogramShape}

def record (h : LatencyHistogram g) (latency_ns : ℤ) : LatencyHistogram g where
  total_samples_ := h.total_samples_ + 1
  min_ns_ := if latency_ns < h.min_ns_ then latency_ns else h.min_ns_
  max_ns_ := if h.max_ns_ < latency_ns then latency_ns else h.max_ns_
  buckets_ :=
    let bucket := g.bucket latency_ns
    Function.update h.buckets_ bucket (h.buckets_ bucket + 1)

/-- The bucket at which the counts, added up from the first, reach the target. -/
def bucketReaching (h : LatencyHistogram g) (target : ℕ) : Option (Fin g.NUM_BUCKETS) :=
  firstReaching h.buckets_ target (List.finRange g.NUM_BUCKETS) 0

def percentile (h : LatencyHistogram g) (p : ℚ) : ℤ :=
  if h.total_samples_ = 0 then 0
  else
    let target := ⌈(h.total_samples_ : ℚ) * p⌉.toNat
    let target := if target = 0 then 1 else target
    match h.bucketReaching target with
    | some i => g.midpoint i
    | none => g.MAX_LATENCY_NS

def reset (_ : LatencyHistogram g) : LatencyHistogram g where
  buckets_ := fun _ => 0
  total_samples_ := 0
  min_ns_ := 2 ^ 63 - 1
  max_ns_ := -2 ^ 63

/-! ## What was recorded -/

inductive Call
  | record (latency_ns : ℤ)
  | reset

/-- A histogram with the samples it was given since the last `reset`. -/
structure Sampled (g : HistogramShape) where
  state : LatencyHistogram g := {}
  samples : List ℤ := []

def Sampled.step (t : Sampled g) : Call → Sampled g
  | .record latency_ns =>
    { state := t.state.record latency_ns, samples := t.samples ++ [latency_ns] }
  | .reset => { state := t.state.reset, samples := [] }

/-- **The invariant**: everything the histogram keeps, from the samples. -/
structure Counted (t : Sampled g) : Prop where
  buckets : t.state.buckets_ = counts (t.samples.map g.bucket)
  total : t.state.total_samples_ = t.samples.length
  min : t.state.min_ns_ = t.samples.foldl min (2 ^ 63 - 1)
  max : t.state.max_ns_ = t.samples.foldl max (-2 ^ 63)

theorem counted_nil : Counted ({} : Sampled g) := ⟨rfl, rfl, rfl, rfl⟩

theorem Counted.step {t : Sampled g} (h : Counted t) (c : Call) : Counted (t.step c) := by
  cases c with
  | reset => exact counted_nil
  | record latency_ns =>
    refine ⟨?_, ?_, ?_, ?_⟩
    · show Function.update t.state.buckets_ _ _ = counts ((t.samples ++ [latency_ns]).map g.bucket)
      rw [List.map_append, List.map_singleton, counts_concat, h.buckets]
    · show t.state.total_samples_ + 1 = (t.samples ++ [latency_ns]).length
      rw [List.length_append, h.total, List.length_singleton]
    · show (if latency_ns < t.state.min_ns_ then latency_ns else t.state.min_ns_) =
        (t.samples ++ [latency_ns]).foldl _ _
      rw [List.foldl_append, ← h.min, List.foldl_cons, List.foldl_nil]
      split <;> omega
    · show (if t.state.max_ns_ < latency_ns then latency_ns else t.state.max_ns_) =
        (t.samples ++ [latency_ns]).foldl _ _
      rw [List.foldl_append, ← h.max, List.foldl_cons, List.foldl_nil]
      split <;> omega

/-! ## Percentiles -/

/-- `p` asks for the `k`-th of `n` samples. -/
def IsRank (n : ℕ) (p : ℚ) (k : ℕ) : Prop := ⌈(n : ℚ) * p⌉ = k ∧ 1 ≤ k ∧ k ≤ n

/-- **What the histogram promises**: percentiles are order statistics of the clamped samples, as
accurate as the buckets are wide. -/
structure Accurate (h : LatencyHistogram g) (samples : List ℤ) : Prop where
  total : h.total_samples_ = samples.length
  counts : ∑ i, h.buckets_ i = h.total_samples_
  percentile : ∀ p k, IsRank samples.length p k → ∃ s i,
    kth (samples.map g.clamp) k = some s ∧ g.InBucket i s ∧ h.percentile p = g.midpoint i ∧
      |h.percentile p - s| ≤ g.BUCKET_WIDTH_NS / 2
  monotone : ∀ p k p' k', IsRank samples.length p k → IsRank samples.length p' k' → k ≤ k' →
    h.percentile p ≤ h.percentile p'
  reached : ∀ p k, IsRank samples.length p k → (h.bucketReaching k).isSome

namespace Counted

variable {t : Sampled g}

theorem bucketReaching_eq (h : Counted t) {k : ℕ} (hk : 1 ≤ k) {s : ℤ}
    (hs : kth t.samples k = some s) : t.state.bucketReaching k = some (g.bucket s) := by
  unfold bucketReaching
  rw [h.buckets]
  apply firstReaching_counts (List.pairwise_lt_finRange _) List.mem_finRange hk
  rw [kth_map fun _ _ => g.bucket_mono, hs, Option.map_some]

theorem percentile_eq (h : Counted t) {p : ℚ} {k : ℕ} (hp : IsRank t.samples.length p k) :
    ∃ s, kth t.samples k = some s ∧ t.state.bucketReaching k = some (g.bucket s) ∧
      t.state.percentile p = g.midpoint (g.bucket s) := by
  obtain ⟨hceil, hk, hle⟩ := hp
  obtain ⟨s, hs⟩ := kth_isSome hk hle
  have hreach := h.bucketReaching_eq hk hs
  refine ⟨s, hs, hreach, ?_⟩
  unfold LatencyHistogram.percentile
  rw [h.total, if_neg (by omega), hceil, Int.toNat_natCast]
  dsimp only
  rw [if_neg (by omega), hreach]

theorem accurate (h : Counted t) : Accurate t.state t.samples where
  total := h.total
  counts := by
    rw [h.buckets, sum_counts_univ, List.length_map, h.total]
  percentile := by
    intro p k hp
    obtain ⟨s, hs, -, hvalue⟩ := h.percentile_eq hp
    have hin := g.inBucket_clamp s
    refine ⟨g.clamp s, g.bucket s, ?_, hin, hvalue, ?_⟩
    · rw [kth_map fun _ _ => g.clamp_mono, hs, Option.map_some]
    · rw [hvalue]
      exact g.midpoint_near hin
  monotone := by
    intro p k p' k' hp hp' hle
    obtain ⟨s, hs, -, hvalue⟩ := h.percentile_eq hp
    obtain ⟨s', hs', -, hvalue'⟩ := h.percentile_eq hp'
    rw [hvalue, hvalue']
    exact g.midpoint_mono (g.bucket_mono (kth_mono hle hs hs'))
  reached := by
    intro p k hp
    obtain ⟨s, -, hreach, -⟩ := h.percentile_eq hp
    rw [hreach]
    rfl

end Counted

/-- **Percentiles are accurate order statistics** after any sequence of calls. -/
theorem percentiles_accurate (calls : List Call) :
    let t := calls.foldl Sampled.step ({} : Sampled g)
    Accurate t.state t.samples :=
  Counted.accurate (Run.invariant (fun _ c h => h.step c) calls counted_nil)

end LatencyHistogram

end HftSdk
