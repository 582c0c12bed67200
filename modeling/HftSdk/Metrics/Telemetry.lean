import HftSdk.Common.MachineInt
import HftSdk.Metrics.LatencyHistogram
import Mathlib.Data.Finmap
import Mathlib.Data.List.Infix
import Mathlib.Tactic.FieldSimp
import Mathlib.Tactic.Ring

/-!
# Telemetry

`metrics/telemetry.hpp` and `.cpp`: latency histograms, counters, running averages and named timers.
Calls are taken one after the other; a timer call comes with the reading of the steady clock that it
takes. Doubles are read as exact rationals; the layout of the console output is left out.

What the dashboard shows is judged by the calls. `dashboard_accurate`: the percentiles of a channel
are those of the latencies it was given since the last `reset`, a timer giving the time since its last
start, which may lie before the `reset`. `averages_accurate`: the averages are right to a billionth as
long as their fixed-point sums fit.
-/

namespace HftSdk

open LatencyHistogram

/-- The five latency histograms. -/
inductive Channel
  | e2e | matching | md | fixIn | fixOut
deriving DecidableEq

/-- The four counters of events. -/
inductive Counter
  | orders | trades | cancels | rejects
deriving DecidableEq

/-- The two averages. -/
inductive Aggregate
  | fillProb | slippage
deriving DecidableEq

/-- `LatencyHistogram<10000, 100>`. -/
def latencyShape : HistogramShape := ⟨10000, 100, by decide, by decide⟩

/-- `LatencyHistogram<1000, 1>`. -/
def queuePosShape : HistogramShape := ⟨1000, 1, by decide, by decide⟩

structure Telemetry where
  latency_ : Channel → LatencyHistogram latencyShape := fun _ => {}
  counters_ : Counter → UInt64 := fun _ => 0
  total_fill_qty_ : UInt64 := 0
  total_fill_notional_ : UInt64 := 0
  queue_pos_hist_ : LatencyHistogram queuePosShape := {}
  sum_ : Aggregate → Int64 := fun _ => 0
  count_ : Aggregate → UInt64 := fun _ => 0
  active_timers_ : Finmap fun _ : String => ℤ := ∅

namespace Telemetry

def kFixedPointScale : ℤ := 1000000000

/-- `static_cast<std::int64_t>` of a double: towards zero. -/
def truncate (x : ℚ) : ℤ := if 0 ≤ x then ⌊x⌋ else ⌈x⌉

/-! ## Recording -/

def recordOn (t : Telemetry) (c : Channel) (ns : ℤ) : Telemetry :=
  { t with latency_ := Function.update t.latency_ c ((t.latency_ c).record ns) }

def recordE2eLatency (t : Telemetry) (ns : ℤ) : Telemetry := t.recordOn .e2e ns
def recordMatchingLatency (t : Telemetry) (ns : ℤ) : Telemetry := t.recordOn .matching ns
def recordMdLatency (t : Telemetry) (ns : ℤ) : Telemetry := t.recordOn .md ns
def recordFixInboundLatency (t : Telemetry) (ns : ℤ) : Telemetry := t.recordOn .fixIn ns
def recordFixOutboundLatency (t : Telemetry) (ns : ℤ) : Telemetry := t.recordOn .fixOut ns

/-- `fetch_add(1)`. -/
def count (t : Telemetry) (c : Counter) : Telemetry :=
  { t with counters_ := Function.update t.counters_ c (t.counters_ c + 1) }

def recordOrder (t : Telemetry) : Telemetry := t.count .orders
def recordTrade (t : Telemetry) : Telemetry := t.count .trades
def recordCancel (t : Telemetry) : Telemetry := t.count .cancels
def recordReject (t : Telemetry) : Telemetry := t.count .rejects

def recordFill (t : Telemetry) (qty price : ℤ) : Telemetry :=
  { t with
    total_fill_qty_ := t.total_fill_qty_ + .ofInt qty
    total_fill_notional_ := t.total_fill_notional_ + .ofInt (qty * price) }

def recordQueuePosition (t : Telemetry) (pos : UInt32) : Telemetry :=
  { t with queue_pos_hist_ := t.queue_pos_hist_.record pos.toNat }

/-- A value in fixed point. -/
def scaled (x : ℚ) : ℤ := truncate (x * kFixedPointScale)

/-- Add to a fixed-point sum. -/
def average (t : Telemetry) (a : Aggregate) (x : ℚ) : Telemetry :=
  { t with
    sum_ := Function.update t.sum_ a (t.sum_ a + .ofInt (scaled x))
    count_ := Function.update t.count_ a (t.count_ a + 1) }

def recordFillProbability (t : Telemetry) (prob : ℚ) : Telemetry := t.average .fillProb prob
def recordSlippage (t : Telemetry) (ticks : ℚ) : Telemetry := t.average .slippage ticks

/-- What the dashboard prints. -/
def averageOf (t : Telemetry) (a : Aggregate) : Option ℚ :=
  if 0 < t.count_ a then some ((t.sum_ a).toInt / ((t.count_ a).toNat * kFixedPointScale)) else none

/-! ## Timers -/

def startTimer (t : Telemetry) (name : String) (now : ℤ) : Telemetry :=
  { t with active_timers_ := t.active_timers_.insert name now }

/-- `name.find(part) != std::string::npos`. -/
def contains (name part : String) : Prop := part.toList <:+: name.toList

instance (name part : String) : Decidable (contains name part) :=
  inferInstanceAs (Decidable (_ <:+: _))

/-- The histogram that a timer goes to, by its name. -/
def channelOf (name : String) : Option Channel :=
  if contains name "e2e" then some .e2e
  else if contains name "match" then some .matching
  else if contains name "md" then some .md
  else none

def endTimer (t : Telemetry) (name : String) (now : ℤ) : Telemetry :=
  match t.active_timers_.lookup name with
  | some start =>
    let ns := now - start
    let recorded := match channelOf name with
      | some c => t.recordOn c ns
      | none => t
    { recorded with active_timers_ := t.active_timers_.erase name }
  | none => t

/-- `reset`: all but the timers. -/
def reset (t : Telemetry) : Telemetry :=
  { t with
    latency_ := fun c => (t.latency_ c).reset
    queue_pos_hist_ := t.queue_pos_hist_.reset
    counters_ := fun _ => 0
    total_fill_qty_ := 0
    total_fill_notional_ := 0
    sum_ := fun _ => 0
    count_ := fun _ => 0 }

/-! ## Calls -/

inductive Call
  | latency (c : Channel) (ns : ℤ)
  | event (c : Counter)
  | fill (qty price : ℤ)
  | queuePosition (pos : UInt32)
  | sample (a : Aggregate) (x : ℚ)
  | startTimer (name : String) (now : ℤ)
  | endTimer (name : String) (now : ℤ)
  | reset

def perform (t : Telemetry) : Call → Telemetry
  | .latency .e2e ns => t.recordE2eLatency ns
  | .latency .matching ns => t.recordMatchingLatency ns
  | .latency .md ns => t.recordMdLatency ns
  | .latency .fixIn ns => t.recordFixInboundLatency ns
  | .latency .fixOut ns => t.recordFixOutboundLatency ns
  | .event .orders => t.recordOrder
  | .event .trades => t.recordTrade
  | .event .cancels => t.recordCancel
  | .event .rejects => t.recordReject
  | .fill qty price => t.recordFill qty price
  | .queuePosition pos => t.recordQueuePosition pos
  | .sample .fillProb x => t.recordFillProbability x
  | .sample .slippage x => t.recordSlippage x
  | .startTimer name now => t.startTimer name now
  | .endTimer name now => t.endTimer name now
  | .reset => t.reset

/-! ## What was measured

Histories are lists of calls, the latest first. -/

/-- When a timer was started, if the last call about it was its start. -/
def started (name : String) : List Call → Option ℤ
  | [] => none
  | .startTimer name' now :: past => if name' = name then some now else started name past
  | .endTimer name' _ :: past => if name' = name then none else started name past
  | _ :: past => started name past

/-- What a call gives to a channel, when these timers are running. -/
def measured (timers : String → Option ℤ) (c : Channel) : Call → List ℤ
  | .latency c' ns => if c' = c then [ns] else []
  | .endTimer name now =>
    match timers name with
    | some start => if channelOf name = some c then [now - start] else []
    | none => []
  | _ => []

/-- The latencies of a channel since the last `reset`. -/
def samples (c : Channel) : List Call → List ℤ
  | [] => []
  | .reset :: _ => []
  | call :: past => samples c past ++ measured (fun name => started name past) c call

/-- The calls since the last `reset`. -/
def sinceReset (history : List Call) : List Call :=
  history.takeWhile fun
    | .reset => false
    | _ => true

def Call.position? : Call → Option ℤ
  | .queuePosition pos => some pos.toNat
  | _ => none

def Call.fill? : Call → Option (ℤ × ℤ)
  | .fill qty price => some (qty, price)
  | _ => none

def Call.isEvent (k : Counter) : Call → Bool
  | .event k' => k' = k
  | _ => false

def Call.value? (a : Aggregate) : Call → Option ℚ
  | .sample a' x => if a' = a then some x else none
  | _ => none

/-- What an average was given since the last `reset`, the latest first. -/
def values (a : Aggregate) (history : List Call) : List ℚ :=
  (sinceReset history).filterMap (Call.value? a)

/-- The telemetry after a history. -/
def after (history : List Call) : Telemetry := history.reverse.foldl perform {}

theorem after_cons (call : Call) (past : List Call) :
    after (call :: past) = (after past).perform call := by
  unfold after
  rw [List.reverse_cons, List.foldl_append]
  rfl

/-! ### Timers -/

theorem lookup_endTimer (t : Telemetry) (name : String) (now : ℤ) (name' : String) :
    (t.endTimer name now).active_timers_.lookup name' =
      if name = name' then none else t.active_timers_.lookup name' := by
  unfold endTimer
  cases hlookup : t.active_timers_.lookup name with
  | none =>
    dsimp only
    split_ifs with h
    · exact h ▸ hlookup
    · rfl
  | some start =>
    dsimp only
    split_ifs with h
    · rw [h, Finmap.lookup_erase]
    · rw [Finmap.lookup_erase_ne (Ne.symm h)]

theorem lookup_after (history : List Call) (name : String) :
    (after history).active_timers_.lookup name = started name history := by
  induction history with
  | nil => exact Finmap.lookup_empty name
  | cons call past ih =>
    rw [after_cons]
    cases call with
    | startTimer name' now =>
      change ((after past).active_timers_.insert name' now).lookup name = _
      rw [started]
      split_ifs with h
      · rw [h, Finmap.lookup_insert]
      · rw [Finmap.lookup_insert_of_ne _ (Ne.symm h), ih]
    | endTimer name' now =>
      change ((after past).endTimer name' now).active_timers_.lookup name = _
      rw [lookup_endTimer, ih, started]
    | latency c ns => cases c <;> exact ih
    | event c => cases c <;> exact ih
    | sample a x => cases a <;> exact ih
    | fill | queuePosition | reset => exact ih

theorem endTimer_frame (t : Telemetry) (name : String) (now : ℤ) :
    ∃ latency timers,
      t.endTimer name now = { t with latency_ := latency, active_timers_ := timers } := by
  unfold endTimer
  cases t.active_timers_.lookup name with
  | none => exact ⟨_, _, rfl⟩
  | some start => cases channelOf name <;> exact ⟨_, _, rfl⟩

/-! ### Histograms -/

theorem latency_recordOn (t : Telemetry) (c' : Channel) (ns : ℤ) (c : Channel) :
    (t.recordOn c' ns).latency_ c =
      (if c' = c then [ns] else []).foldl record (t.latency_ c) := by
  unfold recordOn
  dsimp only
  split_ifs with h
  · subst h
    rw [Function.update_self]
    rfl
  · rw [Function.update_of_ne (Ne.symm h)]
    rfl

theorem latency_perform (t : Telemetry) {call : Call} (hcall : call ≠ .reset) (c : Channel) :
    (t.perform call).latency_ c =
      (measured (fun name => t.active_timers_.lookup name) c call).foldl record (t.latency_ c) := by
  cases call with
  | latency c' ns => cases c' <;> exact t.latency_recordOn _ ns c
  | event c' => cases c' <;> rfl
  | sample a x => cases a <;> rfl
  | fill | queuePosition | startTimer => rfl
  | endTimer name now =>
    change (t.endTimer name now).latency_ c = _
    unfold endTimer measured
    dsimp only
    cases t.active_timers_.lookup name with
    | none => rfl
    | some start =>
      dsimp only
      cases channelOf name with
      | none => simp
      | some c' =>
        simp only [Option.some_inj]
        exact t.latency_recordOn c' (now - start) c
  | reset => exact absurd rfl hcall

theorem counted_foldl {g : HistogramShape} {s : LatencyHistogram g} {l : List ℤ}
    (h : Counted ⟨s, l⟩) (m : List ℤ) : Counted ⟨m.foldl record s, l ++ m⟩ := by
  induction m generalizing s l with
  | nil =>
    rw [List.append_nil]
    exact h
  | cons ns m ih =>
    have hrest := ih (h.step (.record ns))
    rw [List.append_assoc] at hrest
    exact hrest

theorem counted_after (c : Channel) (history : List Call) :
    Counted ⟨(after history).latency_ c, samples c history⟩ := by
  induction history with
  | nil => exact counted_nil
  | cons call past ih =>
    rw [after_cons]
    by_cases hcall : call = .reset
    · subst hcall
      exact counted_nil
    · have hsamples : samples c (call :: past) =
          samples c past ++ measured (fun name => started name past) c call := by
        cases call with
        | reset => exact absurd rfl hcall
        | _ => rfl
      rw [latency_perform _ hcall, hsamples]
      simp only [lookup_after]
      exact counted_foldl ih _

/-! ### Tallies -/

theorem sinceReset_cons {call : Call} (hcall : call ≠ .reset) (past : List Call) :
    sinceReset (call :: past) = call :: sinceReset past := by
  cases call with
  | reset => exact absurd rfl hcall
  | _ => rfl

/-- The other counts, from the calls since the last `reset`. -/
structure Tallied (t : Telemetry) (history : List Call) : Prop where
  queue : Counted ⟨t.queue_pos_hist_, ((sinceReset history).filterMap Call.position?).reverse⟩
  counters : ∀ k, t.counters_ k = .ofNat ((sinceReset history).countP (Call.isEvent k))
  qty : t.total_fill_qty_ =
    .ofInt (((sinceReset history).filterMap Call.fill?).map fun f => f.1).sum
  notional : t.total_fill_notional_ =
    .ofInt (((sinceReset history).filterMap Call.fill?).map fun f => f.1 * f.2).sum

theorem tallied_after (history : List Call) : Tallied (after history) history := by
  induction history with
  | nil => exact ⟨counted_nil, fun _ => rfl, rfl, rfl⟩
  | cons call past ih =>
    rw [after_cons]
    cases call with
    | reset => exact ⟨counted_nil, fun _ => rfl, rfl, rfl⟩
    | latency c ns => cases c <;> exact ⟨ih.queue, ih.counters, ih.qty, ih.notional⟩
    | sample a x => cases a <;> exact ⟨ih.queue, ih.counters, ih.qty, ih.notional⟩
    | startTimer => exact ⟨ih.queue, ih.counters, ih.qty, ih.notional⟩
    | endTimer name now =>
      obtain ⟨latency, timers, hframe⟩ := (after past).endTimer_frame name now
      change Tallied ((after past).endTimer name now) _
      rw [hframe]
      exact ⟨ih.queue, ih.counters, ih.qty, ih.notional⟩
    | queuePosition pos =>
      refine ⟨?_, ih.counters, ih.qty, ih.notional⟩
      rw [sinceReset_cons (by nofun), List.filterMap_cons, Call.position?]
      dsimp only
      rw [List.reverse_cons]
      exact ih.queue.step (.record pos.toNat)
    | event k' =>
      have hperform : (after past).perform (.event k') = (after past).count k' := by
        cases k' <;> rfl
      rw [hperform]
      refine ⟨ih.queue, fun k => ?_, ih.qty, ih.notional⟩
      rw [sinceReset_cons (by nofun), List.countP_cons, UInt64.ofNat_add, ← ih.counters]
      unfold count Call.isEvent
      by_cases hk : k' = k
      · subst hk
        simp
      · simp [hk, Function.update_of_ne (Ne.symm hk)]
    | fill qty price =>
      refine ⟨ih.queue, ih.counters, ?_, ?_⟩
      · rw [sinceReset_cons (by nofun), List.filterMap_cons, Call.fill?]
        dsimp only
        rw [List.map_cons, List.sum_cons, UInt64.ofInt_add, ← ih.qty]
        exact UInt64.add_comm _ _
      · rw [sinceReset_cons (by nofun), List.filterMap_cons, Call.fill?]
        dsimp only
        rw [List.map_cons, List.sum_cons, UInt64.ofInt_add, ← ih.notional]
        exact UInt64.add_comm _ _

/-- **What the dashboard shows**, judged by the calls. -/
structure Shown (t : Telemetry) (history : List Call) : Prop extends Tallied t history where
  latency : ∀ c, Accurate (t.latency_ c) (samples c history)

/-- **The dashboard is right** after any calls: percentiles of a channel are order statistics of the
latencies that it was given since the last `reset`, and the counts are those of the calls. -/
theorem dashboard_accurate (calls : List Call) :
    Shown (calls.foldl perform {}) calls.reverse := by
  have hstate : calls.foldl perform {} = after calls.reverse := by
    unfold after
    rw [List.reverse_reverse]
  rw [hstate]
  exact { tallied_after calls.reverse with
    latency := fun c => (counted_after c calls.reverse).accurate }

/-! ### Averages -/

theorem abs_truncate_le (x : ℚ) : |(truncate x : ℚ) - x| ≤ 1 := by
  have hfloor := Int.floor_le x
  have hfloor' := Int.lt_floor_add_one x
  have hceil := Int.le_ceil x
  have hceil' := Int.ceil_lt_add_one x
  unfold truncate
  rw [abs_le]
  split_ifs <;> constructor <;> linarith

theorem average_after (a : Aggregate) (history : List Call) :
    (after history).sum_ a = .ofInt ((values a history).map scaled).sum ∧
      (after history).count_ a = .ofNat (values a history).length := by
  induction history with
  | nil => exact ⟨rfl, rfl⟩
  | cons call past ih =>
    rw [after_cons]
    have hsame : values a (call :: past) = values a past →
        ((after past).perform call).sum_ a = (after past).sum_ a →
        ((after past).perform call).count_ a = (after past).count_ a →
        ((after past).perform call).sum_ a = .ofInt ((values a (call :: past)).map scaled).sum ∧
          ((after past).perform call).count_ a = .ofNat (values a (call :: past)).length := by
      intro hvalues hsum hcount
      rw [hvalues, hsum, hcount]
      exact ih
    cases call with
    | reset => exact ⟨rfl, rfl⟩
    | latency c ns => cases c <;> exact hsame rfl rfl rfl
    | event c => cases c <;> exact hsame rfl rfl rfl
    | fill | queuePosition | startTimer => exact hsame rfl rfl rfl
    | endTimer name now =>
      obtain ⟨latency, timers, hframe⟩ := (after past).endTimer_frame name now
      exact hsame rfl (congrFun (congrArg sum_ hframe) a) (congrFun (congrArg count_ hframe) a)
    | sample a' x =>
      have hperform : (after past).perform (.sample a' x) = (after past).average a' x := by
        cases a' <;> rfl
      have hvalues : values a (.sample a' x :: past) =
          if a' = a then x :: values a past else values a past := by
        unfold values
        rw [sinceReset_cons (by nofun), List.filterMap_cons, Call.value?]
        split_ifs <;> rfl
      rw [hperform, hvalues]
      unfold average
      dsimp only
      split_ifs with h
      · subst h
        rw [Function.update_self, Function.update_self, ih.1, ih.2, List.map_cons, List.sum_cons,
          List.length_cons, Int64.ofInt_add, UInt64.ofNat_add]
        exact ⟨Int64.add_comm _ _, rfl⟩
      · rw [Function.update_of_ne (Ne.symm h), Function.update_of_ne (Ne.symm h)]
        exact ih

theorem abs_sum_scaled_le (l : List ℚ) :
    |(((l.map scaled).sum : ℤ) : ℚ) - l.sum * kFixedPointScale| ≤ l.length := by
  induction l with
  | nil => simp
  | cons x l ih =>
    have hone : |(scaled x : ℚ) - x * kFixedPointScale| ≤ 1 := abs_truncate_le _
    rw [List.map_cons, List.sum_cons, List.sum_cons, List.length_cons, Int.cast_add, Nat.cast_succ]
    calc |(scaled x : ℚ) + ((l.map scaled).sum : ℤ) - (x + l.sum) * kFixedPointScale|
        = |((scaled x : ℚ) - x * kFixedPointScale) +
            (((l.map scaled).sum : ℤ) - l.sum * kFixedPointScale)| := by congr 1; ring
      _ ≤ 1 + l.length := (abs_add_le _ _).trans (add_le_add hone ih)
      _ = l.length + 1 := add_comm _ _

theorem abs_div_sub_le {m total n c : ℚ} (hn : 0 < n) (hc : 0 < c) (h : |m - total * c| ≤ n) :
    |m / (n * c) - total / n| ≤ 1 / c := by
  have hsplit : m / (n * c) - total / n = (m - total * c) / (n * c) := by field_simp
  have hpos : 0 < n * c := mul_pos hn hc
  rw [hsplit, abs_div, abs_of_pos hpos, div_le_div_iff₀ hpos hc, one_mul]
  exact mul_le_mul_of_nonneg_right h hc.le

/-- Values that the fixed-point sums have room for, each alone and all together. -/
structure Representable (l : List ℚ) : Prop where
  each : ∀ x ∈ l, Machine.Fits (scaled x)
  total : Machine.Fits (l.map scaled).sum
  number : l.length < 2 ^ 64

/-- **Averages are right to a billionth** while the sums have room: there is one exactly when values
were given since the last `reset`, and it is their mean up to the resolution of the fixed-point
sums. -/
theorem averages_accurate (calls : List Call) (a : Aggregate)
    (h : Representable (values a calls.reverse)) :
    match (calls.foldl perform {}).averageOf a with
    | none => values a calls.reverse = []
    | some avg => values a calls.reverse ≠ [] ∧
        |avg - (values a calls.reverse).sum / (values a calls.reverse).length| ≤ 1 / 1000000000 := by
  obtain ⟨hsum, hcount⟩ := average_after a calls.reverse
  unfold after at hsum hcount
  rw [List.reverse_reverse] at hsum hcount
  generalize values a calls.reverse = l at h hsum hcount ⊢
  have htotal := Machine.toInt_ofInt_iff.mpr h.total
  have hnumber : (UInt64.ofNat l.length).toNat = l.length := UInt64.toNat_ofNat_of_lt' h.number
  have habs := abs_sum_scaled_le l
  unfold averageOf
  rw [hsum, hcount, htotal]
  cases l with
  | nil => rfl
  | cons x l =>
    have hpos : 0 < UInt64.ofNat (x :: l).length := by
      rw [UInt64.lt_iff_toNat_lt, hnumber]
      exact Nat.succ_pos l.length
    rw [if_pos hpos, hnumber]
    dsimp only
    have hn : (0 : ℚ) < (x :: l).length := by exact_mod_cast Nat.succ_pos l.length
    have hscale : ((kFixedPointScale : ℤ) : ℚ) = 1000000000 := by norm_num [kFixedPointScale]
    have hclose := abs_div_sub_le hn (by rw [hscale]; norm_num) habs
    rw [hscale] at hclose
    exact ⟨List.cons_ne_nil x l, hclose⟩

/-- Two slippages, a third of a tick and minus two ticks. -/
theorem averages_accurate_slippage :
    let calls : List Call := [.sample .slippage (1 / 3), .sample .slippage (-2)]
    match (calls.foldl perform {}).averageOf .slippage with
    | none => values .slippage calls.reverse = []
    | some avg => values .slippage calls.reverse ≠ [] ∧ |avg - (values .slippage calls.reverse).sum /
        (values .slippage calls.reverse).length| ≤ 1 / 1000000000 := by
  have htwo : scaled (-2) = -2000000000 := by norm_num [scaled, truncate, kFixedPointScale]
  have hthird : scaled (1 / 3) = 333333333 := by
    rw [scaled, truncate, if_pos (by norm_num [kFixedPointScale]), Int.floor_eq_iff]
    norm_num [kFixedPointScale]
  refine averages_accurate [.sample .slippage (1 / 3), .sample .slippage (-2)] .slippage ⟨?_, ?_, ?_⟩
  · intro x hx
    rcases List.mem_cons.mp hx with rfl | hx
    · rw [htwo]
      decide
    · rw [List.mem_singleton.mp hx, hthird]
      decide
  · change Machine.Fits (List.map scaled [-2, 1 / 3]).sum
    rw [List.map_cons, List.map_singleton, htwo, hthird]
    decide
  · decide

end Telemetry

end HftSdk
