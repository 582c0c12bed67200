import HftSdk.Lib.WeightedMean
import HftSdk.Orderbook.Feeds
import Mathlib.Algebra.Field.Rat
import Mathlib.Algebra.Order.Ring.Rat
import Mathlib.Data.List.DropRight

/-!
# Rolling statistics

The averages of `L1Feed`, over exact rationals: `vwap` of the last trades and `rolling_spread` of the
last positive spreads. A division by zero gives no value.

`rolling_spread` guards against an empty history, not against a window of 0, which leaves nothing to
average of one that is not empty (`statistics_windowed_iff`).
-/

namespace HftSdk

open WeightedMean

namespace L1Feed

/-- A quotient of the code, where it is defined. -/
def quotient (a b : ℚ) : Option ℚ := if b = 0 then none else some (a / b)

def vwap (feed : L1Feed) : Option ℚ :=
  if feed.recentTrades.isEmpty then some 0
  else
    let sumPv := feed.recentTrades.foldl
      (fun (sum : ℚ) (t : TradeRecord) => sum + t.price * t.quantity) 0
    let sumV := feed.recentTrades.foldl
      (fun (sum : ℚ) (t : TradeRecord) => sum + t.quantity) 0
    if 0 < sumV then quotient sumPv sumV else some 0

/-- The loop reads the history backwards. -/
def rollingSpread (feed : L1Feed) (window : ℕ) : Option ℚ :=
  if feed.spreadHistory.isEmpty then some 0
  else
    let n := min window feed.spreadHistory.length
    let sum := (feed.spreadHistory.reverse.take n).foldl
      (fun (sum : ℚ) (spread : Int) => sum + spread) 0
    quotient sum n

/-! ## Calls -/

inductive Call
  | update (book : L3OrderBook) (ts : Timestamp)
  | recordTrade (price qty : Int)

def step (feed : L1Feed) : Call → L1Feed
  | .update book ts => feed.update book ts
  | .recordTrade price qty => feed.recordTrade price qty

/-- The positive spread that a call sees, if any. -/
def seenSpread : Call → Option Int
  | .update book ts =>
    let tob := book.topOfBook ts
    if tob.valid ∧ 0 < tob.spread then some tob.spread else none
  | .recordTrade _ _ => none

def tradeOf : Call → Option TradeRecord
  | .update _ _ => none
  | .recordTrade price qty => some ⟨price, qty⟩

/-! ## Windows -/

theorem pushBounded_rtake {α : Type} {max : ℕ} (hmax : 1 ≤ max) (l : List α) (a : α) :
    pushBounded max (l.rtake max) a = (l ++ [a]).rtake max := by
  obtain ⟨k, rfl⟩ : ∃ k, max = k + 1 := ⟨max - 1, by omega⟩
  have hlength : (l.rtake (k + 1)).length = min (k + 1) l.length := by
    unfold List.rtake
    rw [List.length_drop]
    omega
  rw [List.rtake_concat_succ, pushBounded, List.length_append, List.length_singleton, hlength]
  unfold List.rtake
  split_ifs with hfull
  · have hne : l.drop (l.length - (k + 1)) ≠ [] := by
      rw [ne_eq, List.drop_eq_nil_iff]
      omega
    rw [List.tail_append_of_ne_nil hne, List.tail_drop]
    congr 2
    omega
  · congr 2
    omega

theorem windows_of_calls (calls : List Call) :
    (calls.foldl step {}).spreadHistory = (calls.filterMap seenSpread).rtake MAX_SPREAD_HISTORY ∧
      (calls.foldl step {}).recentTrades = (calls.filterMap tradeOf).rtake MAX_TRADE_HISTORY := by
  induction calls using List.reverseRecOn with
  | nil => exact ⟨rfl, rfl⟩
  | append_singleton calls call ih =>
    rw [List.foldl_append, List.foldl_cons, List.foldl_nil, List.filterMap_append,
      List.filterMap_append]
    generalize calls.foldl step {} = feed at ih ⊢
    obtain ⟨hspreads, htrades⟩ := ih
    cases call with
    | update book ts =>
      have hnone : [Call.update book ts].filterMap tradeOf = [] := rfl
      refine ⟨?_, by rw [hnone, List.append_nil, ← htrades]; rfl⟩
      change (if _ then pushBounded _ _ _ else _) = _
      rw [hspreads]
      split_ifs with hseen
      · have hone : [Call.update book ts].filterMap seenSpread = [(book.topOfBook ts).spread] := by
          simp [seenSpread, hseen]
        rw [pushBounded_rtake (by decide), hone]
      · have hnone : [Call.update book ts].filterMap seenSpread = [] := by
          simp [seenSpread, hseen]
        rw [hnone, List.append_nil]
    | recordTrade price qty =>
      have hnone : [Call.recordTrade price qty].filterMap seenSpread = [] := rfl
      refine ⟨by rw [hnone, List.append_nil, ← hspreads]; rfl, ?_⟩
      change pushBounded _ _ _ = _
      rw [htrades, pushBounded_rtake (by decide)]
      rfl

/-! ## What the statistics are -/

/-- The mean of some spreads, 0 when there are none. -/
def meanSpread (spreads : List Int) : ℚ :=
  if spreads = [] then 0 else (spreads.map Int.cast).sum / spreads.length

/-- The mean price of some trades, weighted with their quantities, 0 when there are none. -/
def meanPrice (trades : List TradeRecord) : ℚ :=
  if trades.isEmpty then 0
  else mean (fun t => (t.price : ℚ)) (fun t => (t.quantity : ℚ)) trades

theorem foldl_add {α : Type} (f : α → ℚ) (l : List α) :
    l.foldl (fun sum a => sum + f a) 0 = (l.map f).sum := by
  rw [List.sum_eq_foldl, List.foldl_map]

theorem vwap_eq {feed : L1Feed} (hpos : ∀ t ∈ feed.recentTrades, 0 < t.quantity) :
    feed.vwap = some (meanPrice feed.recentTrades) := by
  unfold vwap meanPrice
  split_ifs with hempty
  · rfl
  · have hsum : 0 < (feed.recentTrades.map fun t => (t.quantity : ℚ)).sum :=
      sum_weights_pos (by simpa using hempty) fun t ht => by exact_mod_cast hpos t ht
    dsimp only
    rw [foldl_add, foldl_add, if_pos hsum, quotient, if_neg hsum.ne', mean]

theorem rollingSpread_zero {feed : L1Feed} (h : feed.spreadHistory ≠ []) :
    feed.rollingSpread 0 = none := by
  unfold rollingSpread
  rw [if_neg (by simpa using h), Nat.zero_min]
  rfl

theorem rollingSpread_eq {feed : L1Feed} {window : ℕ}
    (h : window ≠ 0 ∨ feed.spreadHistory = []) :
    feed.rollingSpread window = some (meanSpread (feed.spreadHistory.rtake window)) := by
  unfold rollingSpread meanSpread
  by_cases hempty : feed.spreadHistory = []
  · simp [hempty]
  · have hlength : 0 < feed.spreadHistory.length := List.length_pos_iff.mpr hempty
    have hwindow : window ≠ 0 := h.resolve_right hempty
    have hrtake : feed.spreadHistory.rtake window =
        (feed.spreadHistory.reverse.take (min window feed.spreadHistory.length)).reverse := by
      rw [List.rtake_eq_reverse_take_reverse, ← List.length_reverse, List.take_eq_take_min]
    have hkept : (feed.spreadHistory.rtake window).length =
        min window feed.spreadHistory.length := by
      rw [hrtake, List.length_reverse, List.length_take, List.length_reverse]
      omega
    have hsum : (((feed.spreadHistory.rtake window).map Int.cast).sum : ℚ) =
        ((feed.spreadHistory.reverse.take (min window feed.spreadHistory.length)).map Int.cast).sum := by
      rw [hrtake, List.map_reverse, List.sum_reverse]
    have hne : (feed.spreadHistory.rtake window).length ≠ 0 := by omega
    rw [if_neg (by simpa using hempty)]
    dsimp only
    rw [foldl_add, ← hsum, ← hkept, quotient, if_neg (by exact_mod_cast hne),
      if_neg (by rwa [← List.length_eq_zero_iff])]

/-- **What the statistics are**, from every positive spread seen and every trade recorded. -/
structure Windowed (feed : L1Feed) (spreads : List Int) (trades : List TradeRecord) (window : ℕ) :
    Prop where
  rollingSpread : feed.rollingSpread window =
    some (meanSpread ((spreads.rtake MAX_SPREAD_HISTORY).rtake window))
  vwap : feed.vwap = some (meanPrice (trades.rtake MAX_TRADE_HISTORY))
  bounds : trades ≠ [] →
    (∃ t ∈ trades.rtake MAX_TRADE_HISTORY,
      (t.price : ℚ) ≤ meanPrice (trades.rtake MAX_TRADE_HISTORY)) ∧
    ∃ t ∈ trades.rtake MAX_TRADE_HISTORY,
      meanPrice (trades.rtake MAX_TRADE_HISTORY) ≤ (t.price : ℚ)

theorem meanPrice_bounds {trades : List TradeRecord} (hne : trades ≠ [])
    (hpos : ∀ t ∈ trades, 0 < t.quantity) : (∃ t ∈ trades, (t.price : ℚ) ≤ meanPrice trades) ∧
      ∃ t ∈ trades, meanPrice trades ≤ (t.price : ℚ) := by
  have hweights : ∀ t ∈ trades, (0 : ℚ) < t.quantity := fun t ht => by exact_mod_cast hpos t ht
  rw [meanPrice, if_neg (by simpa using hne)]
  exact ⟨exists_le_mean hne hweights, exists_mean_le hne hweights⟩

theorem rtake_eq_nil_iff {α : Type} {max : ℕ} (hmax : 1 ≤ max) {l : List α} :
    l.rtake max = [] ↔ l = [] := by
  unfold List.rtake
  rw [List.drop_eq_nil_iff, ← List.length_eq_zero_iff]
  omega

/-- **When the statistics are those of the windows**: but for a window of 0 after some positive spread,
always. -/
theorem statistics_windowed_iff (calls : List Call)
    (hpos : ∀ t ∈ calls.filterMap tradeOf, 0 < t.quantity) (window : ℕ) :
    Windowed (calls.foldl step {}) (calls.filterMap seenSpread) (calls.filterMap tradeOf) window ↔
      window ≠ 0 ∨ calls.filterMap seenSpread = [] := by
  obtain ⟨hspreads, htrades⟩ := windows_of_calls calls
  have hkept : ∀ t ∈ (calls.filterMap tradeOf).rtake MAX_TRADE_HISTORY, 0 < t.quantity :=
    fun t ht => hpos t (List.mem_of_mem_drop ht)
  have hseen : (calls.foldl step {}).spreadHistory = [] ↔ calls.filterMap seenSpread = [] := by
    rw [hspreads, rtake_eq_nil_iff (by decide)]
  rw [← hseen]
  constructor
  · intro h
    by_contra hcon
    rw [not_or, ne_eq, not_not] at hcon
    obtain ⟨rfl, hne⟩ := hcon
    have hrolling := h.rollingSpread
    rw [rollingSpread_zero hne] at hrolling
    cases hrolling
  · intro hwindow
    refine ⟨?_, ?_, fun hne => meanPrice_bounds ?_ hkept⟩
    · rw [rollingSpread_eq hwindow, hspreads]
    · rw [← htrades] at hkept ⊢
      exact vwap_eq hkept
    · rwa [ne_eq, rtake_eq_nil_iff (by decide)]

/-- A bid at 10 and an ask at 12. -/
def quoted : L3OrderBook :=
  let bid : Order := { id := 1, side := .buy, price := 10, quantity := 5 }
  let ask : Order := { id := 2, side := .sell, price := 12, quantity := 5 }
  (((L3OrderBook.create {}).addOrder bid 0).book.addOrder ask 0).book

theorem statistics_windowed_quoted :
    (∀ t ∈ [Call.update quoted 0, .recordTrade 10 5].filterMap tradeOf, 0 < t.quantity) ∧
    (Windowed ([Call.update quoted 0, .recordTrade 10 5].foldl step {})
      ([Call.update quoted 0, .recordTrade 10 5].filterMap seenSpread)
      ([Call.update quoted 0, .recordTrade 10 5].filterMap tradeOf) 3 ↔
      3 ≠ 0 ∨ [Call.update quoted 0, .recordTrade 10 5].filterMap seenSpread = []) := by
  have hpos : ∀ t ∈ [Call.update quoted 0, .recordTrade 10 5].filterMap tradeOf, 0 < t.quantity := by
    decide
  exact ⟨hpos, statistics_windowed_iff _ hpos 3⟩

/-- The last none of one spread. -/
theorem rollingSpread_divides_by_zero : ¬ ∀ (calls : List Call) (window : ℕ),
    (∀ t ∈ calls.filterMap tradeOf, 0 < t.quantity) →
    Windowed (calls.foldl step {}) (calls.filterMap seenSpread) (calls.filterMap tradeOf) window := by
  intro h
  have hrolling := (h [.update quoted 0] 0 (by decide)).rollingSpread
  have hne : ([Call.update quoted 0].foldl step {}).spreadHistory ≠ [] := by decide
  rw [rollingSpread_zero hne] at hrolling
  cases hrolling

end L1Feed

end HftSdk
