import HftSdk.Market.TradeEngine
import Mathlib.Algebra.BigOperators.Group.List.Basic
import Mathlib.Algebra.BigOperators.Ring.Finset
import Mathlib.Data.FinEnum

/-!
# Net quantities of the trade engine

Every trade has a buyer and a seller, whoever the aggressor was. The net quantity of a trader in a
symbol is what the trader bought less what it sold (`sum_tradeQty_eq`). A trade moves the two legs by
opposite amounts, so the net quantities of a symbol add up to zero (`sum_netQty_run`).
-/

open scoped BigOperators

namespace HftSdk

namespace Trade

/-- Who bought. -/
def buyer (trade : Trade) : TraderId :=
  match trade.aggressorSide with
  | .buy => trade.incomingTrader
  | .sell => trade.restingTrader

/-- Who sold. -/
def seller (trade : Trade) : TraderId :=
  match trade.aggressorSide with
  | .buy => trade.restingTrader
  | .sell => trade.incomingTrader

end Trade

namespace TradeEngine

/-- What a trader bought of a symbol. -/
def bought (t : TraderId) (s : Symbol) (trades : List Trade) : Int :=
  ((trades.filter fun trade => trade.symbol = s ∧ trade.buyer = t).map Trade.qty).sum

/-- What a trader sold of a symbol. -/
def sold (t : TraderId) (s : Symbol) (trades : List Trade) : Int :=
  ((trades.filter fun trade => trade.symbol = s ∧ trade.seller = t).map Trade.qty).sum

/-! ## One trade -/

theorem tradeQty_eq (t : TraderId) (s : Symbol) (trade : Trade) :
    tradeQty t s trade =
      (if trade.symbol = s ∧ trade.buyer = t then trade.qty else 0) -
        if trade.symbol = s ∧ trade.seller = t then trade.qty else 0 := by
  have hcomm : ∀ t', (t = t' ∧ s = trade.symbol) = (trade.symbol = s ∧ t' = t) := by
    intro t'
    rw [and_comm, eq_comm (a := t), eq_comm (a := s)]
  unfold tradeQty Trade.buyer Trade.seller
  simp only [hcomm]
  -- the signs of the legs, whether or not both are the same trader's
  cases trade.aggressorSide <;> simp only [Side.opp, Side.signed] <;> split_ifs <;> omega

theorem bought_cons (t : TraderId) (s : Symbol) (trade : Trade) (trades : List Trade) :
    bought t s (trade :: trades) =
      (if trade.symbol = s ∧ trade.buyer = t then trade.qty else 0) + bought t s trades := by
  unfold bought
  by_cases h : trade.symbol = s ∧ trade.buyer = t
  · simp [h]
  · simp [h]

theorem sold_cons (t : TraderId) (s : Symbol) (trade : Trade) (trades : List Trade) :
    sold t s (trade :: trades) =
      (if trade.symbol = s ∧ trade.seller = t then trade.qty else 0) + sold t s trades := by
  unfold sold
  by_cases h : trade.symbol = s ∧ trade.seller = t
  · simp [h]
  · simp [h]

theorem sum_tradeQty (s : Symbol) (trade : Trade) : ∑ t : TraderId, tradeQty t s trade = 0 := by
  have hleg : ∀ t', ∑ t : TraderId, (if trade.symbol = s ∧ t' = t then trade.qty else 0) =
      if trade.symbol = s then trade.qty else 0 := by
    intro t'
    by_cases hs : trade.symbol = s
    · simp only [hs, true_and, if_true]
      rw [Finset.sum_ite_eq, if_pos (Finset.mem_univ _)]
    · simp only [hs, false_and, if_false, Finset.sum_const_zero]
  simp only [tradeQty_eq]
  rw [Finset.sum_sub_distrib, hleg, hleg, Int.sub_self]

/-! ## Any number of trades -/

theorem sum_tradeQty_eq (t : TraderId) (s : Symbol) (trades : List Trade) :
    (trades.map (tradeQty t s)).sum = bought t s trades - sold t s trades := by
  induction trades with
  | nil => rfl
  | cons trade trades ih =>
    rw [List.map_cons, List.sum_cons, ih, tradeQty_eq, bought_cons, sold_cons]
    omega

theorem netQty_start (t : TraderId) (s : Symbol) : ({} : TradeEngine).netQty t s = 0 := by
  rw [netQty_eq, position, Finmap.valueAt_empty]

theorem netQty_run (trades : List Trade) (t : TraderId) (s : Symbol) :
    (trades.foldl processTrade {}).netQty t s = bought t s trades - sold t s trades := by
  rw [netQty_foldl, netQty_start, Int.zero_add, sum_tradeQty_eq]

theorem sum_netQty_run (trades : List Trade) (s : Symbol) :
    ∑ t : TraderId, (trades.foldl processTrade {}).netQty t s = 0 := by
  induction trades using List.reverseRecOn with
  | nil => exact Finset.sum_eq_zero fun t _ => netQty_start t s
  | append_singleton trades trade ih =>
    simp only [List.foldl_append, List.foldl_cons, List.foldl_nil, netQty_processTrade]
    rw [Finset.sum_add_distrib, ih, sum_tradeQty, Int.add_zero]

theorem netQty_run_perm {trades trades' : List Trade} (h : trades.Perm trades') (t : TraderId)
    (s : Symbol) : (trades.foldl processTrade {}).netQty t s =
      (trades'.foldl processTrade {}).netQty t s := by
  rw [netQty_foldl, netQty_foldl, (h.map (tradeQty t s)).sum_eq]

/-- **Positions are the signed fills**: the net quantity of every trader and symbol is what the
trader bought less what it sold, those of a symbol add up to zero, and the order of the trades does
not matter. -/
theorem net_positions_exact (trades : List Trade) :
    (∀ t s, (trades.foldl processTrade {}).netQty t s = bought t s trades - sold t s trades) ∧
      (∀ s, ∑ t : TraderId, (trades.foldl processTrade {}).netQty t s = 0) ∧
      ∀ trades' : List Trade, trades'.Perm trades → ∀ t s,
        (trades'.foldl processTrade {}).netQty t s = (trades.foldl processTrade {}).netQty t s := by
  refine ⟨fun t s => netQty_run trades t s, fun s => sum_netQty_run trades s, ?_⟩
  intro trades' hperm t s
  exact netQty_run_perm hperm t s

end TradeEngine

end HftSdk
