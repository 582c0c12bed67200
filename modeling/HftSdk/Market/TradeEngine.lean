import HftSdk.Common.Types
import HftSdk.Lib.Defaults
import Mathlib.Algebra.Order.Ring.Rat

/-!
# The trade engine

`market/trade_engine.hpp` and `.cpp`. The engine's doubles are read as exact rationals. The two
callbacks hand out the trade and the position that the engine has just stored, and are left out.
-/

namespace HftSdk

/-- Position tracking per trader per symbol. -/
structure Position where
  symbol : Symbol := {}
  netQty : Int := 0
  buyQty : Int := 0
  sellQty : Int := 0
  avgBuyPrice : ℚ := 0
  avgSellPrice : ℚ := 0
  realizedPnl : ℚ := 0
  unrealizedPnl : ℚ := 0
deriving DecidableEq

structure TraderSymbolKey where
  traderId : TraderId
  symbol : Symbol
deriving DecidableEq

structure TradeEngine where
  positions : Finmap fun _ : TraderSymbolKey => Position := ∅
  totalTrades : Nat := 0
  totalVolume : Int := 0
  totalNotional : ℚ := 0

/-! ## One fill of a position -/

namespace Position

/-- Realize the profit of a buy that reduces a short position. -/
def closeShort (pos : Position) (qty price : Int) : Position :=
  if pos.netQty < 0 then
    { pos with
      realizedPnl := pos.realizedPnl + (min qty (-pos.netQty) : Int) * (pos.avgSellPrice - price) }
  else pos

/-- Update the average buy price. -/
def averageBuy (pos : Position) (qty price : Int) : Position :=
  if 0 ≤ pos.netQty then
    { pos with
      buyQty := pos.buyQty + qty
      avgBuyPrice := (pos.avgBuyPrice * pos.buyQty + price * qty) / (pos.buyQty + qty : Int) }
  else pos

/-- Realize the profit of a sell that reduces a long position. -/
def closeLong (pos : Position) (qty price : Int) : Position :=
  if 0 < pos.netQty then
    { pos with
      realizedPnl := pos.realizedPnl + (min qty pos.netQty : Int) * (price - pos.avgBuyPrice) }
  else pos

/-- Update the average sell price. -/
def averageSell (pos : Position) (qty price : Int) : Position :=
  if pos.netQty ≤ 0 then
    { pos with
      sellQty := pos.sellQty + qty
      avgSellPrice := (pos.avgSellPrice * pos.sellQty + price * qty) / (pos.sellQty + qty : Int) }
  else pos

/-- The body of `update_position`. -/
def fill (pos : Position) (side : Side) (qty price : Int) : Position :=
  match side with
  | .buy =>
    { (pos.closeShort qty price).averageBuy qty price with netQty := pos.netQty + qty }
  | .sell =>
    { (pos.closeLong qty price).averageSell qty price with netQty := pos.netQty - qty }

/-- The body of `mark_to_market`. -/
def mark (pos : Position) (currentPrice : Int) : Position :=
  if 0 < pos.netQty then
    { pos with unrealizedPnl := pos.netQty * (currentPrice - pos.avgBuyPrice) }
  else if pos.netQty < 0 then
    { pos with unrealizedPnl := (-pos.netQty : Int) * (pos.avgSellPrice - currentPrice) }
  else { pos with unrealizedPnl := 0 }

end Position

/-! ## The engine -/

namespace TradeEngine

def updatePosition (e : TradeEngine) (traderId : TraderId) (symbol : Symbol) (side : Side)
    (qty price : Int) : TradeEngine :=
  { e with
    positions := e.positions.alter {} ⟨traderId, symbol⟩ fun pos =>
      ({ pos with symbol } : Position).fill side qty price }

/-- Count a trade. -/
def countTrade (e : TradeEngine) (trade : Trade) : TradeEngine :=
  { e with
    totalTrades := e.totalTrades + 1
    totalVolume := e.totalVolume + trade.qty
    totalNotional := e.totalNotional + trade.qty * trade.price }

/-- Incoming (aggressor) first, then resting (passive) on the opposite side. -/
def processTrade (e : TradeEngine) (trade : Trade) : TradeEngine :=
  ((e.countTrade trade).updatePosition trade.incomingTrader trade.symbol trade.aggressorSide
    trade.qty trade.price).updatePosition trade.restingTrader trade.symbol trade.aggressorSide.opp
    trade.qty trade.price

def getPosition (e : TradeEngine) (traderId : TraderId) (symbol : Symbol) : Option Position :=
  e.positions.lookup ⟨traderId, symbol⟩

/-- Mark-to-market all positions for a symbol. -/
def markToMarket (e : TradeEngine) (symbol : Symbol) (currentPrice : Int) : TradeEngine :=
  { e with
    positions := e.positions.mapVals fun key pos =>
      if key.symbol = symbol then pos.mark currentPrice else pos }

/-! ## Positions after an update -/

/-- The position of a trader in a symbol, flat when there is no entry. -/
def position (e : TradeEngine) (traderId : TraderId) (symbol : Symbol) : Position :=
  e.positions.valueAt {} ⟨traderId, symbol⟩

theorem position_updatePosition (e : TradeEngine) (t : TraderId) (s : Symbol) (side : Side)
    (qty price : Int) (t' : TraderId) (s' : Symbol) :
    (e.updatePosition t s side qty price).position t' s' =
      if t' = t ∧ s' = s then ({ e.position t s with symbol := s } : Position).fill side qty price
      else e.position t' s' := by
  unfold position updatePosition
  rw [Finmap.valueAt_alter]
  simp only [TraderSymbolKey.mk.injEq]

theorem position_of_getPosition {e : TradeEngine} {t : TraderId} {s : Symbol} {pos : Position}
    (h : e.getPosition t s = some pos) : e.position t s = pos := by
  rw [position, Finmap.valueAt, show e.positions.lookup ⟨t, s⟩ = some pos from h]
  rfl

theorem getPosition_markToMarket (e : TradeEngine) (s : Symbol) (price : Int) (t : TraderId)
    (s' : Symbol) : (e.markToMarket s price).getPosition t s' =
      (e.getPosition t s').map fun pos => if s' = s then pos.mark price else pos := by
  unfold getPosition markToMarket
  rw [Finmap.lookup_mapVals]

theorem fill_netQty (pos : Position) (side : Side) (qty price : Int) :
    (pos.fill side qty price).netQty = pos.netQty + side.signed qty := by
  cases side
  · rfl
  · exact Int.sub_eq_add_neg

/-! ## Net quantities -/

/-- The net quantity of a trader in a symbol, 0 when there is no entry. -/
def netQty (e : TradeEngine) (traderId : TraderId) (symbol : Symbol) : Int :=
  match e.getPosition traderId symbol with
  | none => 0
  | some pos => pos.netQty

/-- What a trade adds to the net quantity of a trader in a symbol, through either leg. -/
def tradeQty (t : TraderId) (s : Symbol) (trade : Trade) : Int :=
  (if t = trade.incomingTrader ∧ s = trade.symbol then trade.aggressorSide.signed trade.qty else 0) +
    if t = trade.restingTrader ∧ s = trade.symbol then trade.aggressorSide.opp.signed trade.qty else 0

theorem netQty_eq (e : TradeEngine) (t : TraderId) (s : Symbol) :
    e.netQty t s = (e.position t s).netQty := by
  unfold netQty position getPosition Finmap.valueAt
  cases e.positions.lookup ⟨t, s⟩ <;> rfl

theorem netQty_updatePosition (e : TradeEngine) (t : TraderId) (s : Symbol) (side : Side)
    (qty price : Int) (t' : TraderId) (s' : Symbol) :
    (e.updatePosition t s side qty price).netQty t' s' = e.netQty t' s' +
      if t' = t ∧ s' = s then side.signed qty else 0 := by
  rw [netQty_eq, netQty_eq, position_updatePosition]
  split_ifs with h
  · rw [fill_netQty, h.1, h.2]
  · rw [Int.add_zero]

theorem netQty_processTrade (e : TradeEngine) (trade : Trade) (t : TraderId) (s : Symbol) :
    (e.processTrade trade).netQty t s = e.netQty t s + tradeQty t s trade := by
  rw [processTrade, netQty_updatePosition, netQty_updatePosition, Int.add_assoc]
  rfl

/-- **Net quantities are signed sums of trades.** -/
theorem netQty_foldl (e : TradeEngine) (trades : List Trade) (t : TraderId) (s : Symbol) :
    (trades.foldl processTrade e).netQty t s = e.netQty t s + (trades.map (tradeQty t s)).sum := by
  induction trades generalizing e with
  | nil => exact (Int.add_zero _).symm
  | cons trade trades ih =>
    rw [List.foldl_cons, ih, netQty_processTrade, List.map_cons, List.sum_cons, Int.add_assoc]

end TradeEngine

end HftSdk
