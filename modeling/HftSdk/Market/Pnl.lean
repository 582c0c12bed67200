import HftSdk.Market.TradeEngine
import HftSdk.Lib.Run
import Mathlib.Tactic.FieldSimp
import Mathlib.Tactic.LinearCombination
import Mathlib.Tactic.Linarith
import Mathlib.Tactic.Ring

/-!
# Profit and loss

A position is balanced when its realized profit is its cash flow plus its quantity at cost, the cost
of a long position being the average buy price and that of a short one the average sell price. That
is what marking to market needs (`mark_pnl_iff`). `fill_balanced_iff` says exactly which fills keep
a position balanced: the averages run over everything ever bought or sold from a flat or a like
position, so a fill after a round trip is averaged with prices that are closed out, and a fill that
flips a position is not averaged at all.
-/

namespace HftSdk

namespace Position

/-- The price the open quantity counts at. -/
def cost (pos : Position) : ℚ := if 0 < pos.netQty then pos.avgBuyPrice else pos.avgSellPrice

/-- The realized profit is the cash flow plus the open quantity at cost. -/
def Balanced (pos : Position) (cash : ℚ) : Prop := pos.realizedPnl = cash + pos.netQty * pos.cost

/-- Quantities bought and sold never go below zero. -/
def Counted (pos : Position) : Prop := 0 ≤ pos.buyQty ∧ 0 ≤ pos.sellQty

/-- The cash flow of a fill: paid for a buy, received for a sell. -/
def flow (side : Side) (qty price : Int) : ℚ := -((side.signed qty : Int) * price)

/-- The fill is averaged with the open quantity only, or closes without flipping, or is made at the
recorded average anyway. -/
def AtCost (pos : Position) (side : Side) (qty price : Int) : Prop :=
  match side with
  | .buy =>
    0 ≤ pos.netQty ∧ (pos.buyQty = pos.netQty ∨ price = pos.avgBuyPrice) ∨
      pos.netQty < 0 ∧ (qty ≤ -pos.netQty ∨ price = pos.avgBuyPrice)
  | .sell =>
    pos.netQty ≤ 0 ∧ (pos.sellQty = -pos.netQty ∨ price = pos.avgSellPrice) ∨
      0 < pos.netQty ∧ (qty ≤ pos.netQty ∨ price = pos.avgSellPrice)

instance (pos : Position) (side : Side) (qty price : Int) : Decidable (pos.AtCost side qty price) := by
  unfold AtCost
  cases side <;> infer_instance

/-- The quantities of the fill and after it are `int64_t`s, and so is the size of the position. -/
def FillFits (pos : Position) (side : Side) (qty : Int) : Prop :=
  qty < 2 ^ 63 ∧ |pos.netQty + side.signed qty| < 2 ^ 63 ∧
    match side with
    | .buy => 0 ≤ pos.netQty → pos.buyQty + qty < 2 ^ 63
    | .sell => pos.netQty ≤ 0 → pos.sellQty + qty < 2 ^ 63

instance (pos : Position) (side : Side) (qty : Int) : Decidable (pos.FillFits side qty) := by
  unfold FillFits
  cases side <;> infer_instance

theorem counted_fill {pos : Position} (h : pos.Counted) {qty : Int} (hq : 0 < qty) (side : Side)
    (price : Int) : (pos.fill side qty price).Counted := by
  obtain ⟨hb, hs⟩ := h
  cases side
  · unfold fill averageBuy closeShort Counted
    split_ifs <;> exact ⟨by dsimp only; omega, by dsimp only; omega⟩
  · unfold fill averageSell closeLong Counted
    split_ifs <;> exact ⟨by dsimp only; omega, by dsimp only; omega⟩

theorem average_eq_iff {n B q : ℚ} (hB : B + q ≠ 0) (hq : q ≠ 0) (a p : ℚ) :
    n * a + q * p = (n + q) * ((a * B + p * q) / (B + q)) ↔ B = n ∨ p = a := by
  rw [mul_div_assoc', eq_div_iff hB]
  constructor
  · intro h
    have h' : q * ((a - p) * (n - B)) = 0 := by linear_combination h
    rcases mul_eq_zero.mp ((mul_eq_zero.mp h').resolve_left hq) with h | h
    · exact Or.inr (sub_eq_zero.mp h).symm
    · exact Or.inl (sub_eq_zero.mp h).symm
  · rintro (rfl | rfl) <;> ring

theorem buy_balanced_iff {pos : Position} {cash : ℚ} (h : pos.Balanced cash) (hc : pos.Counted)
    {qty : Int} (hq : 0 < qty) (price : Int) :
    (pos.fill .buy qty price).Balanced (cash + flow .buy qty price) ↔ pos.AtCost .buy qty price := by
  have hq' : (qty : ℚ) ≠ 0 := by exact_mod_cast hq.ne'
  simp only [AtCost, Balanced, flow, Side.signed, fill] at h ⊢
  rcases lt_or_ge pos.netQty 0 with hneg | hnonneg
  · -- short: the buy closes at the average sell price and may flip the position
    have hcost : pos.cost = pos.avgSellPrice := if_neg (by omega)
    rw [hcost] at h
    have hclose : (pos.closeShort qty price).averageBuy qty price = { pos with
        realizedPnl :=
          pos.realizedPnl + (min qty (-pos.netQty) : Int) * (pos.avgSellPrice - price) } := by
      rw [closeShort, if_pos hneg, averageBuy, if_neg (by dsimp only; omega)]
    simp only [hclose, cost, not_le.mpr hneg, hneg, false_and, true_and, false_or]
    rcases le_or_gt qty (-pos.netQty) with hle | hgt
    · rw [min_eq_left hle, if_neg (by omega), h]
      refine iff_of_true ?_ (Or.inl hle)
      push_cast
      ring
    · have hflip : (pos.netQty : ℚ) + qty ≠ 0 := by
        exact_mod_cast (show pos.netQty + qty ≠ 0 by omega)
      rw [min_eq_right hgt.le, if_pos (by omega), h, or_iff_right (not_le.mpr hgt)]
      push_cast
      constructor
      · intro heq
        have : ((pos.netQty : ℚ) + qty) * (price - pos.avgBuyPrice) = 0 := by linear_combination heq
        exact sub_eq_zero.mp ((mul_eq_zero.mp this).resolve_left hflip)
      · rintro heq
        rw [heq]
        ring
  · have hB : (pos.buyQty : ℚ) + qty ≠ 0 := by
      have := hc.1
      exact_mod_cast (show pos.buyQty + qty ≠ 0 by omega)
    have hcost : (pos.netQty : ℚ) * pos.cost = pos.netQty * pos.avgBuyPrice := by
      unfold cost
      split_ifs
      · rfl
      · simp [show pos.netQty = 0 by omega]
    rw [hcost] at h
    have hclose : (pos.closeShort qty price).averageBuy qty price = { pos with
        buyQty := pos.buyQty + qty
        avgBuyPrice :=
          (pos.avgBuyPrice * pos.buyQty + price * qty) / (pos.buyQty + qty : Int) } := by
      rw [closeShort, if_neg (not_lt.mpr hnonneg), averageBuy, if_pos hnonneg]
    simp only [hclose, cost, hnonneg, not_lt.mpr hnonneg, true_and, false_and, or_false]
    rw [if_pos (by omega), h]
    have hiff := average_eq_iff (n := pos.netQty) hB hq' pos.avgBuyPrice price
    rw [Int.cast_inj] at hiff
    rw [← hiff]
    push_cast
    constructor <;> intro heq <;> linear_combination heq

/-- Buying seen as selling at the negative price. -/
def mirror (pos : Position) : Position where
  symbol := pos.symbol
  netQty := -pos.netQty
  buyQty := pos.sellQty
  sellQty := pos.buyQty
  avgBuyPrice := -pos.avgSellPrice
  avgSellPrice := -pos.avgBuyPrice
  realizedPnl := pos.realizedPnl
  unrealizedPnl := pos.unrealizedPnl

theorem mirror_balanced (pos : Position) (cash : ℚ) : pos.mirror.Balanced cash ↔ pos.Balanced cash := by
  have : (pos.mirror.netQty : ℚ) * pos.mirror.cost = pos.netQty * pos.cost := by
    unfold cost mirror
    dsimp only
    push_cast
    split_ifs
    · omega
    · ring
    · ring
    · simp [show pos.netQty = 0 by omega]
  rw [Balanced, Balanced, this]
  rfl

theorem mirror_fill (pos : Position) (qty price : Int) :
    pos.mirror.fill .buy qty (-price) = (pos.fill .sell qty price).mirror := by
  have hlong : pos.mirror.netQty < 0 ↔ 0 < pos.netQty := Left.neg_neg_iff
  have hshort : 0 ≤ pos.mirror.netQty ↔ pos.netQty ≤ 0 := Left.nonneg_neg_iff
  by_cases h : 0 < pos.netQty
  · simp only [fill, closeShort, closeLong, averageBuy, averageSell, hlong, hshort, h, not_le.mpr h,
      if_true, if_false]
    simp only [mirror, Position.mk.injEq, true_and, and_true, neg_neg]
    refine ⟨by ring, ?_⟩
    push_cast
    ring
  · simp only [fill, closeShort, closeLong, averageBuy, averageSell, hlong, hshort, h, not_lt.mp h,
      if_true, if_false]
    simp only [mirror, Position.mk.injEq, true_and, and_true]
    refine ⟨by ring, ?_⟩
    push_cast
    ring

theorem mirror_atCost (pos : Position) (qty price : Int) :
    pos.mirror.AtCost .buy qty (-price) ↔ pos.AtCost .sell qty price := by
  simp only [AtCost, mirror]
  push_cast
  simp only [neg_inj, neg_neg, Left.neg_neg_iff, Left.nonneg_neg_iff]

/-- **A fill keeps a position balanced** exactly when it is made at cost. -/
theorem fill_balanced_iff {pos : Position} {cash : ℚ} (h : pos.Balanced cash) (hc : pos.Counted)
    {qty : Int} (hq : 0 < qty) (side : Side) (price : Int) :
    (pos.fill side qty price).Balanced (cash + flow side qty price) ↔ pos.AtCost side qty price := by
  cases side with
  | buy => exact buy_balanced_iff h hc hq price
  | sell =>
    have hflow : flow .sell qty price = flow .buy qty (-price) := by
      simp [flow, Side.signed]
    rw [← mirror_balanced, ← mirror_fill, ← mirror_atCost, hflow]
    exact buy_balanced_iff ((mirror_balanced pos cash).mpr h) ⟨hc.2, hc.1⟩ hq (-price)

/-! ## Marking to market -/

@[simp] theorem mark_balanced (pos : Position) (price : Int) (cash : ℚ) :
    (pos.mark price).Balanced cash ↔ pos.Balanced cash := by
  unfold mark
  split_ifs <;> rfl

@[simp] theorem mark_netQty (pos : Position) (price : Int) : (pos.mark price).netQty = pos.netQty := by
  unfold mark
  split_ifs <;> rfl

theorem counted_mark {pos : Position} (h : pos.Counted) (price : Int) : (pos.mark price).Counted := by
  unfold mark
  split_ifs <;> exact h

theorem mark_pnl_iff (pos : Position) (price : Int) (cash : ℚ) :
    (pos.mark price).realizedPnl + (pos.mark price).unrealizedPnl = cash + pos.netQty * price ↔
      pos.Balanced cash := by
  unfold mark Balanced cost
  split_ifs with hlong hshort
  · constructor <;> intro h <;> linear_combination h
  · push_cast
    constructor <;> intro h <;> linear_combination h
  · simp [show pos.netQty = 0 by omega]

theorem Balanced.flat {pos : Position} {cash : ℚ} (h : pos.Balanced cash) (hflat : pos.netQty = 0) :
    pos.realizedPnl = cash := by
  rw [h, hflat]
  simp

end Position

/-! ## Runs -/

namespace TradeEngine

/-- What a trade moves on the accounts of a trader in a symbol, through either leg. -/
def tradeFlow (t : TraderId) (s : Symbol) (tr : Trade) : ℚ :=
  (if t = tr.incomingTrader ∧ s = tr.symbol then
    Position.flow tr.aggressorSide tr.qty tr.price else 0) +
  if t = tr.restingTrader ∧ s = tr.symbol then
    Position.flow tr.aggressorSide.opp tr.qty tr.price else 0

/-- The net cash flow of a trader in a symbol: what was received for sells without what was paid for
buys. -/
def cash (t : TraderId) (s : Symbol) (trades : List Trade) : ℚ := (trades.map (tradeFlow t s)).sum

/-- Both fills of a trade are made at cost, the resting trader's coming second. -/
def AtCost (e : TradeEngine) (tr : Trade) : Prop :=
  (e.position tr.incomingTrader tr.symbol).AtCost tr.aggressorSide tr.qty tr.price ∧
    ((e.updatePosition tr.incomingTrader tr.symbol tr.aggressorSide tr.qty tr.price).position
      tr.restingTrader tr.symbol).AtCost tr.aggressorSide.opp tr.qty tr.price

/-- Both fills of a trade leave quantities that are `int64_t`s. -/
def FillFits (e : TradeEngine) (tr : Trade) : Prop :=
  (e.position tr.incomingTrader tr.symbol).FillFits tr.aggressorSide tr.qty ∧
    ((e.updatePosition tr.incomingTrader tr.symbol tr.aggressorSide tr.qty tr.price).position
      tr.restingTrader tr.symbol).FillFits tr.aggressorSide.opp tr.qty

/-- Every position is balanced with its cash flow. -/
def Balanced (e : TradeEngine) (cash : TraderId → Symbol → ℚ) : Prop :=
  ∀ t s, (e.position t s).Balanced (cash t s) ∧ (e.position t s).Counted

theorem Balanced.updatePosition {e : TradeEngine} {cash : TraderId → Symbol → ℚ} (h : e.Balanced cash)
    {t : TraderId} {s : Symbol} {side : Side} {qty price : Int} (hq : 0 < qty)
    (hcost : (e.position t s).AtCost side qty price) :
    (e.updatePosition t s side qty price).Balanced fun t' s' =>
      cash t' s' + if t' = t ∧ s' = s then Position.flow side qty price else 0 := by
  intro t' s'
  rw [position_updatePosition]
  dsimp only
  split_ifs with hts
  · obtain ⟨rfl, rfl⟩ := hts
    have hb : ({ e.position t' s' with symbol := s' } : Position).Balanced (cash t' s') := (h t' s').1
    have hc : ({ e.position t' s' with symbol := s' } : Position).Counted := (h t' s').2
    exact ⟨(Position.fill_balanced_iff hb hc hq side price).mpr hcost,
      Position.counted_fill hc hq side price⟩
  · rw [add_zero]
    exact h t' s'

theorem Balanced.processTrade {e : TradeEngine} {trades : List Trade}
    (h : e.Balanced fun t s => cash t s trades) {tr : Trade} (hq : 0 < tr.qty) (hcost : e.AtCost tr) :
    (e.processTrade tr).Balanced fun t s => cash t s (trades ++ [tr]) := by
  have hcount : (e.countTrade tr).Balanced fun t s => cash t s trades := h
  have hboth := (hcount.updatePosition hq hcost.1).updatePosition hq hcost.2
  intro t s
  have := hboth t s
  simp only [cash, List.map_append, List.map_cons, List.map_nil, List.sum_append, List.sum_cons,
    List.sum_nil, add_zero, tradeFlow, ← add_assoc]
  exact this

theorem position_markToMarket (e : TradeEngine) (s : Symbol) (price : Int) (t : TraderId)
    (s' : Symbol) : (e.markToMarket s price).position t s' =
      if s' = s then (e.position t s').mark price else e.position t s' := by
  have h := e.getPosition_markToMarket s price t s'
  unfold position Finmap.valueAt
  change ((e.markToMarket s price).getPosition t s').getD {} =
    if _ then ((e.getPosition t s').getD {}).mark price else (e.getPosition t s').getD {}
  rw [h]
  cases e.getPosition t s' with
  | none => split_ifs <;> rfl
  | some pos => split_ifs <;> rfl

theorem Balanced.markToMarket {e : TradeEngine} {cash : TraderId → Symbol → ℚ} (h : e.Balanced cash)
    (s : Symbol) (price : Int) : (e.markToMarket s price).Balanced cash := by
  intro t s'
  rw [position_markToMarket]
  split_ifs
  · exact ⟨(Position.mark_balanced _ _ _).mpr (h t s').1, Position.counted_mark (h t s').2 price⟩
  · exact h t s'

end TradeEngine

inductive TradeOp
  | trade (trade : Trade)
  | mark (symbol : Symbol) (price : Int)

/-- The engine with the trades it has processed. -/
structure TradeRun where
  engine : TradeEngine := {}
  trades : List Trade := []

namespace TradeRun

def step (r : TradeRun) : TradeOp → TradeRun
  | .trade tr => { engine := r.engine.processTrade tr, trades := r.trades ++ [tr] }
  | .mark symbol price => { r with engine := r.engine.markToMarket symbol price }

/-- Trades are positive, in the range of 64-bit integers and made at cost; marks are free. -/
def AtCost (r : TradeRun) : TradeOp → Prop
  | .trade tr => 0 < tr.qty ∧ r.engine.FillFits tr ∧ r.engine.AtCost tr
  | .mark _ _ => True

instance (r : TradeRun) (op : TradeOp) : Decidable (r.AtCost op) := by
  cases op <;> unfold AtCost TradeEngine.AtCost TradeEngine.FillFits <;> infer_instance

/-- The profit identity of every position of a symbol, marked to a price. -/
def PnlIdentity (r : TradeRun) (s : Symbol) (price : Int) : Prop :=
  ∀ t pos, (r.engine.markToMarket s price).getPosition t s = some pos →
    pos.realizedPnl + pos.unrealizedPnl = TradeEngine.cash t s r.trades + pos.netQty * price ∧
      (pos.netQty = 0 → pos.realizedPnl = TradeEngine.cash t s r.trades)

theorem pnlIdentity_of_balanced {r : TradeRun}
    (h : r.engine.Balanced fun t s => TradeEngine.cash t s r.trades) (s : Symbol) (price : Int) :
    r.PnlIdentity s price := by
  intro t pos hpos
  have hb := (h t s).1
  have heq := TradeEngine.position_of_getPosition hpos
  rw [TradeEngine.position_markToMarket, if_pos rfl] at heq
  subst heq
  rw [Position.mark_netQty]
  refine ⟨(Position.mark_pnl_iff _ _ _).mpr hb, ?_⟩
  intro hflat
  exact ((Position.mark_balanced _ _ _).mpr hb).flat ((Position.mark_netQty _ _).trans hflat)

/-- **The profit identity** over every run of trades at cost. -/
theorem run_pnlIdentity {ops : List TradeOp} (h : Run.Along step AtCost {} ops) (s : Symbol)
    (price : Int) : (ops.foldl step {}).PnlIdentity s price := by
  refine pnlIdentity_of_balanced (h.invariant (I := fun r =>
    r.engine.Balanced fun t s => TradeEngine.cash t s r.trades) (fun r op hr hop => ?_) ?_) s price
  · cases op with
    | trade tr => exact hr.processTrade hop.1 hop.2.2
    | mark symbol price => exact hr.markToMarket symbol price
  · intro t s
    have : ({} : TradeEngine).position t s = {} := Finmap.valueAt_empty _ _
    change (({} : TradeEngine).position t s).Balanced 0 ∧ (({} : TradeEngine).position t s).Counted
    rw [this]
    exact ⟨by simp [Position.Balanced], le_rfl, le_rfl⟩

/-- A trade of trader 1 with trader 2. -/
def tradeOf (side : Side) (qty price : Int) : TradeOp :=
  .trade
    { restingId := 1, incomingId := 2, restingTrader := 2, incomingTrader := 1, symbol := {}
      aggressorSide := side, price, qty, matchTimestampNs := 0 }

/-- A position that is opened, added to and closed in part. -/
theorem run_pnlIdentity_partial_close :
    (([tradeOf .buy 10 100, tradeOf .buy 6 108, .mark {} 105, tradeOf .sell 4 110].foldl step
      {}).PnlIdentity {} 120) :=
  run_pnlIdentity (by decide) {} 120

/-- After a round trip from 100 to 110 the average of the next buy at 200 still counts the first
one: a second round trip at 200 realizes a profit that was never made. -/
theorem round_trip_breaks_identity :
    ¬ ∀ ops : List TradeOp, (∀ tr, .trade tr ∈ ops → 0 < tr.qty) →
      ∀ s price, (ops.foldl step {}).PnlIdentity s price := by
  intro h
  have hid := h [tradeOf .buy 10 100, tradeOf .sell 10 110, tradeOf .buy 10 200, tradeOf .sell 10 200]
    (by simp [tradeOf]) {} 0 1
  have hpos : ((([tradeOf .buy 10 100, tradeOf .sell 10 110, tradeOf .buy 10 200,
      tradeOf .sell 10 200].foldl step {}).engine.markToMarket {} 0).getPosition 1 {}).map
        (fun pos => (pos.netQty, pos.realizedPnl)) = some (0, 600) := by decide +kernel
  obtain ⟨pos, hsome, hval⟩ := Option.map_eq_some_iff.mp hpos
  obtain ⟨hflat, hrealized⟩ := Prod.mk.inj hval
  have hcash := (hid pos hsome).2 hflat
  rw [hrealized] at hcash
  exact absurd hcash (by decide +kernel)

end TradeRun

end HftSdk
