import HftSdk.Market.MatchingEngine
import HftSdk.Orderbook.Reports

/-!
# The last fill of a report

`last_qty` and `last_price` are set in one branch of the status cascade of `add_order`: that of an
order of which something was traded and something is left. A submission that is filled reports no
last fill, so that the engine hands a price of 0 to the risk engine. `last_fill_iff` says that this
is the only case.
-/

namespace HftSdk

open Sweep

namespace MatchingEngine

/-- The price that `process_new_order` passes to `on_fill`, when it calls it. -/
def onFillPrice (rpt : ExecutionReport) : Option Int :=
  if 0 < rpt.filledQty then some rpt.lastPrice else none

theorem fillRisk_eq (e : MatchingEngine) (order : Order) (rpt : ExecutionReport) :
    e.fillRisk order rpt =
      match onFillPrice rpt with
      | some price =>
        { e with
          riskEngine := e.riskEngine.map fun risk =>
            risk.onFill order.traderId order.symbol order.side rpt.filledQty price }
      | none => e := by
  unfold fillRisk onFillPrice
  split_ifs <;> rfl

end MatchingEngine

namespace L3OrderBook

variable {b : L3OrderBook}

/-! ## What the fields should say -/

/-- The last-fill fields are those of the last of these trades, and 0 without one. -/
structure LastFill (rpt : ExecutionReport) (trades : List Trade) : Prop where
  qty : rpt.lastQty = (trades.getLast?.map Trade.qty).getD 0
  price : rpt.lastPrice = (trades.getLast?.map Trade.price).getD 0

/-- The report of a call is right about the last fill, and when the call is a submission of the
engine, the risk engine is told a price that traded. -/
structure ReportsLastFill (b : L3OrderBook) (op : BookOp) : Prop where
  last : LastFill (b.step op).rpt (b.step op).trades
  onFill : ∀ o ts price, op = .add o ts → MatchingEngine.onFillPrice (b.step op).rpt = some price →
    ∃ t ∈ (b.step op).trades, t.price = price

/-- The call submits an order that asks for something and finds all of it: as a new order, or in
place of one that rests. -/
def FillsWhole (b : L3OrderBook) : BookOp → Prop
  | .add o _ => o.id ∉ b.orderIndex ∧ 0 < o.quantity ∧ o.quantity ≤ b.tradableQty o
  | .replace req ts => ∃ loc, b.orderIndex.lookup req.orderId = some loc ∧ 0 < req.newQty ∧
      req.newQty ≤ b.tradableQty (replacement req loc.side ts)
  | .cancel _ _ => False

/-! ## The report of a submission -/

theorem handleRemainder_last (b : L3OrderBook) (rpt : ExecutionReport) (o : Order)
    (res : MatchResult) (ts : Timestamp) :
    (b.handleRemainder rpt o res ts).1.lastQty = rpt.lastQty ∧
      (b.handleRemainder rpt o res ts).1.lastPrice = rpt.lastPrice := by
  unfold handleRemainder
  by_cases hrem : 0 < res.remainingQty ∧ o.type = .limit
  · rw [if_pos hrem]
    cases o.tif <;> exact ⟨rfl, rfl⟩
  · rw [if_neg hrem]
    exact ⟨rfl, rfl⟩

theorem matchedReport_last (rpt : ExecutionReport) (hq : rpt.lastQty = 0) (hp : rpt.lastPrice = 0)
    (o : Order) (res : MatchResult) :
    if res.remainingQty ≠ 0 ∧ 0 < o.quantity - res.remainingQty then
      LastFill (matchedReport rpt o res) res.trades
    else (matchedReport rpt o res).lastQty = 0 ∧ (matchedReport rpt o res).lastPrice = 0 := by
  unfold matchedReport
  dsimp only
  by_cases hzero : res.remainingQty = 0
  · rw [if_neg fun h => h.1 hzero, if_pos hzero]
    exact ⟨hq, hp⟩
  · by_cases hsome : 0 < o.quantity - res.remainingQty
    · rw [if_pos ⟨hzero, hsome⟩, if_neg hzero, if_pos hsome]
      cases hl : res.trades.getLast? with
      | none => exact ⟨by rw [hl]; exact hq, by rw [hl]; exact hp⟩
      | some t => exact ⟨by rw [hl]; rfl, by rw [hl]; rfl⟩
    · rw [if_neg fun h => hsome h.2, if_neg hzero, if_neg hsome]
      exact ⟨hq, hp⟩

theorem RepInv.addOrder_last (h : b.RepInv) {o : Order} (hid : ¬ b.ladder.Has o.id) (ts : Timestamp) :
    if b.ladder.remainder o ≠ 0 ∧ 0 < taken (b.ladder.fillsOf o) then
      LastFill (b.addOrder o ts).rpt (b.addOrder o ts).trades
    else (b.addOrder o ts).rpt.lastQty = 0 ∧ (b.addOrder o ts).rpt.lastPrice = 0 := by
  have hm := h.matchIncoming o ts
  obtain ⟨hrpt, -, htrades⟩ := addOrder_of_not_mem (mt (h.mem_index o.id).mp hid) ts
  have hmatched := matchedReport_last (addReport o ts) rfl rfl o (b.matchIncoming o ts).1
  obtain ⟨hqty, hprice⟩ := (b.matchIncoming o ts).2.handleRemainder_last
    (matchedReport (addReport o ts) o (b.matchIncoming o ts).1) o (b.matchIncoming o ts).1 ts
  rw [← hrpt] at hqty hprice
  have htaken : o.quantity - (b.matchIncoming o ts).1.remainingQty = taken (b.ladder.fillsOf o) := by
    rw [hm.remaining, Ladder.remainder]
    omega
  rw [htaken, hm.remaining] at hmatched
  split_ifs at hmatched ⊢
  · rw [htrades]
    exact ⟨hqty.trans hmatched.qty, hprice.trans hmatched.price⟩
  · exact ⟨hqty.trans hmatched.1, hprice.trans hmatched.2⟩

theorem RepInv.exists_last (h : b.RepInv) {o : Order} (hid : ¬ b.ladder.Has o.id) (ts : Timestamp)
    (htaken : 0 < taken (b.ladder.fillsOf o)) :
    ∃ t, (b.addOrder o ts).trades.getLast? = some t ∧ 0 < t.qty := by
  have htrades := (h.outcome hid ts).trades
  have hne : (b.addOrder o ts).trades ≠ [] := by
    rw [htrades, ne_eq, fillTrades_eq_nil, h.inv.fillsOf_eq_nil]
    omega
  obtain ⟨t, ht⟩ := Option.ne_none_iff_exists'.mp (mt List.getLast?_eq_none_iff.mp hne)
  refine ⟨t, ht, ?_⟩
  have hmem := List.mem_map_of_mem (f := Trade.qty) (List.mem_of_getLast? ht)
  rw [htrades, BookCore.map_fillTrades (k := Prod.snd) fun _ _ => rfl] at hmem
  obtain ⟨x, hx, heq⟩ := List.mem_map.mp hmem
  have hpos := (h.inv.fillsOf_bounds hx).2.1
  omega

theorem RepInv.lastFill_iff (h : b.RepInv) {o : Order} (hid : ¬ b.ladder.Has o.id) (ts : Timestamp) :
    LastFill (b.addOrder o ts).rpt (b.addOrder o ts).trades ↔
      ¬ (0 < o.quantity ∧ o.quantity ≤ b.tradableQty o) := by
  have hlast := h.addOrder_last hid ts
  have htaken := h.inv.taken_nonneg o
  have hrem : b.ladder.remainder o = o.quantity - taken (b.ladder.fillsOf o) := rfl
  have hzero := h.inv.remainder_eq_zero_iff o
  rw [tradableQty_eq]
  by_cases hnone : taken (b.ladder.fillsOf o) = 0
  · -- nothing traded
    have hnil : (b.addOrder o ts).trades = [] := by
      rw [(h.outcome hid ts).trades, fillTrades_eq_nil, h.inv.fillsOf_eq_nil, hnone]
    rw [if_neg (by omega)] at hlast
    refine iff_of_true ⟨?_, ?_⟩ (by omega)
    · rw [hnil, hlast.1]
      rfl
    · rw [hnil, hlast.2]
      rfl
  · obtain ⟨t, ht, hpos⟩ := h.exists_last hid ts (by omega)
    by_cases hwhole : b.ladder.remainder o = 0
    · rw [if_neg fun hc => hc.1 hwhole] at hlast
      refine iff_of_false (fun hright => ?_) (by omega)
      have hqty := hright.qty
      rw [ht, hlast.1] at hqty
      exact hpos.ne hqty
    · rw [if_pos ⟨hwhole, by omega⟩] at hlast
      exact iff_of_true hlast (by omega)

/-! ## Every call -/

theorem lastFill_nil {rpt : ExecutionReport} (hq : rpt.lastQty = 0) (hp : rpt.lastPrice = 0) :
    LastFill rpt [] := ⟨hq, hp⟩

theorem RepInv.lastFill_step_iff (h : b.RepInv) (op : BookOp) :
    LastFill (b.step op).rpt (b.step op).trades ↔ ¬ b.FillsWhole op := by
  cases op with
  | add o ts =>
    rw [L3OrderBook.step, FillsWhole, h.mem_index]
    by_cases hid : b.ladder.Has o.id
    · rw [h.addOrder_of_has hid]
      exact iff_of_true (lastFill_nil rfl rfl) fun hw => hw.1 hid
    · rw [h.lastFill_iff hid, and_iff_right hid]
  | cancel id ts =>
    refine iff_of_true ?_ not_false
    rw [L3OrderBook.step, L3OrderBook.cancelOrder]
    cases b.orderIndex.lookup id <;> exact lastFill_nil rfl rfl
  | replace req ts =>
    rw [L3OrderBook.step, FillsWhole]
    cases hl : b.orderIndex.lookup req.orderId with
    | none =>
      rw [h.replaceOrder_of_not_has (h.not_has_of_lookup hl)]
      refine iff_of_true (lastFill_nil rfl rfl) ?_
      rintro ⟨loc, hloc, -⟩
      cases hloc
    | some loc =>
      obtain ⟨q, hq, hid, hside⟩ := h.exists_of_lookup hl
      obtain ⟨-, htrades, hrpt⟩ := h.replaceOrder_eq hq hid ts
      have hc := h.cancelOrder {} req.orderId ts
      have hnew : ¬ (b.cancelOrder req.orderId ts).book.ladder.Has req.orderId := by
        rw [hc.ladder]
        exact Ladder.not_has_cancel _ _
      -- the cancel does not touch the side that the replacement trades against
      have hliq : (b.cancelOrder req.orderId ts).book.tradableQty (replacement req q.order.side ts) =
          b.tradableQty (replacement req q.order.side ts) := by
        rw [tradableQty_eq, tradableQty_eq, hc.ladder, ← hid]
        exact h.inv.liquidity_cancel hq rfl
      rw [htrades, hrpt, hc.repInv.lastFill_iff hnew, hliq, hside]
      refine not_congr ⟨fun hw => ⟨loc, rfl, hw⟩, ?_⟩
      rintro ⟨loc', hloc', hw⟩
      obtain rfl := Option.some_inj.mp hloc'
      exact hw

/-- **The report of a call is right about the last fill**, and the risk engine is told a price that
traded, if and only if the call does not fill its order whole. -/
theorem last_fill_iff (symbol : Symbol) (ops : List BookOp) (op : BookOp) :
    ((create symbol).run ops).ReportsLastFill op ↔ ¬ ((create symbol).run ops).FillsWhole op := by
  have h := ((repInv_create symbol).run ops).2
  generalize (create symbol).run ops = b at h
  refine ⟨fun hr => (h.lastFill_step_iff op).mp hr.last, fun hw => ?_⟩
  have hlast := (h.lastFill_step_iff op).mpr hw
  refine ⟨hlast, ?_⟩
  rintro o ts price rfl hprice
  rw [L3OrderBook.step] at hlast hprice ⊢
  unfold MatchingEngine.onFillPrice at hprice
  split_ifs at hprice with hfilled
  obtain rfl := Option.some_inj.mp hprice
  -- something was traded, so there is a last trade
  have hne : (b.addOrder o ts).trades ≠ [] := by
    intro hnil
    by_cases hid : b.ladder.Has o.id
    · rw [h.addOrder_of_has hid] at hfilled
      exact absurd hfilled (lt_irrefl 0)
    · have hzero : taken (b.ladder.fillsOf o) = 0 := by
        rwa [(h.outcome hid ts).trades, fillTrades_eq_nil, h.inv.fillsOf_eq_nil] at hnil
      have hrpt := congrArg (·.2.1) (h.outcome hid ts).rpt
      dsimp only at hrpt
      rw [hrpt, Ladder.remainder, hzero, Int.sub_zero, reported] at hfilled
      split_ifs at hfilled with hrem <;> simp at hfilled
      omega
  refine ⟨_, List.getLast_mem hne, ?_⟩
  rw [hlast.price, List.getLast?_eq_some_getLast hne]
  rfl

/-- An order for 4 that finds 4 at 100 is filled, and the risk engine is told a price of 0. -/
theorem last_fill_missing :
    ¬ ((create {}).run [.add { id := 1, traderId := 1, side := .sell, price := 100, quantity := 4 }
      0]).ReportsLastFill (.add { id := 2, traderId := 2, price := 101, quantity := 4 } 1) := by
  intro h
  obtain ⟨t, ht, hprice⟩ := h.onFill _ _ 0 rfl (by decide)
  revert t
  decide

end L3OrderBook

end HftSdk
