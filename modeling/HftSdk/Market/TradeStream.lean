import HftSdk.Market.DropCopy

/-!
# The stream of trades

A subscriber can check every trade when it is called back. The drop copy he has kept so far shows the
resting order at the head of its side, of the trader, at the price and with the quantity that the
trade says (`along_events`): nobody trades ahead of the best order that the callbacks have told of,
none of it is traded twice, and no trade is called back before its order is known.
-/

namespace HftSdk

open Sweep

/-- The deal is with the best order on the other side. -/
def OpenOrders.Explains (c : OpenOrders) (d : Deal) : Prop :=
  ∃ x ∈ (c d.aggressorSide.opp).head?, x.id = d.restingId ∧ x.traderId = d.restingTrader ∧
    x.price = d.price ∧ 0 < d.qty ∧ d.qty ≤ x.openQty

theorem OpenOrders.along_onTrade {o : Order} {fs : List (OpenOrder × Int)} {trades : List Trade}
    (hdeals : trades.map Trade.deal = fs.map (dealOf o)) {c : OpenOrders}
    (h : Run.Along (fun l x => debit OpenOrder.openQty OpenOrder.reduce OpenOrder.id x.1.id x.2 l)
      (fun l x => l.head? = some x.1 ∧ 0 < x.2 ∧ x.2 ≤ x.1.openQty) (c o.side.opp) fs) :
    Run.Along onTrade (fun c t => c.Explains t.deal) c trades := by
  induction trades generalizing fs c with
  | nil => trivial
  | cons t trades ih =>
    cases fs with
    | nil => cases hdeals
    | cons x fs =>
      rw [List.map_cons, List.map_cons, List.cons.injEq] at hdeals
      obtain ⟨hdeal, hdeals⟩ := hdeals
      obtain ⟨⟨hhead, hpos, hle⟩, hrest⟩ := h
      have hnext : c.onTrade t = Function.update c o.side.opp
          (debit OpenOrder.openQty OpenOrder.reduce OpenOrder.id x.1.id x.2 (c o.side.opp)) := by
        have hside : t.aggressorSide = o.side := congrArg Deal.aggressorSide hdeal
        have hid : t.restingId = x.1.id := congrArg Deal.restingId hdeal
        have hqty : t.qty = x.2 := congrArg Deal.qty hdeal
        rw [onTrade, hside, hid, hqty]
      refine ⟨?_, ih hdeals ?_⟩
      · dsimp only
        rw [hdeal]
        exact ⟨x.1, hhead, rfl, rfl, rfl, hpos, hle⟩
      · rw [hnext, Function.update_self]
        exact hrest

namespace L3OrderBook

theorem RepInv.along_addOrder {b : L3OrderBook} (h : b.RepInv) (o : Order) (ts : Timestamp)
    {c : OpenOrders} (hc : c o.side.opp = b.openOrders o.side.opp) :
    Run.Along OpenOrders.onTrade (fun c t => c.Explains t.deal) c (b.addOrder o ts).trades := by
  by_cases hid : b.ladder.Has o.id
  · rw [h.addOrder_of_has hid]
    trivial
  · have hsound := h.sound_openOrders
    have hdeals : (b.addOrder o ts).trades.map Trade.deal =
        (b.openOrders.fillsOf o).map (OpenOrders.dealOf o) := by
      rw [(h.outcome hid ts).trades, b.openOrders_eq, Ladder.fillsOf_openOrders, List.map_map]
      exact BookCore.map_fillTrades (fun _ _ => rfl) _ _
    have hnodup := hsound.nodup o.side.opp
    rw [← hsound.good_append_bad o] at hnodup
    have halong : Run.Along
        (fun l x => debit OpenOrder.openQty OpenOrder.reduce OpenOrder.id x.1.id x.2 l)
        (fun l x => l.head? = some x.1 ∧ 0 < x.2 ∧ x.2 ≤ x.1.openQty)
        (goodFor o (b.openOrders o.side.opp) ++ badFor o (b.openOrders o.side.opp))
        (b.openOrders.fillsOf o) :=
      along_debit_fills (hsound.goodFor_pos o) hnodup _
    rw [hsound.good_append_bad o] at halong
    exact OpenOrders.along_onTrade hdeals (hc ▸ halong)

theorem RepInv.along_step {b : L3OrderBook} (h : b.RepInv) (op : BookOp) :
    Run.Along OpenOrders.onTrade (fun c t => c.Explains t.deal) b.openOrders (b.step op).trades := by
  cases op with
  | add o ts => exact h.along_addOrder o ts rfl
  | cancel id ts =>
    rw [L3OrderBook.step, (h.cancelOrder {} id ts).trades]
    trivial
  | replace req ts =>
    rw [L3OrderBook.step]
    by_cases hid : b.ladder.Has req.orderId
    · obtain ⟨q, hq, hid⟩ := hid
      have hc := h.cancelOrder {} req.orderId ts
      rw [(h.replaceOrder_eq hq hid ts).2.1]
      -- the copy still holds the replaced order, but not on the side that is traded with
      refine hc.repInv.along_addOrder _ ts ?_
      rw [openOrders_eq, openOrders_eq, hc.ladder, ← hid]
      exact congrArg (List.map OpenOrder.of) (h.inv.cancel_side_opp hq).symm
    · rw [h.replaceOrder_of_not_has hid]
      trivial

end L3OrderBook

/-! ## The callbacks of an engine -/

namespace DropCopy

/-- The copy accounts for a callback: a trade is with the best order that it shows. -/
def Explains (d : DropCopy) : EngineEvent → Prop
  | .trade trade => (d trade.symbol).Explains trade.deal
  | _ => True

theorem along_forward {symbol : Symbol} (events : List BookEvent)
    (hs : ∀ t ∈ events.filterMap BookEvent.trade?, t.symbol = symbol) {d : DropCopy}
    (h : Run.Along OpenOrders.onTrade (fun c t => c.Explains t.deal) (d symbol)
      (events.filterMap BookEvent.trade?)) :
    Run.Along onEvent Explains d (events.map MatchingEngine.forward) := by
  induction events generalizing d with
  | nil => trivial
  | cons ev events ih =>
    cases ev with
    | topOfBook tob => exact ⟨trivial, ih hs h⟩
    | trade t =>
      rw [List.filterMap_cons] at hs h
      dsimp only [BookEvent.trade?] at hs h
      rw [List.forall_mem_cons] at hs
      obtain ⟨hfirst, hrest⟩ := h
      have hsymbol : t.symbol = symbol := hs.1
      subst hsymbol
      refine ⟨hfirst, ih hs.2 ?_⟩
      unfold MatchingEngine.forward onEvent
      dsimp only
      rw [Function.update_self]
      exact hrest

theorem along_of_no_trade {events : List EngineEvent} (h : ∀ t, .trade t ∉ events) (d : DropCopy) :
    Run.Along onEvent Explains d events := by
  induction events generalizing d with
  | nil => trivial
  | cons ev events ih =>
    refine ⟨?_, ih (fun t ht => h t (List.mem_cons_of_mem ev ht)) _⟩
    cases ev with
    | trade t => exact absurd List.mem_cons_self (h t)
    | _ => trivial

end DropCopy

namespace MatchingEngine

theorem BooksReachable.along_perform {e : MatchingEngine} (h : e.BooksReachable) (op : EngineOp) :
    Run.Along DropCopy.onEvent DropCopy.Explains e.openOrders (e.perform op).2 := by
  cases hd : e.dispatch op with
  | none =>
    refine DropCopy.along_of_no_trade (fun t ht => ?_) _
    obtain ⟨rpt, hev, -⟩ := rejected_of_dispatch_none hd _ ht
    cases hev
  | some c =>
    have hreach := reaches_of_dispatch hd
    have hrep := h.repInv hreach.here
    have hsymbol := hrep.symbol_trades c.op
    rw [h.symbol hreach.here] at hsymbol
    obtain ⟨state, -, -, hr⟩ := hreach.request
    rw [perform_of_request hr]
    unfold report
    dsimp only
    rw [Run.along_append]
    refine ⟨DropCopy.along_forward _ hsymbol ?_, trivial, DropCopy.along_of_no_trade ?_ _⟩
    · rw [openOrders_of_book hreach.here]
      exact hrep.along_step c.op
    · intro t ht
      unfold publishMarketData at ht
      split at ht <;> simp at ht

/-- **Every trade is with the best order known**, in any session: the drop copy kept up to its callback
has the resting order at the head of its side, as the trade says it. -/
theorem along_events (calls : List SessionCall) :
    Run.Along DropCopy.onEvent DropCopy.Explains .empty (events calls) := by
  have hrun : ∀ (calls : List SessionCall) (e : MatchingEngine), e.BooksReachable →
      Run.Along DropCopy.onEvent DropCopy.Explains e.openOrders
        (Run.outputs (fun (e : MatchingEngine) (call : SessionCall) =>
          ((e.withRisk call.risk).perform call.op).swap) e calls).flatten := by
    intro calls
    induction calls with
    | nil => exact fun _ _ => trivial
    | cons call calls ih =>
      intro e h
      have hbooks : (e.withRisk call.risk).BooksReachable := h
      have hrest := ih _ (hbooks.step call.op)
      rw [Run.outputs, List.flatten_cons, Run.along_append]
      rw [← hbooks.openOrders_step call.op] at hrest
      exact ⟨hbooks.along_perform call.op, hrest⟩
  exact hrun calls {} fun _ _ h => by cases h

end MatchingEngine

end HftSdk
