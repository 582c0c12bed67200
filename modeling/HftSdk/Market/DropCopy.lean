import HftSdk.Lib.Debits
import HftSdk.Orderbook.OpenBook
import HftSdk.Market.ExecutionStream
import HftSdk.Market.Rejections
import HftSdk.Market.Throttle

/-!
# Drop copies

A subscriber that holds nothing but the callbacks can keep the whole order book. A trade names the
resting order and the aggressor's side, so its quantity comes off that order on the other side; a
report that is not a rejection takes its order away, and puts a limit order with leaves behind
everything at least as good. `openOrders_events` says that the copy is exact after any session: every
order that rests, with its open quantity, in priority order, for each symbol and side. In particular
market orders and orders that are not reported to rest never do, and no order leaves a book without
the subscriber hearing of it.
-/

namespace HftSdk

open Sweep PriorityList

/-! ## The copy of one book -/

namespace OpenOrders

/-- A trade comes off the resting order. -/
def onTrade (c : OpenOrders) (trade : Trade) : OpenOrders :=
  Function.update c trade.aggressorSide.opp
    (debit OpenOrder.openQty OpenOrder.reduce OpenOrder.id trade.restingId trade.qty
      (c trade.aggressorSide.opp))

/-- A limit order with leaves goes behind everything that is at least as good. -/
def onReport (c : OpenOrders) (rpt : ExecutionReport) : OpenOrders :=
  if rpt.status = .rejected then c
  else if rpt.type = .limit ∧ 0 < rpt.leavesQty then
    (c.erase rpt.orderId).insert rpt.side
      ⟨rpt.orderId, rpt.traderId, rpt.price, rpt.leavesQty, rpt.clOrdId⟩
  else c.erase rpt.orderId

theorem erase_onTrade (c : OpenOrders) (trade : Trade) (id : OrderId) :
    (c.onTrade trade).erase id = (c.erase id).onTrade trade := by
  have hdebit : ∀ l : List OpenOrder,
      (debit OpenOrder.openQty OpenOrder.reduce OpenOrder.id trade.restingId trade.qty l).filter
          (fun x => x.id ≠ id) =
        debit OpenOrder.openQty OpenOrder.reduce OpenOrder.id trade.restingId trade.qty
          (l.filter fun x => x.id ≠ id) := by
    intro l
    induction l with
    | nil => rfl
    | cons x l ih =>
      unfold debit at ih ⊢
      by_cases hid : x.id = id <;> by_cases hk : x.id = trade.restingId <;>
        by_cases hq : x.openQty = trade.qty <;>
          simp_all [OpenOrder.reduce]
  funext s
  unfold erase onTrade
  rcases (trade.aggressorSide.eq_or_eq_opp s).symm with rfl | rfl
  · rw [Function.update_self, Function.update_self, hdebit]
  · rw [Function.update_of_ne (Side.opp_ne _).symm, Function.update_of_ne (Side.opp_ne _).symm]

theorem erase_foldl_onTrade (trades : List Trade) (c : OpenOrders) (id : OrderId) :
    (trades.foldl onTrade c).erase id = trades.foldl onTrade (c.erase id) := by
  induction trades generalizing c with
  | nil => rfl
  | cons trade trades ih => rw [List.foldl_cons, List.foldl_cons, ih, erase_onTrade]

theorem foldl_onTrade {s : Side} {trades : List Trade} (hs : ∀ t ∈ trades, t.aggressorSide = s)
    (c : OpenOrders) : trades.foldl onTrade c = Function.update c s.opp
      ((trades.map fun t => (t.restingId, t.qty)).foldl
        (fun l x => debit OpenOrder.openQty OpenOrder.reduce OpenOrder.id x.1 x.2 l) (c s.opp)) := by
  induction trades generalizing c with
  | nil => exact (Function.update_eq_self _ _).symm
  | cons t trades ih =>
    rw [List.forall_mem_cons] at hs
    rw [List.foldl_cons, ih hs.2, List.map_cons, List.foldl_cons, onTrade, hs.1,
      Function.update_self, Function.update_idem]

theorem onReport_erase (c : OpenOrders) {rpt : ExecutionReport} (h : rpt.status ≠ .rejected) :
    (c.erase rpt.orderId).onReport rpt = c.onReport rpt := by
  unfold onReport
  rw [if_neg h, if_neg h, erase_erase]

end OpenOrders

/-! ## One order -/

theorem BookCore.aggressorSide_fillTrades (c : BookCore) (o : Order) (ts : Timestamp)
    (fs : List (Quote × Int)) : ∀ t ∈ c.fillTrades o ts fs, t.aggressorSide = o.side := by
  intro t ht
  have hmem := List.mem_map_of_mem (f := Trade.aggressorSide) ht
  rw [map_fillTrades (k := fun _ => o.side) fun _ _ => rfl] at hmem
  obtain ⟨-, -, hx⟩ := List.mem_map.mp hmem
  exact hx.symm

namespace Ladder

variable {L : Ladder}

theorem Inv.foldl_onTrade (h : L.Inv) (c : BookCore) (o : Order) (ts : Timestamp) :
    (c.fillTrades o ts (L.fillsOf o)).foldl OpenOrders.onTrade L.openOrders =
      (L.afterMatch o).openOrders := by
  have hsound := h.sound_openOrders
  have hnodup := hsound.nodup o.side.opp
  rw [← hsound.good_append_bad o] at hnodup
  have hfold := foldl_debit_fills OpenOrder.reduce_openQty (hsound.goodFor_pos o) hnodup (L.demand o)
  rw [hsound.good_append_bad o, ← map_fillsOf, List.foldl_map] at hfold
  rw [OpenOrders.foldl_onTrade (BookCore.aggressorSide_fillTrades c o ts _),
    BookCore.map_fillTrades (k := fun x => (x.1.order.id, x.2)) fun _ _ => rfl, List.foldl_map,
    openOrders_afterMatch, sweepSide, ← hfold]
  rfl

end Ladder

/-! ## One call on a book -/

/-- The fields that a report copies from its order. -/
def ExecutionReport.copied (rpt : ExecutionReport) :
    OrderId × TraderId × Symbol × Side × OrderType × Int × CharBuf 20 :=
  (rpt.orderId, rpt.traderId, rpt.symbol, rpt.side, rpt.type, rpt.price, rpt.clOrdId)

namespace L3OrderBook

theorem handleRemainder_copied (b : L3OrderBook) (rpt : ExecutionReport) (o : Order)
    (res : MatchResult) (ts : Timestamp) :
    (b.handleRemainder rpt o res ts).1.copied = rpt.copied := by
  unfold handleRemainder
  by_cases h : 0 < res.remainingQty ∧ o.type = .limit
  · rw [if_pos h]
    cases o.tif <;> rfl
  · rw [if_neg h]

theorem matchedReport_copied (rpt : ExecutionReport) (o : Order) (res : MatchResult) :
    (matchedReport rpt o res).copied = rpt.copied := by
  unfold matchedReport
  dsimp only
  split_ifs
  · rfl
  · cases res.trades.getLast? <;> rfl
  · rfl

theorem addOrder_copied (b : L3OrderBook) (o : Order) (ts : Timestamp) :
    (b.addOrder o ts).rpt.copied = (addReport o ts).copied := by
  by_cases hid : o.id ∈ b.orderIndex
  · rw [addOrder, if_pos hid]
    rfl
  · rw [(addOrder_of_not_mem hid ts).1, handleRemainder_copied, matchedReport_copied]

theorem RepInv.rests_iff_report {b : L3OrderBook} (h : b.RepInv) {o : Order}
    (hid : ¬ b.ladder.Has o.id) {ts : Timestamp} (hok : (b.addOrder o ts).rpt.status ≠ .rejected) :
    (o.type = .limit ∧ 0 < (b.addOrder o ts).rpt.leavesQty ↔ b.ladder.Rests o) ∧
      (b.ladder.Rests o → (b.addOrder o ts).rpt.leavesQty = b.ladder.remainder o) := by
  have hrpt := (h.outcome hid ts).rpt
  have hstatus := congrArg Prod.fst hrpt
  have hleaves := congrArg (fun x => x.2.2.1) hrpt
  dsimp only at hstatus hleaves
  rw [hstatus, ne_eq, reported_rejected_iff] at hok
  rw [hleaves]
  unfold reported Ladder.Rests
  by_cases hzero : b.ladder.remainder o = 0
  · simp [hzero]
  · by_cases hlim : 0 < b.ladder.remainder o ∧ o.type = .limit
    · cases htif : o.tif <;> simp_all
    · have hnot : ∀ p : Prop, ¬ (0 < b.ladder.remainder o ∧ o.type = .limit ∧ p) := fun p hp =>
        hlim ⟨hp.1, hp.2.1⟩
      simp only [hzero, hnot, if_false]
      exact ⟨iff_of_false (fun hr => hlim hr.symm) id, False.elim⟩

theorem RepInv.openOrders_addOrder {b : L3OrderBook} (h : b.RepInv) (o : Order) (ts : Timestamp) :
    ((b.addOrder o ts).trades.foldl OpenOrders.onTrade b.openOrders).onReport (b.addOrder o ts).rpt =
      (b.addOrder o ts).book.openOrders := by
  by_cases hrej : (b.addOrder o ts).rpt.status = .rejected
  · obtain ⟨hbook, htrades, -⟩ := h.addOrder_rejected hrej
    rw [hbook, htrades, OpenOrders.onReport, if_pos hrej]
    rfl
  have hid : ¬ b.ladder.Has o.id := by
    intro hid
    rw [h.addOrder_of_has hid] at hrej
    exact hrej rfl
  have hcopied := b.addOrder_copied o ts
  unfold ExecutionReport.copied addReport at hcopied
  simp only [Prod.mk.injEq] at hcopied
  obtain ⟨hrid, htrader, -, hside, htype, hprice, hclOrdId⟩ := hcopied
  obtain ⟨hrests, hleaves⟩ := h.rests_iff_report hid hrej
  have hgone := h.inv.not_has_afterMatch (o := o) hid
  rw [(h.outcome hid ts).trades, b.openOrders_eq, h.inv.foldl_onTrade, openOrders_eq,
    (h.addOrder o ts).ladder, Ladder.add, if_neg hid, OpenOrders.onReport, if_neg hrej, hrid,
    Ladder.erase_openOrders hgone, htype]
  by_cases hr : b.ladder.Rests o
  · rw [if_pos (hrests.mpr hr), if_pos hr, Ladder.openOrders_rest, hside, htrader, hprice,
      hleaves hr, hclOrdId]
    rfl
  · rw [if_neg fun hrep => hr (hrests.mp hrep), if_neg hr]

theorem RepInv.openOrders_step {b : L3OrderBook} (h : b.RepInv) (op : BookOp) :
    ((b.step op).trades.foldl OpenOrders.onTrade b.openOrders).onReport (b.step op).rpt =
      (b.step op).book.openOrders := by
  by_cases hrej : (b.step op).rpt.status = .rejected
  · obtain ⟨hbook, htrades, -⟩ := h.step_rejected hrej
    rw [hbook, htrades, OpenOrders.onReport, if_pos hrej]
    rfl
  cases op with
  | add o ts => exact h.openOrders_addOrder o ts
  | cancel id ts =>
    rw [L3OrderBook.step] at hrej ⊢
    by_cases hid : b.ladder.Has id
    · obtain ⟨q, hq, rfl⟩ := hid
      rw [(h.cancelOrder {} q.order.id ts).trades, openOrders_eq (b.cancelOrder q.order.id ts).book,
        (h.cancelOrder {} q.order.id ts).ladder, Ladder.openOrders_cancel, ← openOrders_eq,
        h.cancelOrder_eq hq]
      rfl
    · rw [h.cancelOrder_of_not_has hid] at hrej
      exact absurd rfl hrej
  | replace req ts =>
    rw [L3OrderBook.step] at hrej ⊢
    by_cases hid : b.ladder.Has req.orderId
    · obtain ⟨q, hq, hid⟩ := hid
      have hc := h.cancelOrder {} req.orderId ts
      obtain ⟨hbook, htrades, hrpt⟩ := h.replaceOrder_eq hq hid ts
      rw [hrpt] at hrej
      rw [hbook, htrades, hrpt, ← hc.repInv.openOrders_addOrder _ ts,
        openOrders_eq (b.cancelOrder req.orderId ts).book, hc.ladder, Ladder.openOrders_cancel,
        ← openOrders_eq]
      -- the report erases the order that the replacement stands for
      have hrid : req.orderId = ((b.cancelOrder req.orderId ts).book.addOrder
          (replacement req q.order.side ts) ts).rpt.orderId :=
        (congrArg Prod.fst (addOrder_copied _ (replacement req q.order.side ts) ts)).symm
      rw [← OpenOrders.onReport_erase _ hrej, OpenOrders.erase_foldl_onTrade, ← hrid]
    · rw [h.replaceOrder_of_not_has hid] at hrej
      exact absurd rfl hrej

theorem symbol_fillTrades (c : BookCore) (o : Order) (ts : Timestamp) (fs : List (Quote × Int)) :
    ∀ t ∈ c.fillTrades o ts fs, t.symbol = c.symbol := by
  induction fs generalizing c with
  | nil => exact fun _ h => absurd h List.not_mem_nil
  | cons x fs ih =>
    intro t ht
    rcases List.mem_cons.mp ht with rfl | ht
    · rfl
    · rw [ih _ t ht]
      exact c.settle_symbol [x]

theorem RepInv.symbol_trades {b : L3OrderBook} (h : b.RepInv) (op : BookOp) :
    ∀ t ∈ (b.step op).trades, t.symbol = b.symbol := by
  cases op with
  | add o ts =>
    rw [L3OrderBook.step, (h.addOrder o ts).trades]
    exact symbol_fillTrades _ _ _ _
  | cancel id ts =>
    rw [L3OrderBook.step, (h.cancelOrder {} id ts).trades]
    exact fun _ h => absurd h List.not_mem_nil
  | replace req ts =>
    rw [L3OrderBook.step]
    by_cases hid : b.ladder.Has req.orderId
    · obtain ⟨q, hq, hid⟩ := hid
      have hc := h.cancelOrder {} req.orderId ts
      rw [(h.replaceOrder_eq hq hid ts).2.1, (hc.repInv.addOrder _ ts).trades,
        ← h.step_symbol (.cancel req.orderId ts)]
      exact symbol_fillTrades _ _ _ _
    · rw [h.replaceOrder_of_not_has hid]
      exact fun _ h => absurd h List.not_mem_nil

end L3OrderBook

/-! ## The copy of an engine -/

/-- The orders of every symbol. -/
abbrev DropCopy := Symbol → OpenOrders

namespace DropCopy

def empty : DropCopy := fun _ _ => []

def onEvent (d : DropCopy) : EngineEvent → DropCopy
  | .trade trade => Function.update d trade.symbol ((d trade.symbol).onTrade trade)
  | .execution rpt => Function.update d rpt.symbol ((d rpt.symbol).onReport rpt)
  | _ => d

/-- The copy kept from a stream of callbacks. -/
def replay (events : List EngineEvent) : DropCopy := events.foldl onEvent empty

theorem onEvent_rejected (d : DropCopy) {rpt : ExecutionReport} (h : rpt.status = .rejected) :
    d.onEvent (.execution rpt) = d := by
  unfold onEvent
  dsimp only
  rw [OpenOrders.onReport, if_pos h, Function.update_eq_self]

theorem foldl_forward {symbol : Symbol} (events : List BookEvent)
    (hs : ∀ t ∈ events.filterMap BookEvent.trade?, t.symbol = symbol) (d : DropCopy) :
    (events.map MatchingEngine.forward).foldl onEvent d = Function.update d symbol
      ((events.filterMap BookEvent.trade?).foldl OpenOrders.onTrade (d symbol)) := by
  induction events generalizing d with
  | nil => exact (Function.update_eq_self _ _).symm
  | cons ev events ih =>
    cases ev with
    | topOfBook tob => exact ih hs d
    | trade t =>
      rw [List.filterMap_cons] at hs ⊢
      dsimp only [BookEvent.trade?] at hs ⊢
      rw [List.forall_mem_cons] at hs
      rw [List.map_cons, List.foldl_cons, List.foldl_cons, ih hs.2]
      unfold MatchingEngine.forward onEvent
      dsimp only
      rw [hs.1, Function.update_self, Function.update_idem]

end DropCopy

namespace MatchingEngine

/-- The resting orders of every book. -/
def openOrders (e : MatchingEngine) : DropCopy := fun s =>
  match e.book s with
  | none => fun _ => []
  | some b => b.openOrders

theorem openOrders_of_book {e : MatchingEngine} {s : Symbol} {b : L3OrderBook}
    (h : e.book s = some b) : e.openOrders s = b.openOrders := by
  unfold openOrders
  rw [h]

theorem rejected_of_dispatch_none {e : MatchingEngine} {op : EngineOp} (h : e.dispatch op = none) :
    ∀ ev ∈ (e.perform op).2, ∃ rpt, ev = .execution rpt ∧ rpt.status = .rejected := by
  intro ev hev
  cases hr : e.request op with
  | none =>
    cases op with
    | newOrder | cancel | replace => cases hr
    | _ => cases hev
  | some r =>
    rw [perform_of_request hr] at hev
    refine ⟨r.rpt, (refuses_of_dispatch_none h hr).events ev hev, ?_⟩
    cases op with
    | newOrder order ts publishedAt =>
      obtain rfl := Option.some_inj.mp hr
      cases hs : e.symbols.lookup order.symbol with
      | none =>
        unfold processNewOrder
        simp only [show e.countOrder.symbols.lookup order.symbol = none from hs]
        rfl
      | some state =>
        have hbad : (e.checkRisk order).1 ≠ .none := by
          intro hok
          rw [dispatch, book, hs] at h
          simp [hok] at h
        rw [processNewOrder_eq hs, if_neg hbad]
        rfl
    | cancel req ts publishedAt =>
      rw [events_of_unaddressed h hr (fun _ _ _ h => by cases h)] at hev
      cases hev
    | replace req ts publishedAt =>
      rw [events_of_unaddressed h hr (fun _ _ _ h => by cases h)] at hev
      cases hev
    | _ => cases hr

theorem Reaches.symbol_rpt {e : MatchingEngine} (hbooks : e.BooksReachable) {op : EngineOp}
    {c : BookCall} (h : e.Reaches op c) (hok : (c.book.step c.op).rpt.status ≠ .rejected) :
    (c.book.step c.op).rpt.symbol = c.symbol := by
  have hrep := hbooks.repInv h.here
  have hsymbol := hbooks.symbol h.here
  cases h with
  | newOrder hb hcheck => exact congrArg (fun x => x.2.2.1) (L3OrderBook.addOrder_copied _ _ _)
  | @cancel req ts _ symbol b hroute hb =>
    dsimp only [L3OrderBook.step] at hok ⊢
    by_cases hid : b.ladder.Has req.orderId
    · obtain ⟨q, hq, hid⟩ := hid
      rw [← hid, hrep.cancelOrder_eq hq]
      exact hsymbol
    · rw [hrep.cancelOrder_of_not_has hid] at hok
      exact absurd rfl hok
  | @replace req ts _ b hb =>
    dsimp only [L3OrderBook.step] at hok ⊢
    by_cases hid : b.ladder.Has req.orderId
    · obtain ⟨q, hq, hid⟩ := hid
      rw [(hrep.replaceOrder_eq hq hid ts).2.2]
      exact congrArg (fun x => x.2.2.1) (L3OrderBook.addOrder_copied _ _ _)
    · rw [hrep.replaceOrder_of_not_has hid] at hok
      exact absurd rfl hok

/-- **The copy after a request**: its callbacks tell what it did to the books. -/
theorem BooksReachable.openOrders_step {e : MatchingEngine} (h : e.BooksReachable) (op : EngineOp) :
    (e.perform op).2.foldl DropCopy.onEvent e.openOrders = (e.step op).openOrders := by
  cases hd : e.dispatch op with
  | none =>
    have hcopy : ∀ events : List EngineEvent,
        (∀ ev ∈ events, ∃ rpt, ev = .execution rpt ∧ rpt.status = .rejected) →
          events.foldl DropCopy.onEvent e.openOrders = e.openOrders := by
      intro events
      induction events with
      | nil => exact fun _ => rfl
      | cons ev events ih =>
        intro hev
        rw [List.forall_mem_cons] at hev
        obtain ⟨⟨rpt, rfl, hrej⟩, hev⟩ := hev
        rw [List.foldl_cons, DropCopy.onEvent_rejected _ hrej, ih hev]
    rw [hcopy _ (rejected_of_dispatch_none hd)]
    funext s
    unfold openOrders
    rcases (dispatch_none hd).2 s with hsame | ⟨hnone, hnew⟩
    · rw [hsame]
    · rw [hnone, hnew]
      funext side
      cases side <;> rfl
  | some c =>
    have hreach := reaches_of_dispatch hd
    have hrep := h.repInv hreach.here
    have hsymbol := hrep.symbol_trades c.op
    rw [h.symbol hreach.here] at hsymbol
    obtain ⟨state, -, -, hr⟩ := hreach.request
    have hmarket : ∀ (e' : MatchingEngine) (d : DropCopy),
        (e'.publishMarketData c.symbol (publishTime op)).2.foldl DropCopy.onEvent d = d := by
      intro e' d
      unfold publishMarketData
      cases e'.symbols.lookup c.symbol <;> rfl
    have hcopy : (e.perform op).2.foldl DropCopy.onEvent e.openOrders =
        Function.update e.openOrders c.symbol (c.book.step c.op).book.openOrders := by
      rw [perform_of_request hr]
      unfold report
      dsimp only
      rw [List.foldl_append, List.foldl_cons, hmarket, DropCopy.foldl_forward _ hsymbol,
        openOrders_of_book hreach.here, ← hrep.openOrders_step]
      by_cases hrej : (c.book.step c.op).rpt.status = .rejected
      · rw [DropCopy.onEvent_rejected _ hrej, OpenOrders.onReport, if_pos hrej]
        rfl
      · unfold DropCopy.onEvent
        dsimp only
        rw [hreach.symbol_rpt h hrej, Function.update_self, Function.update_idem]
        rfl
    rw [hcopy]
    funext s
    have hbooks := (dispatch_some hd).books s
    by_cases hs : s = c.symbol
    · rw [if_pos hs] at hbooks
      rw [openOrders_of_book hbooks, hs, Function.update_self]
    · rw [if_neg hs] at hbooks
      rw [Function.update_of_ne hs]
      unfold openOrders
      rw [hbooks]

/-- **A drop copy is exact**: kept from the callbacks of a session, it holds the orders that rest, in
priority order. -/
theorem openOrders_events (calls : List SessionCall) :
    DropCopy.replay (events calls) = (session calls).openOrders := by
  have hrun : ∀ (calls : List SessionCall) (e : MatchingEngine), e.BooksReachable →
      (Run.outputs (fun (e : MatchingEngine) (call : SessionCall) =>
        ((e.withRisk call.risk).perform call.op).swap) e calls).flatten.foldl DropCopy.onEvent
          e.openOrders = (calls.foldl stepCall e).openOrders := by
    intro calls
    induction calls with
    | nil => exact fun _ _ => rfl
    | cons call calls ih =>
      intro e h
      have hstep := BooksReachable.openOrders_step (e := e.withRisk call.risk) h call.op
      have hrest := ih _ (BooksReachable.step (e := e.withRisk call.risk) h call.op)
      rw [Run.outputs, List.flatten_cons, List.foldl_append, List.foldl_cons]
      rw [← hstep] at hrest
      exact hrest
  exact hrun calls {} fun _ _ h => by cases h

end MatchingEngine

end HftSdk
