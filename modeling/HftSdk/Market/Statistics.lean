import HftSdk.Market.MachineEngine
import Mathlib.Algebra.BigOperators.Group.Finset.Basic

/-!
# The statistics of the engine

Every call is answered by a report, if it is a request, and by callbacks. Orders, cancels and trades
are counted where they are answered for, so that those counters are right in every session. Rejects
are counted where the engine itself rejects: an order that its book rejects is missed
(`session_statistics_iff`, and `statistics_iff` on 64-bit integers).
-/

namespace HftSdk

/-! ## Trades of a book -/

namespace BookCore

theorem settle_tradeCount (c : BookCore) (fs : List (Quote × Int)) :
    (c.settle fs).tradeCount = c.tradeCount + fs.length := by
  induction fs generalizing c with
  | nil => rfl
  | cons x fs ih =>
    have hone : (c.settleOne x.1 x.2).tradeCount = c.tradeCount + 1 :=
      congrArg (fun tape => tape.2.2.1) (c.settleOne_tape x.1 x.2)
    rw [settle_cons, ih, hone, List.length_cons]
    omega

theorem length_fillTrades (c : BookCore) (o : Order) (ts : Timestamp) (fs : List (Quote × Int)) :
    (c.fillTrades o ts fs).length = fs.length := by
  have hmap : (c.fillTrades o ts fs).map Trade.qty = fs.map Prod.snd :=
    map_fillTrades (fun _ _ => rfl) c fs
  rw [← List.length_map Trade.qty, hmap, List.length_map]

end BookCore

namespace L3OrderBook

theorem Refines.tradeCount {b : L3OrderBook} {o : Order} {ts : Timestamp} {L' : Ladder}
    {fs : List (Quote × Int)} {r : BookResult} (h : b.Refines o ts L' fs r) :
    r.book.tradeCount = b.tradeCount + r.trades.length := by
  have htape : r.book.tradeCount = (b.settle fs).tradeCount :=
    congrArg (fun tape => tape.2.2.1) h.tape
  rw [htape, BookCore.settle_tradeCount, h.trades, BookCore.length_fillTrades]

theorem RepInv.step_tradeCount {b : L3OrderBook} (h : b.RepInv) (op : BookOp) :
    (b.step op).book.tradeCount = b.tradeCount + (b.step op).trades.length := by
  cases op with
  | add o ts => exact (h.addOrder o ts).tradeCount
  | cancel id ts => exact (h.cancelOrder {} id ts).tradeCount
  | replace req ts =>
    by_cases hid : b.ladder.Has req.orderId
    · obtain ⟨q, hq, hid⟩ := hid
      have hc := h.cancelOrder {} req.orderId ts
      obtain ⟨hbook, htrades, -⟩ := h.replaceOrder_eq hq hid ts
      have hcancel : (b.cancelOrder req.orderId ts).book.tradeCount = b.tradeCount := by
        rw [hc.tradeCount, hc.trades]
        rfl
      rw [L3OrderBook.step, hbook, htrades, (hc.repInv.addOrder _ ts).tradeCount, hcancel]
    · rw [L3OrderBook.step, h.replaceOrder_of_not_has hid]
      rfl

theorem RepInv.addOrder_rejected_iff {b : L3OrderBook} (h : b.RepInv) (o : Order) (ts : Timestamp) :
    (b.addOrder o ts).rpt.status = .rejected ↔
      o.id ∈ b.orderIndex ∨ o.type = .limit ∧ o.tif = .fok ∧ b.tradableQty o < o.quantity := by
  rw [h.mem_index]
  by_cases hid : b.ladder.Has o.id
  · rw [h.addOrder_of_has hid]
    exact ⟨fun _ => Or.inl hid, fun _ => rfl⟩
  · have hstatus := congrArg Prod.fst (h.outcome hid ts).rpt
    dsimp only at hstatus
    rw [hstatus, reported_rejected_iff, h.inv.remainder_pos_iff, tradableQty_eq]
    constructor
    · rintro ⟨hshort, htype, htif⟩
      exact Or.inr ⟨htype, htif, hshort⟩
    · rintro (hhas | ⟨htype, htif, hshort⟩)
      · exact absurd hhas hid
      · exact ⟨hshort, htype, htif⟩

end L3OrderBook

/-! ## Counters -/

/-- The counters of an engine. -/
structure Statistics where
  orders : Nat := 0
  trades : Nat := 0
  cancels : Nat := 0
  rejects : Nat := 0

namespace MatchingEngine

def statistics (e : MatchingEngine) : Statistics where
  orders := e.ordersProcessed
  trades := e.tradesGenerated
  cancels := e.cancelsProcessed
  rejects := e.rejects

theorem statistics_onBookEvent (e : MatchingEngine) (ev : BookEvent) :
    (e.onBookEvent ev).statistics =
      { e.statistics with trades := e.statistics.trades + (BookEvent.trade? ev).toList.length } := by
  cases ev with
  | topOfBook tob => rfl
  | trade t =>
    unfold onBookEvent
    dsimp only
    cases e.symbols.lookup t.symbol <;> rfl

theorem statistics_afterCall (e : MatchingEngine) (symbol : Symbol) (state : SymbolState)
    (r : BookResult) : (e.afterCall symbol state r).statistics =
      { e.statistics with trades := e.statistics.trades + r.trades.length } := by
  have hfold : ∀ (evs : List BookEvent) (e : MatchingEngine),
      (evs.foldl onBookEvent e).statistics = { e.statistics with
        trades := e.statistics.trades + (evs.filterMap BookEvent.trade?).length } := by
    intro evs
    induction evs with
    | nil => exact fun _ => rfl
    | cons ev evs ih =>
      intro e
      rw [List.foldl_cons, ih, statistics_onBookEvent]
      cases ev with
      | topOfBook tob => rfl
      | trade t =>
        simp only [BookEvent.trade?, List.filterMap_cons, List.length_cons, Option.toList_some,
          List.length_nil, Statistics.mk.injEq, true_and, and_true]
        omega
  exact hfold r.events _

@[simp] theorem statistics_trackOrder (e : MatchingEngine) (order : Order) (rpt : ExecutionReport) :
    (e.trackOrder order rpt).statistics = e.statistics := by
  unfold trackOrder
  split_ifs <;> rfl

@[simp] theorem statistics_fillRisk (e : MatchingEngine) (order : Order) (rpt : ExecutionReport) :
    (e.fillRisk order rpt).statistics = e.statistics := by
  unfold fillRisk
  split_ifs <;> rfl

@[simp] theorem statistics_checkRisk (e : MatchingEngine) (order : Order) :
    (e.checkRisk order).2.statistics = e.statistics := by
  unfold checkRisk
  cases e.riskEngine <;> rfl

@[simp] theorem statistics_report (e : MatchingEngine) (symbol : Symbol) (r : BookResult)
    (ts : Timestamp) : (e.report symbol r ts).engine.statistics = e.statistics := by
  unfold report publishMarketData
  cases e.symbols.lookup symbol <;> rfl

theorem statistics_untrackOrder (e : MatchingEngine) (id : OrderId) (rpt : ExecutionReport) :
    (e.untrackOrder id rpt).statistics = { e.statistics with
      cancels := e.statistics.cancels + if rpt.status = .canceled then 1 else 0 } := by
  unfold untrackOrder
  split_ifs <;> rfl

/-! ## Answers -/

/-- The status of the report that a request returns. -/
def statusOf (e : MatchingEngine) (op : EngineOp) : Option OrderStatus :=
  (e.reportOf op).map ExecutionReport.status

end MatchingEngine

def EngineOp.isNewOrder : EngineOp → Bool
  | .newOrder .. => true
  | _ => false

def EngineOp.isCancel : EngineOp → Bool
  | .cancel .. => true
  | _ => false

/-- A call, the status of the report it returned, if any, and the callbacks it made. -/
structure Answer where
  op : EngineOp
  status : Option OrderStatus
  events : List EngineEvent

namespace Answer

/-- Calls of `process_new_order`. -/
def newOrders (as : List Answer) : Nat := as.countP fun a => a.op.isNewOrder

/-- Those of them whose report says rejected. -/
def rejectedOrders (as : List Answer) : Nat :=
  as.countP fun a => a.op.isNewOrder && decide (a.status = some .rejected)

/-- Calls of `process_cancel` whose report says canceled. -/
def canceledOrders (as : List Answer) : Nat :=
  as.countP fun a => a.op.isCancel && decide (a.status = some .canceled)

/-- Calls of the trade callback. -/
def tradeCallbacks (as : List Answer) : Nat :=
  ((as.flatMap Answer.events).filterMap EngineEvent.trade?).length

theorem countP_eq_sum (p : Answer → Bool) (as : List Answer) :
    as.countP p = (as.map fun a => if p a then 1 else 0).sum := by
  induction as with
  | nil => rfl
  | cons a as ih => rw [List.countP_cons, ih, List.map_cons, List.sum_cons, Nat.add_comm]

theorem tradeCallbacks_eq_sum (as : List Answer) : tradeCallbacks as =
    (as.map fun a => (a.events.filterMap EngineEvent.trade?).length).sum := by
  unfold tradeCallbacks
  rw [List.filterMap_flatMap, List.length_flatMap]

end Answer

namespace MatchingEngine

/-- The answer to a call of a session, and the engine it leaves. -/
def answer (e : MatchingEngine) (call : SessionCall) : Answer × MatchingEngine :=
  (⟨call.op, (e.withRisk call.risk).statusOf call.op, ((e.withRisk call.risk).perform call.op).2⟩,
    e.stepCall call)

/-- The answers of a session. -/
def answers (calls : List SessionCall) : List Answer := Run.outputs answer {} calls

theorem final_answer (calls : List SessionCall) : Run.final answer {} calls = session calls := rfl

theorem statistics_refused {e : MatchingEngine} {order : Order} {ts publishedAt : Timestamp}
    (h : e.dispatch (.newOrder order ts publishedAt) = none) :
    (e.processNewOrder order ts publishedAt).engine.statistics =
        { e.statistics with
          orders := e.statistics.orders + 1
          rejects := e.statistics.rejects + 1 } ∧
      (e.processNewOrder order ts publishedAt).rpt.status = .rejected := by
  cases hs : e.symbols.lookup order.symbol with
  | none =>
    unfold processNewOrder
    simp only [show e.countOrder.symbols.lookup order.symbol = none from hs]
    exact ⟨rfl, rfl⟩
  | some state =>
    have hbad : (e.checkRisk order).1 ≠ .none := by
      intro hok
      rw [dispatch, book, hs] at h
      simp [hok] at h
    rw [processNewOrder_eq hs, if_neg hbad]
    refine ⟨?_, rfl⟩
    have hcount := e.countOrder.statistics_checkRisk order
    exact congrArg (fun n : Statistics => { n with rejects := n.rejects + 1 }) hcount

theorem statistics_quiet {e : MatchingEngine} {op : EngineOp} (h : e.dispatch op = none)
    (hop : op.isNewOrder = false) :
    (e.step op).statistics = e.statistics ∧ e.statusOf op ≠ some .canceled := by
  cases op with
  | newOrder order ts publishedAt => cases hop
  | cancel req ts publishedAt =>
    rw [step, perform, statusOf, reportOf, processCancel]
    cases hroute : e.route req with
    | none => exact ⟨rfl, by simp⟩
    | some symbol =>
      cases hs : e.symbols.lookup symbol with
      | none =>
        dsimp only
        rw [hs]
        exact ⟨rfl, by simp⟩
      | some state => simp [dispatch, hroute, book, hs] at h
  | replace req ts publishedAt =>
    rw [step, perform, statusOf, reportOf, processReplace]
    cases hs : e.symbols.lookup req.symbol with
    | none => exact ⟨rfl, by simp⟩
    | some state => simp [dispatch, book, hs] at h
  | addSymbol symbol =>
    refine ⟨?_, by simp [statusOf, reportOf]⟩
    rw [step, perform, addSymbol]
    split_ifs <;> rfl
  | _ => exact ⟨rfl, by simp [statusOf, reportOf]⟩

theorem statistics_step (e : MatchingEngine) (op : EngineOp) :
    (e.step op).statistics =
      { orders := e.statistics.orders + if op.isNewOrder then 1 else 0
        trades := e.statistics.trades + (e.tradesOf op).length
        cancels := e.statistics.cancels +
          if op.isCancel && decide (e.statusOf op = some .canceled) then 1 else 0
        rejects := e.statistics.rejects +
          if op.isNewOrder && (e.dispatch op).isNone then 1 else 0 } := by
  cases hd : e.dispatch op with
  | some c =>
    have hstatus : e.statusOf op = some (c.book.step c.op).rpt.status := by
      rw [statusOf, reportOf_of_dispatch hd]
      rfl
    have hreach := reaches_of_dispatch hd
    obtain ⟨state, -, -, hr⟩ := hreach.request
    rw [step, perform_of_request hr, (dispatch_some hd).trades, hstatus]
    dsimp only
    rw [statistics_report]
    cases hreach with
    | newOrder hb hok =>
      rw [settle, statistics_fillRisk, statistics_trackOrder, statistics_afterCall,
        statistics_checkRisk]
      rfl
    | cancel hroute hb =>
      rw [settle, statistics_untrackOrder, statistics_afterCall]
      simp [EngineOp.isNewOrder, EngineOp.isCancel]
    | replace hb => exact statistics_afterCall _ _ _ _
  | none =>
    rw [(dispatch_none hd).1]
    by_cases hop : op.isNewOrder = true
    · cases op with
      | newOrder order ts publishedAt => exact (statistics_refused hd).1
      | _ => cases hop
    · obtain ⟨hsame, hstatus⟩ := statistics_quiet hd (Bool.eq_false_iff.mpr hop)
      simp [hsame, hstatus, hop]

/-! ## The trades of all books -/

/-- The sum of the books' own counts of trades. -/
def bookTrades (e : MatchingEngine) : Nat :=
  ∑ s ∈ e.symbols.keys, (e.book s).elim 0 fun b => b.tradeCount

theorem mem_keys {e : MatchingEngine} {s : Symbol} : s ∈ e.symbols.keys ↔ e.book s ≠ none := by
  rw [Finmap.mem_keys, Ne, book_eq_none, Finmap.lookup_eq_none, not_not]

theorem BooksReachable.bookTrades_step {e : MatchingEngine} (h : e.BooksReachable) (op : EngineOp) :
    (e.step op).bookTrades = e.bookTrades + (e.tradesOf op).length := by
  cases hd : e.dispatch op with
  | none =>
    obtain ⟨htrades, hbooks⟩ := dispatch_none hd
    rw [htrades, List.length_nil, Nat.add_zero]
    have hsubset : e.symbols.keys ⊆ (e.step op).symbols.keys := by
      intro s hs
      rw [mem_keys] at hs ⊢
      rcases hbooks s with hsame | ⟨hnone, -⟩
      · rwa [hsame]
      · exact absurd hnone hs
    unfold bookTrades
    rw [← Finset.sum_subset hsubset]
    · refine Finset.sum_congr rfl fun s hs => ?_
      rcases hbooks s with hsame | ⟨hnone, -⟩
      · rw [hsame]
      · exact absurd hnone (mem_keys.mp hs)
    · intro s _ hs
      rcases hbooks s with hsame | ⟨-, hnew⟩
      · rw [hsame, not_not.mp (mt mem_keys.mpr hs)]
        rfl
      · rw [hnew]
        rfl
  | some c =>
    have hc := dispatch_some hd
    have hkeys : (e.step op).symbols.keys = e.symbols.keys := by
      ext s
      rw [mem_keys, mem_keys, hc.books]
      split_ifs with hs
      · simp [hs, hc.here]
      · rfl
    have hhere : c.symbol ∈ e.symbols.keys := mem_keys.mpr (by simp [hc.here])
    unfold bookTrades
    rw [hkeys, ← Finset.add_sum_erase _ _ hhere, ← Finset.add_sum_erase e.symbols.keys _ hhere,
      hc.books, if_pos rfl, hc.here, hc.trades]
    have hrest : ∑ s ∈ e.symbols.keys.erase c.symbol, (((e.step op).book s).elim 0 fun b => b.tradeCount) =
        ∑ s ∈ e.symbols.keys.erase c.symbol, (e.book s).elim 0 fun b => b.tradeCount := by
      refine Finset.sum_congr rfl fun s hs => ?_
      rw [hc.books, if_neg (Finset.ne_of_mem_erase hs)]
    have hcount := (h.repInv hc.here).step_tradeCount c.op
    rw [hrest]
    simp only [Option.elim_some]
    omega

/-! ## Sessions -/

/-- The order, if it passes the checks of the engine, is one that its book does not reject: its id
does not rest there, and it is not a fill-or-kill limit order for more than it may trade against. -/
def BookAccepts (e : MatchingEngine) : EngineOp → Prop
  | .newOrder order _ _ =>
    ∀ b ∈ e.book order.symbol, (e.checkRisk order).1 = .none →
      order.id ∉ b.orderIndex ∧
        ¬ (order.type = .limit ∧ order.tif = .fok ∧ b.tradableQty order < order.quantity)
  | _ => True

instance (e : MatchingEngine) : ∀ op, Decidable (e.BookAccepts op)
  | .newOrder order _ _ => inferInstanceAs (Decidable (∀ b ∈ e.book order.symbol, _ → _))
  | .addSymbol _ | .cancel .. | .replace .. | .killTrader _ | .killAll | .unkillTrader _ | .unkillAll =>
    isTrue trivial

theorem BooksReachable.rejected_iff {e : MatchingEngine} (h : e.BooksReachable) {op : EngineOp}
    (hop : op.isNewOrder = true) :
    e.statusOf op = some .rejected ↔ e.dispatch op = none ∨ ¬ e.BookAccepts op := by
  cases op with
  | newOrder order ts publishedAt =>
    cases hd : e.dispatch (.newOrder order ts publishedAt) with
    | none =>
      refine ⟨fun _ => Or.inl rfl, fun _ => ?_⟩
      exact congrArg some (statistics_refused hd).2
    | some c =>
      cases reaches_of_dispatch hd with
      | @newOrder _ _ _ b hb hok =>
        have hstatus : e.statusOf (.newOrder order ts publishedAt) =
            some (b.addOrder order ts).rpt.status := by
          rw [statusOf, reportOf_of_dispatch hd]
          rfl
        have hrejected := (h.repInv hb).addOrder_rejected_iff order ts
        rw [hstatus, Option.some_inj, hrejected]
        constructor
        · refine fun hrej => Or.inr fun haccepts => ?_
          obtain ⟨hid, hfok⟩ := haccepts b hb hok
          exact hrej.elim hid hfok
        · rintro (hnone | hbad)
          · cases hnone
          · by_contra hgood
            obtain ⟨hid, hfok⟩ := not_or.mp hgood
            refine hbad fun b' hb' _ => ?_
            obtain rfl := Option.some_inj.mp (hb'.symm.trans hb)
            exact ⟨hid, hfok⟩
  | _ => cases hop

theorem BooksReachable.rejects_step {e : MatchingEngine} (h : e.BooksReachable) (op : EngineOp) :
    let reported := if op.isNewOrder && decide (e.statusOf op = some .rejected) then 1 else 0
    (e.step op).rejects ≤ e.rejects + reported ∧
      ((e.step op).rejects = e.rejects + reported ↔ e.BookAccepts op) := by
  have hrejects := congrArg Statistics.rejects (e.statistics_step op)
  change (e.step op).rejects = e.rejects + _ at hrejects
  dsimp only
  rw [hrejects]
  by_cases hop : op.isNewOrder = true
  · have hiff := h.rejected_iff hop
    cases hd : e.dispatch op with
    | none =>
      have haccepts : e.BookAccepts op := by
        cases op with
        | newOrder order ts publishedAt =>
          intro b hb hok
          have hb : e.book order.symbol = some b := hb
          simp [dispatch, hb, hok] at hd
        | _ => trivial
      simp [hop, hiff.mpr (Or.inl hd), haccepts]
    | some c =>
      by_cases haccepts : e.BookAccepts op
      · have hstatus : e.statusOf op ≠ some .rejected := by
          rw [Ne, hiff, hd]
          exact not_or.mpr ⟨Option.some_ne_none c, not_not.mpr haccepts⟩
        simp [hop, hstatus, haccepts]
      · simp [hop, hiff.mpr (Or.inr haccepts), haccepts]
  · have haccepts : e.BookAccepts op := by
      cases op with
      | newOrder order ts publishedAt => exact absurd rfl hop
      | _ => trivial
    simp [hop, haccepts]

theorem booksReachable_answer (e : MatchingEngine) (call : SessionCall) (h : e.BooksReachable) :
    (answer e call).2.BooksReachable :=
  BooksReachable.step (e := e.withRisk call.risk) h call.op

theorem booksReachable_empty : BooksReachable {} := fun _ _ h => absurd h nofun

theorem session_counted (calls : List SessionCall) :
    (session calls).ordersProcessed = Answer.newOrders (answers calls) ∧
      (session calls).cancelsProcessed = Answer.canceledOrders (answers calls) ∧
      (session calls).tradesGenerated = Answer.tradeCallbacks (answers calls) ∧
      (session calls).tradesGenerated = (session calls).bookTrades := by
  have hstep := fun (e : MatchingEngine) (call : SessionCall) =>
    (e.withRisk call.risk).statistics_step call.op
  have horders := Run.final_counter (f := ordersProcessed)
    (g := fun a : Answer => if a.op.isNewOrder then 1 else 0) booksReachable_answer
    (fun e call _ => congrArg Statistics.orders (hstep e call)) booksReachable_empty calls
  have hcancels := Run.final_counter (f := cancelsProcessed)
    (g := fun a : Answer => if a.op.isCancel && decide (a.status = some .canceled) then 1 else 0)
    booksReachable_answer (fun e call _ => congrArg Statistics.cancels (hstep e call))
    booksReachable_empty calls
  have htrades := Run.final_counter (f := tradesGenerated)
    (g := fun a : Answer => (a.events.filterMap EngineEvent.trade?).length)
    booksReachable_answer (fun e call _ => congrArg Statistics.trades (hstep e call))
    booksReachable_empty calls
  have hbooks := Run.final_counter (f := bookTrades)
    (g := fun a : Answer => (a.events.filterMap EngineEvent.trade?).length)
    booksReachable_answer
    (fun e call h => BooksReachable.bookTrades_step (e := e.withRisk call.risk) h call.op)
    booksReachable_empty calls
  have hempty : bookTrades {} = 0 := rfl
  rw [final_answer] at horders hcancels htrades hbooks
  refine ⟨?_, ?_, ?_, ?_⟩
  · rw [horders, Answer.newOrders, Answer.countP_eq_sum]
    exact Nat.zero_add _
  · rw [hcancels, Answer.canceledOrders, Answer.countP_eq_sum]
    exact Nat.zero_add _
  · rw [htrades, Answer.tradeCallbacks_eq_sum]
    exact Nat.zero_add _
  · rw [htrades, hbooks, hempty]

/-- The statistics of a session on exact integers are those of the reports if and only if no order that
passes the checks of the engine is rejected by its book. -/
theorem session_statistics_iff (calls : List SessionCall) :
    ((session calls).ordersProcessed = Answer.newOrders (answers calls) ∧
        (session calls).rejects = Answer.rejectedOrders (answers calls) ∧
        (session calls).cancelsProcessed = Answer.canceledOrders (answers calls) ∧
        (session calls).tradesGenerated = Answer.tradeCallbacks (answers calls) ∧
        (session calls).tradesGenerated = (session calls).bookTrades) ↔
      Run.Along stepCall (fun e call => (e.withRisk call.risk).BookAccepts call.op) {} calls := by
  obtain ⟨horders, hcancels, htrades, hbooks⟩ := session_counted calls
  have hrejects : (session calls).rejects = Answer.rejectedOrders (answers calls) ↔
      Run.Along stepCall (fun e call => (e.withRisk call.risk).BookAccepts call.op) {} calls := by
    have hmissed := Run.final_counter_eq_iff (f := rejects)
      (g := fun a : Answer => if a.op.isNewOrder && decide (a.status = some .rejected) then 1 else 0)
      (C := fun (e : MatchingEngine) (call : SessionCall) =>
        (e.withRisk call.risk).BookAccepts call.op) booksReachable_answer
      (fun e call h => (BooksReachable.rejects_step (e := e.withRisk call.risk) h call.op).1)
      (fun e call h => (BooksReachable.rejects_step (e := e.withRisk call.risk) h call.op).2)
      booksReachable_empty calls
    rw [← Answer.countP_eq_sum, final_answer] at hmissed
    exact Iff.trans (by rw [show ({} : MatchingEngine).rejects = 0 from rfl, Nat.zero_add]; rfl) hmissed
  constructor
  · exact fun h => hrejects.mp h.2.1
  · exact fun h => ⟨horders, hrejects.mpr h, hcancels, htrades, hbooks⟩

end MatchingEngine

/-! ## On 64-bit integers -/

namespace MachineEngine

/-- The answer to a call of a session, and the engine it leaves. -/
def answer (e : MatchingEngine) (call : SessionCall) : Answer × MatchingEngine :=
  (⟨call.op, statusOf (e.withRisk call.risk) call.op, (perform (e.withRisk call.risk) call.op).2⟩,
    stepCall e call)

/-- The answers of a session. -/
def answers (calls : List SessionCall) : List Answer := Run.outputs answer {} calls

theorem answers_eq {calls : List SessionCall} (h : Run.Along stepCall CallInRange {} calls) :
    answers calls = MatchingEngine.answers calls := by
  have hagree : Run.Along (fun e call => (answer e call).2) Agree {} calls := agree_along h
  apply hagree.outputs_agree
  intro e call hcall
  have hstep := hcall.stepCall
  unfold answer MatchingEngine.answer
  rw [hcall.1, hcall.2, hstep]
  rfl

/-- The statistics of a session count what its answers say. -/
structure Counted (calls : List SessionCall) : Prop where
  orders : (session calls).ordersProcessed = Answer.newOrders (answers calls)
  rejects : (session calls).rejects = Answer.rejectedOrders (answers calls)
  cancels : (session calls).cancelsProcessed = Answer.canceledOrders (answers calls)
  trades : (session calls).tradesGenerated = Answer.tradeCallbacks (answers calls)
  books : (session calls).tradesGenerated = (session calls).bookTrades

/-- **The statistics are those of the reports**, of any session in the range, if and only if no order
that passes the checks of the engine is rejected by its book. -/
theorem statistics_iff (calls : List SessionCall) (hrange : Run.Along stepCall CallInRange {} calls) :
    Counted calls ↔
      Run.Along stepCall (fun e call => (e.withRisk call.risk).BookAccepts call.op) {} calls := by
  have hexact := MatchingEngine.session_statistics_iff calls
  rw [← session_eq hrange, ← answers_eq hrange] at hexact
  rw [along_condition_iff hrange, ← hexact]
  exact ⟨fun h => ⟨h.orders, h.rejects, h.cancels, h.trades, h.books⟩,
    fun ⟨horders, hrejects, hcancels, htrades, hbooks⟩ =>
      ⟨horders, hrejects, hcancels, htrades, hbooks⟩⟩

/-- With a risk engine: an ask, a fill-or-kill order that takes part of it, an order that the risk
check rejects, and a cancel. -/
theorem statistics_iff_mixed :
    let calls := sessionOf (.start {}) [.addSymbol {},
      .newOrder { id := 1, traderId := 1, side := .sell, price := 10, quantity := 5 } 0 0,
      .newOrder { id := 2, traderId := 2, price := 10, quantity := 3, tif := .fok } 1 1,
      .newOrder { id := 3, traderId := 2, price := 10, quantity := 20000 } 2 2,
      .cancel { orderId := 1 } 3 3]
    Counted calls :=
  (statistics_iff _ (by decide)).mpr (by decide)

/-- A second order under the id of one that rests is reported rejected and not counted. -/
theorem book_reject_not_counted : ¬ ∀ calls : List SessionCall, Counted calls := by
  intro h
  have hmissed := (h [⟨none, .addSymbol {}⟩,
    ⟨none, .newOrder { id := 1, price := 10, quantity := 5 } 0 0⟩,
    ⟨none, .newOrder { id := 1, price := 10, quantity := 5 } 1 1⟩]).rejects
  exact absurd hmissed (by decide)

end MachineEngine

end HftSdk
