import HftSdk.Market.Ledgers
import HftSdk.Market.MachineEngine

/-!
# Self-trade prevention

The risk engine leaves self-trade prevention to the matching engine, and the matching engine does
not read the flag: the loops trade with whatever stands at the front of the side.
`along_selfTrade_iff` says along which sessions no trader with the flag set trades with itself: its
orders may reach only orders of others. `MachineEngine.session_selfTrade_iff` says it of the sessions
of the code's 64-bit integers.
-/

namespace HftSdk

open Sweep

/-! ## Who trades with whom -/

theorem BookCore.forall_fillTrades (c : BookCore) (o : Order) (ts : Timestamp)
    (fs : List (Quote × Int)) (P : TraderId → TraderId → Prop) :
    (∀ t ∈ c.fillTrades o ts fs, P t.restingTrader t.incomingTrader) ↔
      ∀ x ∈ fs, P x.1.order.traderId o.traderId := by
  have hparties : (c.fillTrades o ts fs).map (fun t => (t.restingTrader, t.incomingTrader)) =
      fs.map fun x => (x.1.order.traderId, o.traderId) :=
    map_fillTrades (fun _ _ => rfl) c fs
  have hall := congrArg (fun l => ∀ p ∈ l, P p.1 p.2) hparties
  simp only [List.forall_mem_map] at hall
  exact iff_of_eq hall

namespace L3OrderBook

variable {b : L3OrderBook}

theorem RepInv.forall_trades_addOrder (h : b.RepInv) {o : Order} (hid : o.id ∉ b.orderIndex)
    (ts : Timestamp) (P : TraderId → TraderId → Prop) :
    (∀ t ∈ (b.addOrder o ts).trades, P t.restingTrader t.incomingTrader) ↔
      (o.tif = .fok ∧ b.tradableQty o < o.quantity) ∨
        ∀ n ∈ reached (fun n => n.val.openQty) o.quantity (b.facing o),
          P n.val.traderId o.traderId := by
  rw [(h.addOrder o ts).trades, BookCore.forall_fillTrades, Ladder.addFills,
    if_neg (mt (h.mem_index _).mpr hid), Ladder.fillsOf, Ladder.demand, tradableQty_eq]
  split_ifs with hk
  · rw [fills_of_nonpos _ le_rfl]
    exact iff_of_true (List.forall_mem_nil _) (Or.inl hk)
  · rw [or_iff_right hk, b.forall_reached_facing _ _ (P · o.traderId), ← map_fst_fills,
      List.forall_mem_map]

theorem RepInv.forall_trades_replaceOrder (h : b.RepInv) {req : ReplaceRequest}
    {loc : OrderLocation} (hloc : b.orderIndex.lookup req.orderId = some loc) (ts : Timestamp)
    (P : TraderId → TraderId → Prop) :
    (∀ t ∈ (b.replaceOrder req ts).trades, P t.restingTrader t.incomingTrader) ↔
      ∀ n ∈ reached (fun n => n.val.openQty) req.newQty
        (b.facing (replacement req loc.side ts)), P n.val.traderId req.traderId := by
  obtain ⟨q, hq, hid, hside⟩ := h.exists_of_lookup hloc
  have hc := h.cancelOrder {} req.orderId ts
  rw [← hside, (h.replaceOrder_eq hq hid ts).2.1, (hc.repInv.addOrder _ ts).trades,
    BookCore.forall_fillTrades, hc.ladder, MatchingEngine.addFills_replacement h.inv hq hid ts,
    b.forall_reached_facing _ _ (P · req.traderId), ← map_fst_fills, List.forall_mem_map]
  exact Iff.rfl

end L3OrderBook

/-! ## One call -/

namespace MatchingEngine

/-- A trader is meant to be kept from trading with itself: the attached risk engine says so. -/
def Prevents (e : MatchingEngine) (t : TraderId) : Prop :=
  ∃ risk, e.riskEngine = some risk ∧ (risk.getLimits t).selfTradePrevention = true

instance (e : MatchingEngine) (t : TraderId) : Decidable (e.Prevents t) :=
  inferInstanceAs (Decidable (∃ risk ∈ e.riskEngine, (risk.getLimits t).selfTradePrevention = true))

/-- No trader that is to be kept from it trades with itself in a call with the given callbacks. -/
def NoSelfTrade (e : MatchingEngine) (events : List EngineEvent) : Prop :=
  ∀ t, e.Prevents t → ∀ trade ∈ events.filterMap EngineEvent.trade?,
    ¬ (trade.restingTrader = t ∧ trade.incomingTrader = t)

/-- The order of such a trader reaches orders of others only, or trades with nobody because it is
rejected or killed. -/
def ReachesOthers (e : MatchingEngine) : EngineOp → Prop
  | .newOrder order _ _ =>
    ∀ b, e.Prevents order.traderId → e.book order.symbol = some b →
      (e.checkRisk order).1 = .none → order.id ∉ b.orderIndex →
      (order.tif = .fok ∧ b.tradableQty order < order.quantity) ∨
        ∀ n ∈ reached (fun n => n.val.openQty) order.quantity (b.facing order),
          n.val.traderId ≠ order.traderId
  | .replace req ts _ =>
    ∀ b loc, e.Prevents req.traderId → e.book req.symbol = some b →
      b.orderIndex.lookup req.orderId = some loc →
      ∀ n ∈ reached (fun n => n.val.openQty) req.newQty
        (b.facing (L3OrderBook.replacement req loc.side ts)), n.val.traderId ≠ req.traderId
  | _ => True

instance (e : MatchingEngine) : ∀ op, Decidable (e.ReachesOthers op)
  | .newOrder order _ _ =>
    decidable_of_iff (e.Prevents order.traderId → ∀ b ∈ e.book order.symbol,
      (e.checkRisk order).1 = .none → order.id ∉ b.orderIndex →
      (order.tif = .fok ∧ b.tradableQty order < order.quantity) ∨
        ∀ n ∈ reached (fun n : ListNode L3Order => n.val.openQty) order.quantity (b.facing order),
          n.val.traderId ≠ order.traderId)
      ⟨fun h b hp hb => h hp b hb, fun h hp b hb => h b hp hb⟩
  | .replace req ts _ =>
    decidable_of_iff (e.Prevents req.traderId → ∀ b ∈ e.book req.symbol,
      ∀ loc ∈ b.orderIndex.lookup req.orderId,
      ∀ n ∈ reached (fun n : ListNode L3Order => n.val.openQty) req.newQty
        (b.facing (L3OrderBook.replacement req loc.side ts)), n.val.traderId ≠ req.traderId)
      ⟨fun h b loc hp hb => h hp b hb loc, fun h hp b hb loc => h b loc hp hb⟩
  | .addSymbol _ | .cancel .. | .killTrader _ | .killAll | .unkillTrader _ | .unkillAll =>
    isTrue trivial

theorem noSelfTrade_iff_incoming (e : MatchingEngine) (op : EngineOp) :
    e.NoSelfTrade (e.perform op).2 ↔ ∀ trade ∈ e.tradesOf op,
      e.Prevents trade.incomingTrader → trade.restingTrader ≠ trade.incomingTrader := by
  constructor
  · intro hall trade htrade hp heq
    exact hall _ hp trade htrade ⟨heq, rfl⟩
  · rintro hall t hp trade htrade ⟨hrest, rfl⟩
    exact hall trade htrade hp hrest

theorem reachesOthers_of_dispatch_none {e : MatchingEngine} {op : EngineOp}
    (hd : e.dispatch op = none) : e.ReachesOthers op := by
  cases op with
  | newOrder order ts publishedAt =>
    intro b _ hb hok
    exact absurd (.newOrder hb hok) (not_reaches hd _)
  | replace req ts publishedAt =>
    intro b loc _ hb
    exact absurd (.replace hb) (not_reaches hd _)
  | _ => trivial

section Book
variable {e : MatchingEngine} {b : L3OrderBook} (hrep : b.RepInv)
include hrep

theorem reachesOthers_newOrder_iff {order : Order} (hb : e.book order.symbol = some b)
    (hok : (e.checkRisk order).1 = .none) (ts publishedAt : Timestamp) :
    (∀ trade ∈ (b.addOrder order ts).trades,
      e.Prevents trade.incomingTrader → trade.restingTrader ≠ trade.incomingTrader) ↔
        e.ReachesOthers (.newOrder order ts publishedAt) := by
  by_cases hid : order.id ∈ b.orderIndex
  · rw [hrep.addOrder_of_has ((hrep.mem_index _).mp hid)]
    refine iff_of_true (List.forall_mem_nil _) fun b' _ hb' _ hnot => absurd hid ?_
    exact Option.some_inj.mp (hb.symm.trans hb') ▸ hnot
  · refine (hrep.forall_trades_addOrder hid ts fun rest inc => e.Prevents inc → rest ≠ inc).trans ?_
    constructor
    · rintro hall b' hp hb' - -
      obtain rfl := Option.some_inj.mp (hb.symm.trans hb')
      exact hall.imp_right fun hothers n hn => hothers n hn hp
    · intro hreach
      by_cases hp : e.Prevents order.traderId
      · exact (hreach b hp hb hok hid).imp_right fun hothers n hn _ => hothers n hn
      · exact Or.inr fun _ _ hp' => absurd hp' hp

theorem reachesOthers_replace_iff {req : ReplaceRequest} (hb : e.book req.symbol = some b)
    (ts publishedAt : Timestamp) :
    (∀ trade ∈ (b.replaceOrder req ts).trades,
      e.Prevents trade.incomingTrader → trade.restingTrader ≠ trade.incomingTrader) ↔
        e.ReachesOthers (.replace req ts publishedAt) := by
  cases hl : b.orderIndex.lookup req.orderId with
  | none =>
    rw [hrep.replaceOrder_of_not_has (hrep.not_has_of_lookup hl)]
    refine iff_of_true (List.forall_mem_nil _) fun b' loc _ hb' hl' => ?_
    rw [← Option.some_inj.mp (hb.symm.trans hb'), hl] at hl'
    cases hl'
  | some loc =>
    refine (hrep.forall_trades_replaceOrder hl ts
      fun rest inc => e.Prevents inc → rest ≠ inc).trans ?_
    constructor
    · intro hall b' loc' hp hb' hl' n hn
      obtain rfl := Option.some_inj.mp (hb.symm.trans hb')
      obtain rfl := Option.some_inj.mp (hl.symm.trans hl')
      exact hall n hn hp
    · intro hreach n hn hp
      exact hreach b loc hp hb hl n hn

end Book

theorem BooksReachable.noSelfTrade_iff {e : MatchingEngine} (h : e.BooksReachable) (op : EngineOp) :
    e.NoSelfTrade (e.perform op).2 ↔ e.ReachesOthers op := by
  rw [noSelfTrade_iff_incoming]
  cases hd : e.dispatch op with
  | none =>
    rw [(dispatch_none hd).1]
    exact iff_of_true (List.forall_mem_nil _) (reachesOthers_of_dispatch_none hd)
  | some c =>
    have hc := dispatch_some hd
    have hrep := h.repInv hc.here
    rw [hc.trades]
    cases reaches_of_dispatch hd with
    | newOrder hb hok => exact reachesOthers_newOrder_iff hrep hb hok _ _
    | @cancel req ts =>
      rw [L3OrderBook.step, (hrep.cancelOrder {} req.orderId ts).trades]
      exact iff_of_true (List.forall_mem_nil _) trivial
    | replace hb => exact reachesOthers_replace_iff hrep hb _ _

/-! ## Sessions -/

/-- Along a session no trader that is to be kept from it trades with itself exactly when its orders
reach others only. -/
theorem along_selfTrade_iff (calls : List SessionCall) :
    Run.Along stepCall (fun e call =>
        (e.withRisk call.risk).NoSelfTrade ((e.withRisk call.risk).perform call.op).2) {} calls ↔
      Run.Along stepCall (fun e call => (e.withRisk call.risk).ReachesOthers call.op) {} calls := by
  apply Run.along_congr (I := BooksReachable)
  · intro e call h
    exact BooksReachable.noSelfTrade_iff (e := e.withRisk call.risk) h call.op
  · intro e call h _
    exact BooksReachable.step (e := e.withRisk call.risk) h call.op
  · exact fun _ _ h => absurd h nofun

end MatchingEngine

/-! ## On 64-bit integers -/

namespace MachineEngine

/-- **When self-trades are prevented**: along a session in the range no trader that is to be kept from
it trades with itself exactly when its orders reach others only. -/
theorem session_selfTrade_iff (calls : List SessionCall)
    (hrange : Run.Along stepCall CallInRange {} calls) :
    Run.Along stepCall (fun e call =>
        (e.withRisk call.risk).NoSelfTrade (perform (e.withRisk call.risk) call.op).2) {} calls ↔
      Run.Along stepCall (fun e call => (e.withRisk call.risk).ReachesOthers call.op) {} calls := by
  have htrades := along_iff hrange
    (C := fun e call =>
      (e.withRisk call.risk).NoSelfTrade (perform (e.withRisk call.risk) call.op).2)
    (D := fun e call =>
      (e.withRisk call.risk).NoSelfTrade ((e.withRisk call.risk).perform call.op).2)
    fun _ _ hagree => by rw [hagree.1]
  rw [htrades, along_condition_iff hrange]
  exact MatchingEngine.along_selfTrade_iff calls

/-- Trader 1 buys what trader 2 sells and no more, so that it does not reach its own ask behind. -/
theorem session_selfTrade_iff_front :
    let sell (id : OrderId) (traderId : TraderId) : EngineOp :=
      .newOrder { id, traderId, side := .sell, price := 100, quantity := 10 } 0 0
    let calls := sessionOf (.start {}) [.addSymbol {}, sell 1 2, sell 2 1,
      .newOrder { id := 3, traderId := 1, price := 100, quantity := 10 } 1 1]
    Run.Along stepCall (fun e call =>
      (e.withRisk call.risk).NoSelfTrade (perform (e.withRisk call.risk) call.op).2) {} calls :=
  (session_selfTrade_iff _ (by decide)).mpr (by decide)

/-- With the default limits trader 1 buys what it sells. -/
theorem session_trades_with_itself : ¬ ∀ calls,
    Run.Along stepCall (fun e call =>
      (e.withRisk call.risk).NoSelfTrade (perform (e.withRisk call.risk) call.op).2) {} calls := by
  intro h
  have hrun := h (sessionOf (.start {}) [.addSymbol {},
    .newOrder { id := 1, traderId := 1, side := .sell, price := 100, quantity := 10 } 0 0,
    .newOrder { id := 2, traderId := 1, price := 100, quantity := 10 } 1 1])
  rw [along_sessionOf (fun e op => e.NoSelfTrade (perform e op).2) (.start {}) rfl] at hrun
  have hself := hrun.2.2.1 1 ⟨_, rfl, rfl⟩
  revert hself
  decide

end MachineEngine

end HftSdk
