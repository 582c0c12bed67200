import HftSdk.Common.Clock
import HftSdk.Market.DropCopy
import HftSdk.Orderbook.TimeOrder

/-!
# Replays

An engine and the clock it reads, which is the steady clock or a simulated one that other calls move.
Nothing in the engine checks its clock. `replay_inTimeOrder`: along a replay in which nobody sets the
clock back (`Forward`), everything that carries a time is in order. The callbacks come in the order of
their timestamps, none later than the clock; every queue stands in order of entry; and no trade is
made before its resting order was entered.
-/

namespace HftSdk

/-! ## Timestamps -/

def BookEvent.time : BookEvent → Timestamp
  | .trade t => t.matchTimestampNs
  | .topOfBook tob => tob.timestamp

/-- The timestamp of a callback. -/
def EngineEvent.time : EngineEvent → Timestamp
  | .trade t => t.matchTimestampNs
  | .execution rpt => rpt.transactTime
  | .l1 tob => tob.timestamp
  | .l2 depth => depth.timestamp

/-- The request with its readings of the clock. -/
def EngineOp.clocked (op : EngineOp) (ts publishedAt : Timestamp) : EngineOp :=
  match op with
  | .newOrder order _ _ => .newOrder order ts publishedAt
  | .cancel req _ _ => .cancel req ts publishedAt
  | .replace req _ _ => .replace req ts publishedAt
  | op => op

namespace L3OrderBook

theorem time_publishTob (b : L3OrderBook) (ts : Timestamp) : (b.publishTob ts).time = ts := by
  unfold publishTob topOfBook BookEvent.time
  dsimp only
  cases b.bestBid <;> cases b.bestAsk <;> rfl

theorem transactTime_handleRemainder (b : L3OrderBook) (rpt : ExecutionReport) (o : Order)
    (res : MatchResult) (ts : Timestamp) :
    (b.handleRemainder (matchedReport rpt o res) o res ts).1.transactTime = rpt.transactTime := by
  have hmatched : (matchedReport rpt o res).transactTime = rpt.transactTime := by
    unfold matchedReport
    dsimp only
    split_ifs
    · rfl
    · cases res.trades.getLast? <;> rfl
    · rfl
  unfold handleRemainder
  by_cases h : 0 < res.remainingQty ∧ o.type = .limit
  · rw [if_pos h]
    cases o.tif <;> exact hmatched
  · rw [if_neg h]
    exact hmatched

theorem RepInv.time_addOrder {b : L3OrderBook} (h : b.RepInv) (o : Order) (ts : Timestamp) :
    (∀ ev ∈ (b.addOrder o ts).events, ev.time = ts) ∧ (b.addOrder o ts).rpt.transactTime = ts := by
  by_cases hid : o.id ∈ b.orderIndex
  · rw [L3OrderBook.addOrder, if_pos hid]
    exact ⟨fun _ h => absurd h List.not_mem_nil, rfl⟩
  · refine ⟨fun ev hev => ?_, ?_⟩
    · rw [L3OrderBook.addOrder, if_neg hid] at hev
      rcases List.mem_append.mp hev with hev | hev
      · obtain ⟨t, ht, rfl⟩ := List.mem_map.mp hev
        rw [(h.matchIncoming o ts).trades] at ht
        exact (trade_of_fillTrades ht).1
      · split_ifs at hev
        · rw [List.mem_singleton.mp hev, time_publishTob]
        · cases hev
    · rw [(addOrder_of_not_mem hid ts).1, transactTime_handleRemainder]
      rfl

theorem time_cancelOrder (b : L3OrderBook) (id : OrderId) (ts : Timestamp) :
    (∀ ev ∈ (b.cancelOrder id ts).events, ev.time = ts) ∧
      (b.cancelOrder id ts).rpt.transactTime = ts := by
  unfold cancelOrder
  dsimp only
  cases b.orderIndex.lookup id with
  | none => exact ⟨fun _ h => absurd h List.not_mem_nil, rfl⟩
  | some loc =>
    refine ⟨fun ev hev => ?_, rfl⟩
    rw [List.mem_singleton.mp hev, time_publishTob]

theorem RepInv.time_step {b : L3OrderBook} (h : b.RepInv) (op : BookOp) :
    (∀ ev ∈ (b.step op).events, ev.time = op.ts) ∧ (b.step op).rpt.transactTime = op.ts := by
  cases op with
  | add o ts => exact h.time_addOrder o ts
  | cancel id ts => exact b.time_cancelOrder id ts
  | replace req ts =>
    have hcancel := b.time_cancelOrder req.orderId ts
    rw [L3OrderBook.step, L3OrderBook.replaceOrder]
    dsimp only
    split_ifs
    · exact hcancel
    · have hadd := (h.cancelOrder {} req.orderId ts).repInv.time_addOrder
        (replacement req (b.cancelOrder req.orderId ts).rpt.side ts) ts
      refine ⟨fun ev hev => ?_, hadd.2⟩
      rcases List.mem_append.mp hev with hev | hev
      · exact hcancel.1 ev hev
      · exact hadd.1 ev hev

end L3OrderBook

namespace MatchingEngine

/-- When a request starts. -/
def startTime : EngineOp → Timestamp
  | .newOrder _ ts _ => ts
  | .cancel _ ts _ => ts
  | .replace _ ts _ => ts
  | _ => 0

theorem Reaches.ts_op {e : MatchingEngine} {op : EngineOp} {c : BookCall} (h : e.Reaches op c) :
    c.op.ts = startTime op := by
  cases h <;> rfl

theorem BooksReachable.time_perform {e : MatchingEngine} (h : e.BooksReachable) (op : EngineOp) :
    ∃ front back, (e.perform op).2 = front ++ back ∧ (∀ ev ∈ front, ev.time = startTime op) ∧
      ∀ ev ∈ back, ev.time = publishTime op := by
  cases hd : e.dispatch op with
  | none =>
    refine ⟨(e.perform op).2, [], (List.append_nil _).symm, fun ev hev => ?_,
      fun _ h => absurd h List.not_mem_nil⟩
    cases op with
    | newOrder order ts publishedAt =>
      have hevents : (e.perform (.newOrder order ts publishedAt)).2 = _ := events_of_refused_order hd
      rw [hevents, List.mem_singleton] at hev
      rw [hev]
      cases hs : e.symbols.lookup order.symbol with
      | none =>
        unfold processNewOrder
        simp only [show e.countOrder.symbols.lookup order.symbol = none from hs]
        rfl
      | some state =>
        have hbad : (e.checkRisk order).1 ≠ .none := by
          intro hok
          rw [dispatch, book, hs] at hd
          simp [hok] at hd
        rw [processNewOrder_eq hs, if_neg hbad]
        rfl
    | cancel req ts publishedAt =>
      have hevents : (e.perform (.cancel req ts publishedAt)).2 = [] :=
        events_of_unaddressed hd rfl (fun _ _ _ h => by cases h)
      rw [hevents] at hev
      cases hev
    | replace req ts publishedAt =>
      have hevents : (e.perform (.replace req ts publishedAt)).2 = [] :=
        events_of_unaddressed hd rfl (fun _ _ _ h => by cases h)
      rw [hevents] at hev
      cases hev
    | _ => cases hev
  | some c =>
    have hreach := reaches_of_dispatch hd
    obtain ⟨hevents, hrpt⟩ := (h.repInv hreach.here).time_step c.op
    rw [hreach.ts_op] at hevents hrpt
    obtain ⟨state, -, -, hr⟩ := hreach.request
    rw [perform_of_request hr]
    refine ⟨(c.book.step c.op).events.map forward ++ [.execution (c.book.step c.op).rpt],
      ((e.settle op c.symbol state (c.book.step c.op)).publishMarketData c.symbol (publishTime op)).2,
      by simp [report], fun ev hev => ?_, fun ev hev => ?_⟩
    · rcases List.mem_append.mp hev with hev | hev
      · obtain ⟨ev', hev', rfl⟩ := List.mem_map.mp hev
        rw [← hevents ev' hev']
        cases ev' <;> rfl
      · rw [List.mem_singleton.mp hev]
        exact hrpt
    · unfold publishMarketData at hev
      cases hs : (e.settle op c.symbol state (c.book.step c.op)).symbols.lookup c.symbol with
      | none =>
        rw [hs] at hev
        cases hev
      | some state' =>
        rw [hs] at hev
        rw [List.mem_singleton.mp hev]
        rfl

/-- No order of any book is from the future, and every queue is in order of stamps. -/
def Timed (e : MatchingEngine) (now : Timestamp) : Prop :=
  ∀ s b, e.book s = some b → b.ladder.Timed now

theorem BooksReachable.timed_step {e : MatchingEngine} (h : e.BooksReachable) {now : Timestamp}
    (ht : e.Timed now) {op : EngineOp} (hle : e.dispatch op ≠ none → now ≤ startTime op)
    {later : Timestamp} (hnow : now ≤ later) (hlater : e.dispatch op ≠ none → startTime op ≤ later) :
    (e.step op).Timed later := by
  intro s b hb
  cases hd : e.dispatch op with
  | none =>
    rcases (dispatch_none hd).2 s with hsame | ⟨-, hnew⟩
    · exact (ht s b (hsame ▸ hb)).mono hnow
    · obtain rfl := Option.some_inj.mp (hnew.symm.trans hb)
      rw [L3OrderBook.create_ladder]
      exact Ladder.timed_empty later
  | some c =>
    have hreach := reaches_of_dispatch hd
    have hsome : e.dispatch op ≠ none := by simp [hd]
    rw [(dispatch_some hd).books] at hb
    split_ifs at hb with hs
    · have hrep := h.repInv hreach.here
      obtain rfl := Option.some_inj.mp hb
      rw [(hrep.step c.op).1]
      have hstep := (ht c.symbol c.book hreach.here).step hrep.inv (by
        rw [hreach.ts_op]
        exact hle hsome)
      rw [hreach.ts_op] at hstep
      exact hstep.mono (hlater hsome)
    · exact (ht s b hb).mono hnow

end MatchingEngine

/-! ## An engine and its clock -/

/-- `steady` is what the steady clock of the machine reads. -/
structure Replay where
  clock : Clock
  steady : Timestamp := 0
  engine : MatchingEngine := {}

inductive ReplayOp
  /-- Real time passes. -/
  | elapse (steady : Timestamp)
  | advance (deltaNs : UInt64)
  | setTime (ts : Timestamp)
  | reset
  /-- A call on the engine, in which real time may pass before it publishes. -/
  | call (risk : Option RiskEngine) (op : EngineOp) (steady : Timestamp)

namespace Replay

def now (r : Replay) : Timestamp := r.clock.now r.steady

/-- The replay after an operation, and the callbacks made in it. -/
def perform (r : Replay) : ReplayOp → List EngineEvent × Replay
  | .elapse steady => ([], { r with steady })
  | .advance deltaNs => ([], { r with clock := r.clock.advance deltaNs })
  | .setTime ts => ([], { r with clock := r.clock.setTime ts })
  | .reset => ([], { r with clock := r.clock.reset })
  | .call risk op steady =>
    let (engine, events) :=
      (r.engine.withRisk risk).perform (op.clocked r.now (r.clock.now steady))
    (events, { r with steady, engine })

/-- Nobody sets the clock back. -/
def Forward (r : Replay) : ReplayOp → Prop
  | .elapse steady => r.steady ≤ steady
  | .advance deltaNs => r.clock.simulatedTime.toNat + deltaNs.toNat < 2 ^ 64
  | .setTime ts => r.clock.simulatedTime ≤ ts
  | .reset => r.clock.simulatedTime = 0
  | .call _ _ steady => r.steady ≤ steady

instance (r : Replay) (op : ReplayOp) : Decidable (r.Forward op) := by
  cases op <;> unfold Forward <;> infer_instance

theorem now_mono (c : Clock) {steady steady' : Timestamp} (h : steady ≤ steady') :
    c.now steady ≤ c.now steady' := by
  unfold Clock.now
  cases c.mode
  · exact h
  · exact UInt64.le_refl _

theorem now_le_perform {r : Replay} {op : ReplayOp} (h : r.Forward op) :
    r.now ≤ (r.perform op).2.now := by
  obtain ⟨⟨mode, time⟩, steady, engine⟩ := r
  cases op with
  | elapse steady' => exact now_mono ⟨mode, time⟩ h
  | call risk op steady' => exact now_mono ⟨mode, time⟩ h
  | advance deltaNs =>
    cases mode with
    | wallClock => exact UInt64.le_refl steady
    | simulated =>
      change time ≤ time + deltaNs
      rw [UInt64.le_iff_toNat_le, UInt64.toNat_add, Nat.mod_eq_of_lt h]
      exact Nat.le_add_right _ _
  | setTime ts =>
    cases mode with
    | wallClock => exact UInt64.le_refl steady
    | simulated => exact h
  | reset =>
    cases mode with
    | wallClock => exact UInt64.le_refl steady
    | simulated => exact UInt64.le_of_eq h

/-- The resting order of a trade was on its book by the time of the trade. -/
def Entered (r : Replay) (t : Trade) : Prop :=
  ∃ b n, r.engine.book t.symbol = some b ∧ n ∈ b.nodes ∧ n.val.id = t.restingId ∧
    n.val.entryTime ≤ t.matchTimestampNs

/-- The books are those of runs, and timed by the clock. -/
structure Inv (r : Replay) : Prop where
  books : r.engine.BooksReachable
  timed : r.engine.Timed r.now

/-- Callbacks in the order of their times, which lie between two readings of the clock. -/
structure Between (events : List EngineEvent) (first last : Timestamp) : Prop where
  sorted : (events.map EngineEvent.time).Pairwise (· ≤ ·)
  after : ∀ ev ∈ events, first ≤ ev.time
  before : ∀ ev ∈ events, ev.time ≤ last

theorem Between.nil (first last : Timestamp) : Between [] first last where
  sorted := List.Pairwise.nil
  after _ h := absurd h List.not_mem_nil
  before _ h := absurd h List.not_mem_nil

theorem Between.append {events events' : List EngineEvent} {t u u' v : Timestamp}
    (h : Between events t u) (h' : Between events' u' v) (hfirst : t ≤ u') (hseam : u ≤ u')
    (hlast : u ≤ v) : Between (events ++ events') t v where
  sorted := by
    rw [List.map_append, List.pairwise_append]
    refine ⟨h.sorted, h'.sorted, fun x hx y hy => ?_⟩
    obtain ⟨ev, hev, rfl⟩ := List.mem_map.mp hx
    obtain ⟨ev', hev', rfl⟩ := List.mem_map.mp hy
    exact UInt64.le_trans (h.before ev hev) (UInt64.le_trans hseam (h'.after ev' hev'))
  after ev hev := by
    rcases List.mem_append.mp hev with hev | hev
    · exact h.after ev hev
    · exact UInt64.le_trans hfirst (h'.after ev hev)
  before ev hev := by
    rcases List.mem_append.mp hev with hev | hev
    · exact UInt64.le_trans (h.before ev hev) hlast
    · exact h'.before ev hev

theorem between_of_eq {events : List EngineEvent} {t : Timestamp} (h : ∀ ev ∈ events, ev.time = t) :
    Between events t t where
  sorted := by
    rw [List.pairwise_map]
    apply List.pairwise_of_forall_mem_list
    intro ev hev ev' hev'
    rw [h ev hev, h ev' hev']
    exact UInt64.le_refl t
  after ev hev := UInt64.le_of_eq (h ev hev).symm
  before ev hev := UInt64.le_of_eq (h ev hev)

theorem between_clocked {e : MatchingEngine} (h : e.BooksReachable) (op : EngineOp)
    {ts publishedAt : Timestamp} (hle : ts ≤ publishedAt) :
    Between (e.perform (op.clocked ts publishedAt)).2 ts publishedAt := by
  have hrequest : MatchingEngine.startTime (op.clocked ts publishedAt) = ts →
      MatchingEngine.publishTime (op.clocked ts publishedAt) = publishedAt →
        Between (e.perform (op.clocked ts publishedAt)).2 ts publishedAt := by
    intro hstart hpublish
    obtain ⟨front, back, hevents, hfront, hback⟩ := h.time_perform (op.clocked ts publishedAt)
    rw [hstart] at hfront
    rw [hpublish] at hback
    rw [hevents]
    exact (between_of_eq hfront).append (between_of_eq hback) hle hle hle
  cases op with
  | newOrder | cancel | replace => exact hrequest rfl rfl
  | _ => exact Between.nil _ _

theorem entered_of_trade {r : Replay} (h : r.Inv) {op : ReplayOp} {t : Trade}
    (ht : .trade t ∈ (r.perform op).1) : r.Entered t := by
  cases op with
  | call risk op steady =>
    set e := r.engine.withRisk risk
    set op' := op.clocked r.now (r.clock.now steady)
    have hbooks : e.BooksReachable := h.books
    have hmem : t ∈ e.tradesOf op' := List.mem_filterMap.mpr ⟨_, ht, rfl⟩
    cases hd : e.dispatch op' with
    | none =>
      rw [(MatchingEngine.dispatch_none hd).1] at hmem
      cases hmem
    | some c =>
      have hc := MatchingEngine.dispatch_some hd
      have hrep := hbooks.repInv hc.here
      have htime := (MatchingEngine.reaches_of_dispatch hd).ts_op
      rw [hc.trades] at hmem
      obtain ⟨hts, n, hn, hid⟩ := hrep.trade_resting hmem
      have hsymbol : t.symbol = c.symbol :=
        (hrep.symbol_trades c.op t hmem).trans (hbooks.symbol hc.here)
      have hstart : MatchingEngine.startTime op' = r.now := by
        cases op with
        | newOrder | cancel | replace => rfl
        | _ => cases hd
      refine ⟨c.book, n, by rw [hsymbol]; exact hc.here, hn, hid, ?_⟩
      rw [hts, htime, hstart]
      exact L3OrderBook.entryTime_le (h.timed c.symbol c.book hc.here) hn
  | _ => cases ht

theorem Inv.perform {r : Replay} (h : r.Inv) {op : ReplayOp} (hforward : r.Forward op) :
    (r.perform op).2.Inv ∧ Between (r.perform op).1 r.now (r.perform op).2.now := by
  have hnow := now_le_perform hforward
  cases op with
  | call risk op steady =>
    have hbooks : (r.engine.withRisk risk).BooksReachable := h.books
    have hpublish : r.now ≤ r.clock.now steady := now_mono r.clock hforward
    refine ⟨⟨hbooks.step _, ?_⟩, between_clocked hbooks op hpublish⟩
    have hstart : (r.engine.withRisk risk).dispatch (op.clocked r.now (r.clock.now steady)) ≠ none →
        MatchingEngine.startTime (op.clocked r.now (r.clock.now steady)) = r.now := by
      intro hd
      cases op with
      | newOrder | cancel | replace => rfl
      | _ => exact absurd rfl hd
    have htimed : (r.engine.withRisk risk).Timed r.now := h.timed
    exact hbooks.timed_step htimed (fun hd => UInt64.le_of_eq (hstart hd).symm) hnow
      fun hd => by rw [hstart hd]; exact hnow
  | _ =>
    exact ⟨⟨h.books, fun s b hb => (h.timed s b hb).mono hnow⟩, Between.nil _ _⟩

/-- A replay starts with an engine without symbols. -/
def start (mode : ClockMode) (steady : Timestamp) : Replay := { clock := { mode }, steady }

theorem inv_start (mode : ClockMode) (steady : Timestamp) : (start mode steady).Inv where
  books _ _ h := absurd h nofun
  timed _ _ h := absurd h nofun

/-- The callbacks of a replay. -/
def events (r : Replay) (ops : List ReplayOp) : List EngineEvent := (Run.outputs perform r ops).flatten

theorem Inv.run {r : Replay} (h : r.Inv) {ops : List ReplayOp}
    (hforward : Run.Along (fun r op => (r.perform op).2) Forward r ops) :
    (Run.final Replay.perform r ops).Inv ∧ r.now ≤ (Run.final Replay.perform r ops).now ∧
      Between (r.events ops) r.now (Run.final Replay.perform r ops).now := by
  induction ops generalizing r with
  | nil => exact ⟨h, UInt64.le_refl _, Between.nil _ _⟩
  | cons op ops ih =>
    have hnow := now_le_perform hforward.1
    obtain ⟨hinv, hbetween⟩ := h.perform hforward.1
    obtain ⟨hinv', hnow', hrest⟩ := ih hinv hforward.2
    exact ⟨hinv', UInt64.le_trans hnow hnow',
      hbetween.append hrest hnow (UInt64.le_refl _) hnow'⟩

/-- **A replay is in time order** when nobody sets the clock back: its callbacks come in the order of
their timestamps, none of them ahead of the clock; every queue of every book stands in order of entry;
and no trade is made before its resting order was entered. -/
theorem replay_inTimeOrder (mode : ClockMode) (steady : Timestamp) (ops : List ReplayOp)
    (hforward : Run.Along (fun r op => (r.perform op).2) Forward (start mode steady) ops) :
    (((start mode steady).events ops).map EngineEvent.time).Pairwise (· ≤ ·) ∧
      (∀ ev ∈ (start mode steady).events ops,
        ev.time ≤ (Run.final perform (start mode steady) ops).now) ∧
      (∀ s b, (Run.final perform (start mode steady) ops).engine.book s = some b →
        b.InTimeOrder (Run.final perform (start mode steady) ops).now) ∧
      Run.Along (fun r op => (r.perform op).2)
        (fun r op => ∀ t, .trade t ∈ (r.perform op).1 → r.Entered t) (start mode steady) ops := by
  obtain ⟨hinv, -, hbetween⟩ := (inv_start mode steady).run hforward
  refine ⟨hbetween.sorted, hbetween.before, fun s b hb => ?_, ?_⟩
  · exact (hinv.books.repInv hb).inTimeOrder (hinv.timed s b hb)
  · exact hforward.imp (fun r op h hf => ⟨(h.perform hf).1, fun t ht => entered_of_trade h ht⟩)
      (inv_start mode steady)

/-- A sell enters at 5 and trades at 12, on a simulated clock. -/
theorem replay_of_trade :
    let ops : List ReplayOp := [.call none (.addSymbol {}) 0, .advance 5,
      .call none (.newOrder { id := 1, side := .sell, price := 10, quantity := 5 } 0 0) 0, .advance 7,
      .call none (.newOrder { id := 2, side := .buy, price := 11, quantity := 5 } 0 0) 0]
    (((start .simulated 0).events ops).map EngineEvent.time).Pairwise (· ≤ ·) ∧
      (∀ ev ∈ (start .simulated 0).events ops,
        ev.time ≤ (Run.final perform (start .simulated 0) ops).now) ∧
      (∀ s b, (Run.final perform (start .simulated 0) ops).engine.book s = some b →
        b.InTimeOrder (Run.final perform (start .simulated 0) ops).now) ∧
      Run.Along (fun r op => (r.perform op).2)
        (fun r op => ∀ t, .trade t ∈ (r.perform op).1 → r.Entered t) (start .simulated 0) ops :=
  replay_inTimeOrder .simulated 0 _ (by decide)

end Replay

end HftSdk
