import HftSdk.Market.MatchingEngine
import HftSdk.Orderbook.Invariants
import HftSdk.Lib.Run

/-!
# What a request does

A request either reaches a book, in one of three ways (`Reaches`), and then ends with the report of
its one call there; or the engine refuses it (`Refuses`), and then nothing but counters and rates has
changed. So every book of an engine is one that some sequence of calls on it leads to
(`BooksReachable.step`, `inv_run`), and what holds of every run of a book holds of each book here.
-/

namespace HftSdk

namespace MatchingEngine

/-! ## What the parts of a request do to the books and to the risk engine -/

/-- The engines have the same books. -/
def SameBooks (e e' : MatchingEngine) : Prop := ∀ s, e'.book s = e.book s

theorem book_insert (e : MatchingEngine) (symbol : Symbol) (state : SymbolState) (s : Symbol) :
    ({ e with symbols := e.symbols.insert symbol state } : MatchingEngine).book s =
      if s = symbol then some state.book else e.book s := by
  unfold book
  split_ifs with h
  · rw [h, Finmap.lookup_insert]
    rfl
  · rw [Finmap.lookup_insert_of_ne _ h]

theorem sameBooks_insert {e : MatchingEngine} {symbol : Symbol} {state state' : SymbolState}
    (hs : e.symbols.lookup symbol = some state) (hbook : state'.book = state.book) :
    e.SameBooks { e with symbols := e.symbols.insert symbol state' } := by
  intro s
  rw [book_insert]
  split_ifs with h
  · rw [h, hbook, book, hs]
    rfl
  · rfl

theorem onBookEvent_frame (e : MatchingEngine) (ev : BookEvent) :
    e.SameBooks (e.onBookEvent ev) ∧ (e.onBookEvent ev).riskEngine = e.riskEngine := by
  cases ev with
  | topOfBook tob => exact ⟨fun _ => rfl, rfl⟩
  | trade t =>
    unfold onBookEvent
    dsimp only
    cases hs : e.symbols.lookup t.symbol with
    | none => exact ⟨fun _ => rfl, rfl⟩
    | some state => exact ⟨sameBooks_insert hs rfl, rfl⟩

theorem foldl_onBookEvent_frame (evs : List BookEvent) (e : MatchingEngine) :
    e.SameBooks (evs.foldl onBookEvent e) ∧ (evs.foldl onBookEvent e).riskEngine = e.riskEngine := by
  induction evs generalizing e with
  | nil => exact ⟨fun _ => rfl, rfl⟩
  | cons ev evs ih =>
    obtain ⟨hb, hr⟩ := e.onBookEvent_frame ev
    obtain ⟨hb', hr'⟩ := ih (e.onBookEvent ev)
    exact ⟨fun s => (hb' s).trans (hb s), hr'.trans hr⟩

theorem book_afterCall (e : MatchingEngine) (symbol : Symbol) (state : SymbolState) (r : BookResult)
    (s : Symbol) :
    (e.afterCall symbol state r).book s = if s = symbol then some r.book else e.book s := by
  rw [afterCall, (foldl_onBookEvent_frame _ _).1 s, book_insert]

@[simp] theorem riskEngine_afterCall (e : MatchingEngine) (symbol : Symbol) (state : SymbolState)
    (r : BookResult) : (e.afterCall symbol state r).riskEngine = e.riskEngine :=
  (foldl_onBookEvent_frame _ _).2

theorem publishMarketData_frame (e : MatchingEngine) (symbol : Symbol) (ts : Timestamp) :
    e.SameBooks (e.publishMarketData symbol ts).1 ∧
      (e.publishMarketData symbol ts).1.riskEngine = e.riskEngine ∧
      (e.publishMarketData symbol ts).2.filterMap EngineEvent.trade? = [] := by
  unfold publishMarketData
  cases hs : e.symbols.lookup symbol with
  | none => exact ⟨fun _ => rfl, rfl, rfl⟩
  | some state => exact ⟨sameBooks_insert hs rfl, rfl, rfl⟩

@[simp] theorem book_report (e : MatchingEngine) (symbol : Symbol) (r : BookResult) (ts : Timestamp)
    (s : Symbol) : (e.report symbol r ts).engine.book s = e.book s :=
  (e.publishMarketData_frame symbol ts).1 s

@[simp] theorem riskEngine_report (e : MatchingEngine) (symbol : Symbol) (r : BookResult)
    (ts : Timestamp) : (e.report symbol r ts).engine.riskEngine = e.riskEngine :=
  (e.publishMarketData_frame symbol ts).2.1

@[simp] theorem trades_report (e : MatchingEngine) (symbol : Symbol) (r : BookResult)
    (ts : Timestamp) : (e.report symbol r ts).events.filterMap EngineEvent.trade? = r.trades := by
  have hforward : EngineEvent.trade? ∘ forward = BookEvent.trade? := by
    funext ev
    cases ev <;> rfl
  have hmarket := (e.publishMarketData_frame symbol ts).2.2
  unfold report BookResult.trades
  simp only [List.filterMap_append, List.filterMap_map, hforward, List.filterMap_cons]
  exact (congrArg (_ ++ ·) hmarket).trans (List.append_nil _)

@[simp] theorem book_trackOrder (e : MatchingEngine) (order : Order) (rpt : ExecutionReport)
    (s : Symbol) : (e.trackOrder order rpt).book s = e.book s := by
  unfold trackOrder
  split_ifs <;> rfl

@[simp] theorem riskEngine_trackOrder (e : MatchingEngine) (order : Order) (rpt : ExecutionReport) :
    (e.trackOrder order rpt).riskEngine = e.riskEngine := by
  unfold trackOrder
  split_ifs <;> rfl

@[simp] theorem book_fillRisk (e : MatchingEngine) (order : Order) (rpt : ExecutionReport)
    (s : Symbol) : (e.fillRisk order rpt).book s = e.book s := by
  unfold fillRisk
  split_ifs <;> rfl

@[simp] theorem book_untrackOrder (e : MatchingEngine) (id : OrderId) (rpt : ExecutionReport)
    (s : Symbol) : (e.untrackOrder id rpt).book s = e.book s := by
  unfold untrackOrder
  split_ifs <;> rfl

@[simp] theorem riskEngine_untrackOrder (e : MatchingEngine) (id : OrderId) (rpt : ExecutionReport) :
    (e.untrackOrder id rpt).riskEngine = e.riskEngine := by
  unfold untrackOrder
  split_ifs <;> rfl

@[simp] theorem book_checkRisk (e : MatchingEngine) (order : Order) (s : Symbol) :
    (e.checkRisk order).2.book s = e.book s := by
  unfold checkRisk
  cases e.riskEngine <;> rfl

/-! ## Dispatch -/

/-- The call on a book that a request comes to is all it does to the books. -/
structure Calls (e : MatchingEngine) (op : EngineOp) (c : BookCall) : Prop where
  here : e.book c.symbol = some c.book
  trades : e.tradesOf op = (c.book.step c.op).trades
  books : ∀ s, (e.step op).book s =
    if s = c.symbol then some (c.book.step c.op).book else e.book s

theorem book_eq_some {e : MatchingEngine} {s : Symbol} {b : L3OrderBook} :
    e.book s = some b ↔ ∃ state, e.symbols.lookup s = some state ∧ state.book = b :=
  Option.map_eq_some_iff

theorem book_eq_none {e : MatchingEngine} {s : Symbol} :
    e.book s = none ↔ e.symbols.lookup s = none := Option.map_eq_none_iff

theorem forall_book_iff {e : MatchingEngine} {s : Symbol} {b : L3OrderBook} (hb : e.book s = some b)
    {p : L3OrderBook → Prop} : (∀ b', e.book s = some b' → p b') ↔ p b := by
  simp only [hb, Option.some_inj, forall_eq']

theorem processNewOrder_eq {e : MatchingEngine} {order : Order} {state : SymbolState}
    (hs : e.symbols.lookup order.symbol = some state) (ts publishedAt : Timestamp) :
    e.processNewOrder order ts publishedAt =
      if (e.checkRisk order).1 = .none then
        (e.countOrder.checkRisk order).2.submit state order ts publishedAt
      else (e.countOrder.checkRisk order).2.rejectOrder order (e.checkRisk order).1 ts := by
  have hreason : (e.countOrder.checkRisk order).1 = (e.checkRisk order).1 := by
    unfold checkRisk countOrder
    cases e.riskEngine <;> rfl
  unfold processNewOrder
  simp only [show e.countOrder.symbols.lookup order.symbol = some state from hs, hreason]
  exact ite_not _ _ _

/-- The result of a request, which a call on the risk engine or a new symbol is not. -/
def request (e : MatchingEngine) : EngineOp → Option EngineResult
  | .newOrder order ts publishedAt => some (e.processNewOrder order ts publishedAt)
  | .cancel req ts publishedAt => some (e.processCancel req ts publishedAt)
  | .replace req ts publishedAt => some (e.processReplace req ts publishedAt)
  | _ => none

theorem perform_of_request {e : MatchingEngine} {op : EngineOp} {r : EngineResult}
    (h : e.request op = some r) : e.perform op = (r.engine, r.events) := by
  cases op with
  | newOrder | cancel | replace =>
    obtain rfl := Option.some_inj.mp h
    rfl
  | _ => cases h

/-- When a call publishes market data. -/
def publishTime : EngineOp → Timestamp
  | .newOrder _ _ publishedAt => publishedAt
  | .cancel _ _ publishedAt => publishedAt
  | .replace _ _ publishedAt => publishedAt
  | _ => 0

/-- The engine after the call that a request makes on the book of `symbol`, before it reports. -/
def settle (e : MatchingEngine) (op : EngineOp) (symbol : Symbol) (state : SymbolState)
    (r : BookResult) : MatchingEngine :=
  match op with
  | .newOrder order _ _ =>
    (((e.countOrder.checkRisk order).2.afterCall symbol state r).trackOrder order r.rpt).fillRisk
      order r.rpt
  | .cancel req _ _ => (e.afterCall symbol state r).untrackOrder req.orderId r.rpt
  | _ => e.afterCall symbol state r

/-- The ways to reach a book. -/
inductive Reaches (e : MatchingEngine) : EngineOp → BookCall → Prop
  | newOrder {order : Order} {ts publishedAt : Timestamp} {b : L3OrderBook}
      (hb : e.book order.symbol = some b) (hok : (e.checkRisk order).1 = .none) :
      Reaches e (.newOrder order ts publishedAt) ⟨order.symbol, b, .add order ts⟩
  | cancel {req : CancelRequest} {ts publishedAt : Timestamp} {symbol : Symbol} {b : L3OrderBook}
      (hroute : e.route req = some symbol) (hb : e.book symbol = some b) :
      Reaches e (.cancel req ts publishedAt) ⟨symbol, b, .cancel req.orderId ts⟩
  | replace {req : ReplaceRequest} {ts publishedAt : Timestamp} {b : L3OrderBook}
      (hb : e.book req.symbol = some b) :
      Reaches e (.replace req ts publishedAt) ⟨req.symbol, b, .replace req ts⟩

theorem reaches_of_dispatch {e : MatchingEngine} {op : EngineOp} {c : BookCall}
    (h : e.dispatch op = some c) : e.Reaches op c := by
  cases op with
  | newOrder order ts publishedAt =>
    obtain ⟨b, hb, h⟩ := Option.bind_eq_some_iff.mp h
    split_ifs at h with hok
    obtain rfl := Option.some_inj.mp h
    exact .newOrder hb hok
  | cancel req ts publishedAt =>
    obtain ⟨symbol, hroute, h⟩ := Option.bind_eq_some_iff.mp h
    obtain ⟨b, hb, rfl⟩ := Option.map_eq_some_iff.mp h
    exact .cancel hroute hb
  | replace req ts publishedAt =>
    obtain ⟨b, hb, rfl⟩ := Option.map_eq_some_iff.mp h
    exact .replace hb
  | _ => cases h

theorem Reaches.dispatch_eq {e : MatchingEngine} {op : EngineOp} {c : BookCall}
    (h : e.Reaches op c) : e.dispatch op = some c := by
  cases h with
  | newOrder hb hok => rw [dispatch, hb, Option.bind_some, if_pos hok]
  | cancel hroute hb =>
    rw [dispatch, hroute, Option.bind_some, hb]
    rfl
  | replace hb =>
    rw [dispatch, hb]
    rfl

theorem not_reaches {e : MatchingEngine} {op : EngineOp} (hd : e.dispatch op = none) (c : BookCall) :
    ¬ e.Reaches op c := by
  intro h
  rw [h.dispatch_eq] at hd
  cases hd

theorem Reaches.here {e : MatchingEngine} {op : EngineOp} {c : BookCall} (h : e.Reaches op c) :
    e.book c.symbol = some c.book := by
  cases h with
  | newOrder hb | cancel _ hb | replace hb => exact hb

theorem Reaches.request {e : MatchingEngine} {op : EngineOp} {c : BookCall} (h : e.Reaches op c) :
    ∃ state, e.symbols.lookup c.symbol = some state ∧ state.book = c.book ∧
      e.request op = some ((e.settle op c.symbol state (c.book.step c.op)).report c.symbol
        (c.book.step c.op) (publishTime op)) := by
  obtain ⟨state, hs, hbook⟩ := book_eq_some.mp h.here
  refine ⟨state, hs, hbook, ?_⟩
  cases h with
  | newOrder hb hok =>
    rw [MatchingEngine.request, processNewOrder_eq hs, if_pos hok, ← hbook]
    rfl
  | cancel hroute hb =>
    rw [MatchingEngine.request, processCancel, hroute, ← hbook]
    simp only [hs]
    rfl
  | replace hb =>
    rw [MatchingEngine.request, processReplace, ← hbook]
    simp only [hs]
    rfl

@[simp] theorem book_settle (e : MatchingEngine) (op : EngineOp) (symbol : Symbol)
    (state : SymbolState) (r : BookResult) (s : Symbol) :
    (e.settle op symbol state r).book s = if s = symbol then some r.book else e.book s := by
  cases op with
  | newOrder order ts publishedAt =>
    rw [settle, book_fillRisk, book_trackOrder, book_afterCall, book_checkRisk]
    rfl
  | cancel req ts publishedAt => rw [settle, book_untrackOrder, book_afterCall]
  | _ => exact book_afterCall _ _ _ _ _

/-- **A request that reaches a book.** -/
theorem dispatch_some {e : MatchingEngine} {op : EngineOp} {c : BookCall}
    (h : e.dispatch op = some c) : e.Calls op c := by
  have hreach := reaches_of_dispatch h
  obtain ⟨state, -, -, hr⟩ := hreach.request
  refine ⟨hreach.here, ?_, fun s => ?_⟩
  · rw [tradesOf, perform_of_request hr, trades_report]
  · rw [step, perform_of_request hr, book_report, book_settle]

theorem book_addSymbol (e : MatchingEngine) (symbol s : Symbol) :
    (e.addSymbol symbol).book s =
      if s = symbol ∧ e.book s = none then some (.create symbol) else e.book s := by
  unfold addSymbol
  split_ifs with hmem h h
  · obtain ⟨rfl, hnone⟩ := h
    exact absurd hmem (Finmap.lookup_eq_none.mp (book_eq_none.mp hnone))
  · rfl
  · rw [book_insert, if_pos h.1]
  · rw [book_insert]
    refine if_neg fun hs => h ⟨hs, ?_⟩
    rw [book_eq_none, hs]
    exact Finmap.lookup_eq_none.mpr hmem

/-- The engine answers a request by itself: it reports no fill, and changes counters and rates at
most. -/
structure Refuses (e : MatchingEngine) (r : EngineResult) : Prop where
  symbols : r.engine.symbols = e.symbols
  index : r.engine.orderSymbolIndex = e.orderSymbolIndex
  risk : Option.Rel RiskEngine.Agrees e.riskEngine r.engine.riskEngine
  events : ∀ ev ∈ r.events, ev = .execution r.rpt
  filledQty : r.rpt.filledQty = 0

theorem rel_of_eq {risk risk' : Option RiskEngine} (h : risk' = risk) :
    Option.Rel RiskEngine.Agrees risk risk' := by
  rw [h]
  cases risk
  · exact .none
  · exact .some (.refl _)

theorem refuses_rejectOrder (e e' : MatchingEngine) (hsymbols : e'.symbols = e.symbols)
    (hindex : e'.orderSymbolIndex = e.orderSymbolIndex)
    (hrisk : Option.Rel RiskEngine.Agrees e.riskEngine e'.riskEngine) (order : Order)
    (reason : RejectReason) (ts : Timestamp) : e.Refuses (e'.rejectOrder order reason ts) :=
  ⟨hsymbols, hindex, hrisk, fun _ h => List.mem_singleton.mp h, rfl⟩

theorem refuses_silently (e : MatchingEngine) {rpt : ExecutionReport} (h : rpt.filledQty = 0) :
    e.Refuses ⟨rpt, e, []⟩ :=
  ⟨rfl, rfl, rel_of_eq rfl, fun _ h => absurd h List.not_mem_nil, h⟩

theorem checkRisk_frame (e : MatchingEngine) (order : Order) :
    (e.checkRisk order).2.symbols = e.symbols ∧
      (e.checkRisk order).2.orderSymbolIndex = e.orderSymbolIndex := by
  unfold checkRisk
  cases e.riskEngine <;> exact ⟨rfl, rfl⟩

theorem checkRisk_agrees (e : MatchingEngine) (order : Order) :
    Option.Rel RiskEngine.Agrees e.riskEngine (e.checkRisk order).2.riskEngine := by
  unfold checkRisk
  cases hr : e.riskEngine with
  | none =>
    dsimp only
    rw [hr]
    exact .none
  | some risk => exact .some (risk.checkOrder_agrees order)

/-- **A request that reaches no book** is refused. -/
theorem refuses_of_dispatch_none {e : MatchingEngine} {op : EngineOp} {r : EngineResult}
    (h : e.dispatch op = none) (hr : e.request op = some r) : e.Refuses r := by
  cases op with
  | newOrder order ts publishedAt =>
    obtain rfl := Option.some_inj.mp hr
    cases hs : e.symbols.lookup order.symbol with
    | none =>
      unfold processNewOrder
      simp only [show e.countOrder.symbols.lookup order.symbol = none from hs]
      exact e.refuses_rejectOrder e.countOrder rfl rfl (rel_of_eq rfl) order _ ts
    | some state =>
      have hbad : (e.checkRisk order).1 ≠ .none := by
        intro hok
        rw [dispatch, book, hs] at h
        simp [hok] at h
      rw [processNewOrder_eq hs, if_neg hbad]
      obtain ⟨hsymbols, hindex⟩ := e.countOrder.checkRisk_frame order
      exact e.refuses_rejectOrder _ hsymbols hindex (e.countOrder.checkRisk_agrees order) order _ ts
  | cancel req ts publishedAt =>
    obtain rfl := Option.some_inj.mp hr
    rw [processCancel]
    cases hroute : e.route req with
    | none => exact e.refuses_silently rfl
    | some symbol =>
      cases hs : e.symbols.lookup symbol with
      | none =>
        dsimp only
        rw [hs]
        exact e.refuses_silently rfl
      | some state => simp [dispatch, hroute, book, hs] at h
  | replace req ts publishedAt =>
    obtain rfl := Option.some_inj.mp hr
    rw [processReplace]
    cases hs : e.symbols.lookup req.symbol with
    | none => exact e.refuses_silently rfl
    | some state => simp [dispatch, book, hs] at h
  | _ => cases hr

theorem dispatch_none {e : MatchingEngine} {op : EngineOp} (h : e.dispatch op = none) :
    e.tradesOf op = [] ∧ ∀ s, (e.step op).book s = e.book s ∨
      e.book s = none ∧ (e.step op).book s = some (.create s) := by
  cases hr : e.request op with
  | some r =>
    have hrefuses := refuses_of_dispatch_none h hr
    rw [tradesOf, step, perform_of_request hr]
    refine ⟨List.filterMap_eq_nil_iff.mpr fun ev hev => ?_, fun s => Or.inl ?_⟩
    · rw [hrefuses.events ev hev]
      rfl
    · rw [book, hrefuses.symbols, book]
  | none =>
    cases op with
    | addSymbol symbol =>
      refine ⟨rfl, ?_⟩
      intro s
      rw [step, perform]
      dsimp only
      rw [book_addSymbol]
      split_ifs with hs
      · exact Or.inr ⟨hs.2, by rw [hs.1]⟩
      · exact Or.inl rfl
    | newOrder | cancel | replace => cases hr
    | _ => exact ⟨rfl, fun s => Or.inl rfl⟩

/-! ## The risk engine of a run -/

theorem checkRisk_attached {e : MatchingEngine} {risk : RiskEngine} (hr : e.riskEngine = some risk)
    (order : Order) :
    e.checkRisk order =
      ((risk.checkOrder order).1, { e with riskEngine := some (risk.checkOrder order).2 }) := by
  rw [checkRisk, hr]

/-- What a call adds to a position in the risk engine: the filled quantity reported for a new
order, to the position of its trader. -/
def riskFill (e : MatchingEngine) (op : EngineOp) (t : TraderId) (s : Symbol) : Int :=
  match op, e.dispatch op with
  | .newOrder order ts _, some c =>
    if t = order.traderId ∧ s = order.symbol ∧ 0 < (c.book.addOrder order ts).rpt.filledQty then
      order.side.signed (c.book.addOrder order ts).rpt.filledQty
    else 0
  | _, _ => 0

theorem fillRisk_position {e : MatchingEngine} {risk : RiskEngine} (hr : e.riskEngine = some risk)
    (order : Order) (rpt : ExecutionReport) :
    ∃ risk', (e.fillRisk order rpt).riskEngine = some risk' ∧ ∀ t s,
      risk'.getPosition t s = risk.getPosition t s +
        if t = order.traderId ∧ s = order.symbol ∧ 0 < rpt.filledQty then
          order.side.signed rpt.filledQty
        else 0 := by
  unfold fillRisk
  by_cases hf : 0 < rpt.filledQty
  · rw [if_pos hf]
    refine ⟨_, congrArg (Option.map _) hr, fun t s => ?_⟩
    rw [RiskEngine.getPosition_onFill]
    by_cases hts : t = order.traderId ∧ s = order.symbol
    · rw [if_pos hts, if_pos ⟨hts.1, hts.2, hf⟩, hts.1, hts.2]
    · rw [if_neg hts, if_neg fun h => hts ⟨h.1, h.2.1⟩, Int.add_zero]
  · rw [if_neg hf]
    exact ⟨risk, hr, fun t s => by rw [if_neg fun h => hf h.2.2, Int.add_zero]⟩

theorem riskFill_of_dispatch_none {e : MatchingEngine} {op : EngineOp} (h : e.dispatch op = none)
    (t : TraderId) (s : Symbol) : e.riskFill op t s = 0 := by
  cases op <;> simp [riskFill, h]

theorem step_position {e : MatchingEngine} {risk : RiskEngine} (hr : e.riskEngine = some risk)
    (op : EngineOp) : ∃ risk', (e.step op).riskEngine = some risk' ∧
      ∀ t s, risk'.getPosition t s = risk.getPosition t s + e.riskFill op t s := by
  cases hd : e.dispatch op with
  | none =>
    simp only [riskFill_of_dispatch_none hd, Int.add_zero]
    cases hreq : e.request op with
    | some r =>
      have hrisk := (refuses_of_dispatch_none hd hreq).risk
      rw [hr] at hrisk
      rw [step, perform_of_request hreq]
      dsimp only
      cases hr' : r.engine.riskEngine with
      | none =>
        rw [hr'] at hrisk
        cases hrisk
      | some risk' =>
        rw [hr'] at hrisk
        cases hrisk with
        | some hagrees => exact ⟨risk', rfl, hagrees.position⟩
    | none =>
      cases op with
      | addSymbol symbol =>
        refine ⟨risk, ?_, fun _ _ => rfl⟩
        rw [step, perform, addSymbol]
        split_ifs <;> exact hr
      | newOrder | cancel | replace => cases hreq
      | killAll => exact ⟨_, congrArg (Option.map _) hr, fun _ _ => rfl⟩
      | _ => exact ⟨_, congrArg (Option.map _) hr, fun _ _ => by simp⟩
  | some c =>
    have hreach := reaches_of_dispatch hd
    obtain ⟨state, -, -, hreq⟩ := hreach.request
    rw [step, perform_of_request hreq]
    dsimp only
    rw [riskEngine_report]
    cases hreach with
    | @newOrder order ts _ b hb hok =>
      dsimp only [riskFill]
      rw [hd, settle, checkRisk_attached (show e.countOrder.riskEngine = some risk from hr)]
      set e' : MatchingEngine := { e.countOrder with riskEngine := some (risk.checkOrder order).2 }
      set r := b.addOrder order ts
      have hattached : ((e'.afterCall order.symbol state r).trackOrder order r.rpt).riskEngine =
          some (risk.checkOrder order).2 := by
        rw [riskEngine_trackOrder, riskEngine_afterCall]
      obtain ⟨risk', hr', hpos⟩ := fillRisk_position hattached order r.rpt
      exact ⟨risk', hr', fun t s => by rw [hpos, (risk.checkOrder_agrees order).position]⟩
    | cancel hroute hb =>
      refine ⟨risk, ?_, fun _ _ => (Int.add_zero _).symm⟩
      rw [settle, riskEngine_untrackOrder, riskEngine_afterCall, hr]
    | replace hb =>
      exact ⟨risk, (riskEngine_afterCall _ _ _ _).trans hr, fun _ _ => (Int.add_zero _).symm⟩

/-! ## The invariant -/

/-- Every book is one that calls on it lead to from the empty book of its symbol. -/
def BooksReachable (e : MatchingEngine) : Prop :=
  ∀ s b, e.book s = some b → ∃ ops, b = (L3OrderBook.create s).run ops

theorem BooksReachable.repInv {e : MatchingEngine} (h : e.BooksReachable) {s : Symbol}
    {b : L3OrderBook} (hb : e.book s = some b) : b.RepInv := by
  obtain ⟨ops, hops⟩ := h s b hb
  exact L3OrderBook.Reachable.repInv ⟨s, ops, hops⟩

theorem BooksReachable.symbol {e : MatchingEngine} (h : e.BooksReachable) {s : Symbol}
    {b : L3OrderBook} (hb : e.book s = some b) : b.symbol = s := by
  obtain ⟨ops, rfl⟩ := h s b hb
  exact L3OrderBook.run_symbol s ops

theorem BooksReachable.step {e : MatchingEngine} (h : e.BooksReachable) (op : EngineOp) :
    (e.step op).BooksReachable := by
  intro s b hb
  cases hd : e.dispatch op with
  | none =>
    rcases (dispatch_none hd).2 s with hsame | ⟨-, hnew⟩
    · exact h s b (hsame ▸ hb)
    · exact ⟨[], Option.some_inj.mp (hb.symm.trans hnew)⟩
  | some c =>
    have hc := dispatch_some hd
    rw [hc.books] at hb
    split_ifs at hb with hs
    · obtain ⟨ops, hops⟩ := h c.symbol c.book hc.here
      exact ⟨ops ++ [c.op], by rw [hs, L3OrderBook.run_concat, ← hops, Option.some_inj.mp hb]⟩
    · exact h s b hb

/-- A risk engine is attached, and every book is one that calls on it lead to from the empty book of
its symbol. -/
structure Inv (e : MatchingEngine) : Prop where
  attached : ∃ risk, e.riskEngine = some risk
  books : ∀ s b, e.book s = some b → ∃ ops, b = (L3OrderBook.create s).run ops

theorem inv_start (risk : RiskEngine) : (start risk).Inv where
  attached := ⟨risk, rfl⟩
  books _ _ h := absurd h nofun

theorem Inv.repInv {e : MatchingEngine} (h : e.Inv) {s : Symbol} {b : L3OrderBook}
    (hb : e.book s = some b) : b.RepInv := BooksReachable.repInv h.books hb

theorem Inv.step {e : MatchingEngine} (h : e.Inv) (op : EngineOp) : (e.step op).Inv := by
  obtain ⟨risk, hr⟩ := h.attached
  exact ⟨(step_position hr op).imp fun _ h => h.1, BooksReachable.step h.books op⟩

/-- **Every book of an engine is a reachable book.** -/
theorem inv_run (risk : RiskEngine) (ops : List EngineOp) : (ops.foldl step (start risk)).Inv :=
  Run.invariant (fun _ op h => h.step op) ops (inv_start risk)

end MatchingEngine

end HftSdk
