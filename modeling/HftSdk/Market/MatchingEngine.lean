import HftSdk.Orderbook.Feeds
import HftSdk.Risk.RiskEngine

/-!
# The matching engine

`market/matching_engine.hpp` and `.cpp`: one book with its feeds for each symbol, the index that
routes a cancel without a symbol, an optional risk engine and four counters. Callbacks are
`EngineEvent`s in the order in which they are invoked; a callback that is not registered is a
receiver that ignores them. The clock is read twice in a request, at its start and to publish, and
both readings are arguments. The risk engine is held by pointer and its kill switch is thrown from
outside, so that these calls are part of a run (`EngineOp`). `dispatch` says which call on which book
a request comes to, if any.
-/

namespace HftSdk

/-! ## Data -/

structure SymbolState where
  book : L3OrderBook
  l2 : L2Aggregator := {}
  l1 : L1Feed := {}

structure MatchingEngine where
  symbols : Finmap fun _ : Symbol => SymbolState := ∅
  orderSymbolIndex : Finmap fun _ : OrderId => Symbol := ∅
  riskEngine : Option RiskEngine := none
  ordersProcessed : Nat := 0
  tradesGenerated : Nat := 0
  cancelsProcessed : Nat := 0
  rejects : Nat := 0

inductive EngineEvent
  | execution (rpt : ExecutionReport)
  | trade (t : Trade)
  | l1 (tob : TopOfBook)
  | l2 (depth : DepthSnapshot)
deriving DecidableEq

/-- What a request returns, the engine it leaves and the callbacks it made. -/
structure EngineResult where
  rpt : ExecutionReport
  engine : MatchingEngine
  events : List EngineEvent := []

namespace MatchingEngine

/-! ## Symbols and books -/

def addSymbol (e : MatchingEngine) (symbol : Symbol) : MatchingEngine :=
  if symbol ∈ e.symbols then e
  else { e with symbols := e.symbols.insert symbol { book := .create symbol } }

/-- `get_book`. -/
def book (e : MatchingEngine) (symbol : Symbol) : Option L3OrderBook :=
  (e.symbols.lookup symbol).map SymbolState.book

/-- The callbacks that `add_symbol` registers with a book, on the engine's side. -/
def onBookEvent (e : MatchingEngine) : BookEvent → MatchingEngine
  | .trade trade =>
    let e := { e with tradesGenerated := e.tradesGenerated + 1 }
    match e.symbols.lookup trade.symbol with
    | none => e
    | some state =>
      { e with
        symbols := e.symbols.insert trade.symbol
          { state with l1 := state.l1.recordTrade trade.price trade.qty } }
  | .topOfBook _ => e

/-- The same callbacks as they are passed on. -/
def forward : BookEvent → EngineEvent
  | .trade trade => .trade trade
  | .topOfBook tob => .l1 tob

/-- The engine after a call on the book of `symbol`. The callbacks do not read the book. -/
def afterCall (e : MatchingEngine) (symbol : Symbol) (state : SymbolState) (r : BookResult) :
    MatchingEngine :=
  r.events.foldl onBookEvent
    { e with symbols := e.symbols.insert symbol { state with book := r.book } }

def publishMarketData (e : MatchingEngine) (symbol : Symbol) (ts : Timestamp) :
    MatchingEngine × List EngineEvent :=
  match e.symbols.lookup symbol with
  | none => (e, [])
  | some state =>
    ({ e with symbols := e.symbols.insert symbol { state with l1 := state.l1.update state.book ts } },
      [.l2 (state.l2.snapshot state.book ts)])

/-- The end of a request that reached the book of `symbol`: report, then publish. -/
def report (e : MatchingEngine) (symbol : Symbol) (r : BookResult) (publishedAt : Timestamp) :
    EngineResult :=
  let (e, marketData) := e.publishMarketData symbol publishedAt
  ⟨r.rpt, e, r.events.map forward ++ .execution r.rpt :: marketData⟩

/-! ## New orders -/

def countOrder (e : MatchingEngine) : MatchingEngine :=
  { e with ordersProcessed := e.ordersProcessed + 1 }

def rejectOrder (e : MatchingEngine) (order : Order) (reason : RejectReason) (ts : Timestamp) :
    EngineResult :=
  let rpt : ExecutionReport :=
    { orderId := order.id, traderId := order.traderId, symbol := order.symbol, status := .rejected
      rejectReason := reason, transactTime := ts }
  ⟨rpt, { e with rejects := e.rejects + 1 }, [.execution rpt]⟩

/-- The risk checks; without a risk engine every order passes. -/
def checkRisk (e : MatchingEngine) (order : Order) : RejectReason × MatchingEngine :=
  match e.riskEngine with
  | none => (.none, e)
  | some risk =>
    let (reason, risk) := risk.checkOrder order
    (reason, { e with riskEngine := some risk })

/-- Track the order-to-symbol mapping for cancel routing. -/
def trackOrder (e : MatchingEngine) (order : Order) (rpt : ExecutionReport) : MatchingEngine :=
  if rpt.status ≠ .rejected ∧ rpt.status ≠ .filled then
    { e with orderSymbolIndex := e.orderSymbolIndex.insert order.id order.symbol }
  else e

/-- Update the risk engine with the execution. -/
def fillRisk (e : MatchingEngine) (order : Order) (rpt : ExecutionReport) : MatchingEngine :=
  if 0 < rpt.filledQty then
    { e with
      riskEngine := e.riskEngine.map fun risk =>
        risk.onFill order.traderId order.symbol order.side rpt.filledQty rpt.lastPrice }
  else e

/-- Submit an order that passed the checks to its book. -/
def submit (e : MatchingEngine) (state : SymbolState) (order : Order) (ts publishedAt : Timestamp) :
    EngineResult :=
  let r := state.book.addOrder order ts
  (((e.afterCall order.symbol state r).trackOrder order r.rpt).fillRisk order r.rpt).report
    order.symbol r publishedAt

def processNewOrder (e : MatchingEngine) (order : Order) (ts publishedAt : Timestamp) :
    EngineResult :=
  let e := e.countOrder
  match e.symbols.lookup order.symbol with
  | none => e.rejectOrder order .unknownSymbol ts
  | some state =>
    let (reason, e) := e.checkRisk order
    if reason ≠ .none then e.rejectOrder order reason ts else e.submit state order ts publishedAt

/-! ## Cancels and replaces -/

/-- The symbol a cancel goes to: the one it names, or the one its order was tracked under. -/
def route (e : MatchingEngine) (cancel : CancelRequest) : Option Symbol :=
  if cancel.symbol = {} then e.orderSymbolIndex.lookup cancel.orderId else some cancel.symbol

/-- Count a successful cancel and forget the order. -/
def untrackOrder (e : MatchingEngine) (id : OrderId) (rpt : ExecutionReport) : MatchingEngine :=
  if rpt.status = .canceled then
    { e with
      cancelsProcessed := e.cancelsProcessed + 1
      orderSymbolIndex := e.orderSymbolIndex.erase id }
  else e

def processCancel (e : MatchingEngine) (cancel : CancelRequest) (ts publishedAt : Timestamp) :
    EngineResult :=
  match e.route cancel with
  | none => ⟨{ orderId := cancel.orderId, status := .rejected, transactTime := ts }, e, []⟩
  | some symbol =>
    match e.symbols.lookup symbol with
    | none =>
      ⟨{ orderId := cancel.orderId, status := .rejected, rejectReason := .unknownSymbol
         transactTime := ts }, e, []⟩
    | some state =>
      let r := state.book.cancelOrder cancel.orderId ts
      ((e.afterCall symbol state r).untrackOrder cancel.orderId r.rpt).report symbol r publishedAt

def processReplace (e : MatchingEngine) (replace : ReplaceRequest) (ts publishedAt : Timestamp) :
    EngineResult :=
  match e.symbols.lookup replace.symbol with
  | none =>
    ⟨{ orderId := replace.orderId, status := .rejected, rejectReason := .unknownSymbol
       transactTime := ts }, e, []⟩
  | some state =>
    let r := state.book.replaceOrder replace ts
    (e.afterCall replace.symbol state r).report replace.symbol r publishedAt

/-! ## Market data queries -/

def getTopOfBook (e : MatchingEngine) (symbol : Symbol) : TopOfBook :=
  match e.symbols.lookup symbol with
  | none => {}
  | some state => state.l1.lastTob

def getDepth (e : MatchingEngine) (symbol : Symbol) (now : Timestamp) : DepthSnapshot :=
  match e.symbols.lookup symbol with
  | none => {}
  | some state => state.l2.snapshot state.book now

end MatchingEngine

/-! ## Runs -/

/-- A call on the engine or on its risk engine. -/
inductive EngineOp
  | addSymbol (symbol : Symbol)
  | newOrder (order : Order) (ts publishedAt : Timestamp)
  | cancel (req : CancelRequest) (ts publishedAt : Timestamp)
  | replace (req : ReplaceRequest) (ts publishedAt : Timestamp)
  | killTrader (traderId : TraderId)
  | killAll
  | unkillTrader (traderId : TraderId)
  | unkillAll

/-- The trade of a trade callback. -/
def EngineEvent.trade? : EngineEvent → Option Trade
  | .trade t => some t
  | _ => none

/-- A call that a request makes on a book. -/
structure BookCall where
  symbol : Symbol
  book : L3OrderBook
  op : BookOp

namespace MatchingEngine

def onRisk (e : MatchingEngine) (f : RiskEngine → RiskEngine) : MatchingEngine :=
  { e with riskEngine := e.riskEngine.map f }

/-- The engine after a call and the callbacks made in it. -/
def perform (e : MatchingEngine) : EngineOp → MatchingEngine × List EngineEvent
  | .addSymbol symbol => (e.addSymbol symbol, [])
  | .newOrder order ts publishedAt =>
    let r := e.processNewOrder order ts publishedAt
    (r.engine, r.events)
  | .cancel req ts publishedAt =>
    let r := e.processCancel req ts publishedAt
    (r.engine, r.events)
  | .replace req ts publishedAt =>
    let r := e.processReplace req ts publishedAt
    (r.engine, r.events)
  | .killTrader traderId => (e.onRisk fun risk => risk.killTrader traderId, [])
  | .killAll => (e.onRisk RiskEngine.killAll, [])
  | .unkillTrader traderId => (e.onRisk fun risk => risk.unkillTrader traderId, [])
  | .unkillAll => (e.onRisk RiskEngine.unkillAll, [])

def step (e : MatchingEngine) (op : EngineOp) : MatchingEngine := (e.perform op).1

/-- The trades a call passes to the trade callback. -/
def tradesOf (e : MatchingEngine) (op : EngineOp) : List Trade :=
  (e.perform op).2.filterMap EngineEvent.trade?

/-- An engine without symbols, with a risk engine attached. -/
def start (risk : RiskEngine) : MatchingEngine := { riskEngine := some risk }

/-- The call on a book that a request comes to: none for an unknown symbol, an order that the risk
check rejects, or a cancel that cannot be routed. -/
def dispatch (e : MatchingEngine) : EngineOp → Option BookCall
  | .newOrder order ts _ =>
    (e.book order.symbol).bind fun book =>
      if (e.checkRisk order).1 = .none then some ⟨order.symbol, book, .add order ts⟩ else none
  | .cancel req ts _ =>
    (e.route req).bind fun symbol =>
      (e.book symbol).map fun book => ⟨symbol, book, .cancel req.orderId ts⟩
  | .replace req ts _ => (e.book req.symbol).map fun book => ⟨req.symbol, book, .replace req ts⟩
  | _ => none

end MatchingEngine

end HftSdk
