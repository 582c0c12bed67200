import HftSdk.Common.Types
import HftSdk.Lib.SortedMap
import Mathlib.Data.Finmap

/-!
# The L3 order book

`orderbook/l3_order_book.hpp` and `.cpp`. The two `std::map`s of queues are `SortedMap`s under the
side's comparator, a queue is a linked list whose nodes have addresses, and an iterator in
`orderIndex` is such an address; `nextAddr` stands for the allocator of list nodes. Callbacks are
`BookEvent`s in the order in which they are invoked; a callback that is not registered is a receiver
that ignores them.

`BookCore` is everything but the two maps: it is what the matching loops change besides the side
they walk.
-/

namespace HftSdk

/-! ## Data -/

/-- Individual order entry in the L3 book. -/
structure L3Order where
  id : OrderId := INVALID_ORDER_ID
  traderId : TraderId := 0
  side : Side := .buy
  price : Int := 0
  visibleQty : Int := 0
  hiddenQty : Int := 0
  filledQty : Int := 0
  entryTime : Timestamp := 0
  queuePos : UInt32 := 0
  isIceberg : Bool := false
  clOrdId : CharBuf 20 := Vector.replicate 20 0
deriving DecidableEq

/-- What is still to trade, displayed or not. -/
def L3Order.openQty (o : L3Order) : Int := o.visibleQty + o.hiddenQty

abbrev OrderQueue := NodeList L3Order

/-- The comparator of a side's price levels: `std::greater` for bids, `std::less` for asks. -/
def Side.better : Side → Int → Int → Prop
  | .buy, p, q => q < p
  | .sell, p, q => p < q

instance (s : Side) : DecidableRel s.better := fun p q => by
  cases s <;> unfold Side.better <;> infer_instance

instance (s : Side) : IsStrictTotalOrder Int s.better where
  trichotomous p q h h' := by cases s <;> simp only [Side.better] at h h' <;> omega
  irrefl p h := by cases s <;> exact lt_irrefl p h
  trans p q r h h' := by cases s <;> simp only [Side.better] at h h' ⊢ <;> omega

instance (s : Side) : IsTrans Int s.better := inferInstance

abbrev PriceLevels (s : Side) := SortedMap s.better OrderQueue
abbrev BidPriceLevels := PriceLevels .buy
abbrev AskPriceLevels := PriceLevels .sell

/-- Where an order rests. -/
structure OrderLocation where
  side : Side
  price : Int
  it : Nat
deriving DecidableEq

structure BookCore where
  symbol : Symbol
  orderIndex : Finmap fun _ : OrderId => OrderLocation := ∅
  tradeCount : Nat := 0
  nextTradeId : Nat := 1
  totalVolume : Int := 0
  lastTradePrice : Int := 0
  bidOrderCount : Nat := 0
  askOrderCount : Nat := 0
  nextAddr : Nat := 0

structure L3OrderBook extends BookCore where
  bids : BidPriceLevels := ∅
  asks : AskPriceLevels := ∅

/-- `L3OrderBook(symbol)`. -/
def L3OrderBook.create (symbol : Symbol) : L3OrderBook := { symbol }

structure MatchResult where
  trades : List Trade := []
  remainingQty : Int := 0
  fullyFilled : Bool := false

inductive BookEvent
  | trade (t : Trade)
  | topOfBook (tob : TopOfBook)
deriving DecidableEq

/-- What an order operation returns, the book it leaves and the callbacks it made. -/
structure BookResult where
  rpt : ExecutionReport
  book : L3OrderBook
  events : List BookEvent := []

/-- The trade of a trade callback. -/
def BookEvent.trade? : BookEvent → Option Trade
  | .trade t => some t
  | .topOfBook _ => none

/-- The trades among the callbacks. -/
def BookResult.trades (r : BookResult) : List Trade := r.events.filterMap BookEvent.trade?

/-! ## Queries -/

/-- The displayed quantity and the number of orders of a level. -/
def bookLevel (e : Int × OrderQueue) : BookLevel where
  price := e.1
  qty := (e.2.map fun n => n.val.visibleQty).sum
  orderCount := e.2.length

namespace L3OrderBook

def bestBid (b : L3OrderBook) : Option BookLevel := b.bids.entries.head?.map bookLevel

def bestAsk (b : L3OrderBook) : Option BookLevel := b.asks.entries.head?.map bookLevel

def topOfBook (b : L3OrderBook) (ts : Timestamp) : TopOfBook :=
  match b.bestBid, b.bestAsk with
  | some bb, some ba =>
    let mid := (bb.price + ba.price).tdiv 2
    let totalQty := bb.qty + ba.qty
    { symbol := b.symbol, timestamp := ts, valid := true, bestBid := bb, bestAsk := ba
      midPrice := mid
      spread := ba.price - bb.price
      microPrice :=
        if 0 < totalQty then (bb.price * ba.qty + ba.price * bb.qty).tdiv totalQty else mid }
  | some bb, none =>
    { symbol := b.symbol, timestamp := ts, valid := true, bestBid := bb, midPrice := bb.price }
  | none, some ba =>
    { symbol := b.symbol, timestamp := ts, valid := true, bestAsk := ba, midPrice := ba.price }
  | none, none => { symbol := b.symbol, timestamp := ts }

def bidDepth (b : L3OrderBook) (levels : Nat) : List BookLevel :=
  (b.bids.entries.take levels).map bookLevel

def askDepth (b : L3OrderBook) (levels : Nat) : List BookLevel :=
  (b.asks.entries.take levels).map bookLevel

/-- Every list node of the book. -/
def nodes (b : L3OrderBook) : OrderQueue :=
  b.bids.entries.flatMap Prod.snd ++ b.asks.entries.flatMap Prod.snd

/-- `*it`. A dangling iterator would read a default order; `RepInv.deref_index` shows that the ones
in `orderIndex` never dangle. -/
def deref (b : L3OrderBook) (it : Nat) : L3Order := (ListNode.deref it b.nodes).getD {}

def publishTob (b : L3OrderBook) (ts : Timestamp) : BookEvent := .topOfBook (b.topOfBook ts)

/-- The queue at a price, empty when there is no such level. -/
def queueAt (b : L3OrderBook) (side : Side) (price : Int) : OrderQueue :=
  match side with
  | .buy => (b.bids.lookup price).getD []
  | .sell => (b.asks.lookup price).getD []

def ordersAtPrice (b : L3OrderBook) (side : Side) (price : Int) : List L3Order :=
  (b.queueAt side price).map ListNode.val

/-- `queue_position`; the largest value for an id that does not rest. -/
def queuePosition (b : L3OrderBook) (id : OrderId) : UInt32 :=
  match b.orderIndex.lookup id with
  | none => .ofNat (2 ^ 32 - 1)
  | some loc => (b.deref loc.it).queuePos

/-- The orders before `id` in its queue: what the loop of `quantity_ahead` walks over. -/
def ordersAhead (b : L3OrderBook) (id : OrderId) : List L3Order :=
  match b.orderIndex.lookup id with
  | none => []
  | some loc => (b.ordersAtPrice loc.side loc.price).takeWhile fun o => o.id ≠ id

def quantityAhead (b : L3OrderBook) (id : OrderId) : Int :=
  ((b.ordersAhead id).map L3Order.visibleQty).sum

end L3OrderBook

/-! ## Matching -/

/-- The price check of the matching loop and of the fill-or-kill scan: a limit order does not trade
at a level beyond its limit. -/
def beyondLimit (order : Order) (levelPrice : Int) : Bool :=
  decide (order.type = .limit) &&
    match order.side with
    | .buy => order.price < levelPrice
    | .sell => levelPrice < order.price

/-- Count a fill and take it from the displayed quantity before the hidden one. -/
def L3Order.reduce (o : L3Order) (matchQty : Int) : L3Order :=
  if matchQty ≤ o.visibleQty then
    { o with filledQty := o.filledQty + matchQty, visibleQty := o.visibleQty - matchQty }
  else
    { o with
      filledQty := o.filledQty + matchQty
      visibleQty := 0
      hiddenQty := o.hiddenQty - (matchQty - o.visibleQty) }

/-- Replenish an iceberg whose display is used up. -/
def L3Order.replenish (o : L3Order) : L3Order :=
  if o.visibleQty = 0 ∧ 0 < o.hiddenQty ∧ o.isIceberg then
    { o with visibleQty := min o.hiddenQty 100, hiddenQty := o.hiddenQty - min o.hiddenQty 100 }
  else o

/-- One match against a resting order. -/
def L3Order.fill (o : L3Order) (matchQty : Int) : L3Order := (o.reduce matchQty).replenish

namespace BookCore

def tradeWith (c : BookCore) (incoming : Order) (levelPrice : Int) (resting : L3Order)
    (matchQty : Int) (ts : Timestamp) : Trade where
  tradeId := c.nextTradeId
  restingId := resting.id
  incomingId := incoming.id
  restingTrader := resting.traderId
  incomingTrader := incoming.traderId
  symbol := c.symbol
  aggressorSide := incoming.side
  price := levelPrice
  qty := matchQty
  matchTimestampNs := ts

/-- The counters after one trade. -/
def recordTrade (c : BookCore) (levelPrice : Int) (matchQty : Int) : BookCore :=
  { c with
    nextTradeId := c.nextTradeId + 1
    tradeCount := c.tradeCount + 1
    totalVolume := c.totalVolume + matchQty
    lastTradePrice := levelPrice }

/-- Unindex a fully filled order and take it off its side's count. -/
def dropFilled (c : BookCore) (resting : L3Order) : BookCore :=
  match resting.side with
  | .buy =>
    { c with orderIndex := c.orderIndex.erase resting.id, bidOrderCount := c.bidOrderCount - 1 }
  | .sell =>
    { c with orderIndex := c.orderIndex.erase resting.id, askOrderCount := c.askOrderCount - 1 }

end BookCore

/-- Where a matching loop ends: what is left of the list it walked, the rest of the book, the
incoming order's remaining quantity and the trades made. -/
structure Matched (ρ : Type) where
  left : ρ
  core : BookCore
  remaining : Int
  trades : List Trade

/-- The inner loop of `match_against`: one price level, front of the queue first. -/
def matchQueue (incoming : Order) (ts : Timestamp) (levelPrice : Int) :
    OrderQueue → BookCore → Int → Matched OrderQueue
  | [], c, remaining => ⟨[], c, remaining, []⟩
  | n :: queue, c, remaining =>
    if 0 < remaining then
      let matchQty := min remaining n.val.openQty
      let trade := c.tradeWith incoming levelPrice n.val matchQty ts
      let c := c.recordTrade levelPrice matchQty
      let resting := n.val.fill matchQty
      if resting.openQty = 0 then
        let r := matchQueue incoming ts levelPrice queue (c.dropFilled resting) (remaining - matchQty)
        { r with trades := trade :: r.trades }
      else
        let r := matchQueue incoming ts levelPrice queue c (remaining - matchQty)
        { r with left := ⟨n.addr, resting⟩ :: r.left, trades := trade :: r.trades }
    else ⟨n :: queue, c, remaining, []⟩

/-- The outer loop of `match_against`: best level first, an emptied level is erased. -/
def matchLevels (incoming : Order) (ts : Timestamp) :
    List (Int × OrderQueue) → BookCore → Int → Matched (List (Int × OrderQueue))
  | [], c, remaining => ⟨[], c, remaining, []⟩
  | (levelPrice, queue) :: levels, c, remaining =>
    if 0 < remaining then
      if beyondLimit incoming levelPrice then ⟨(levelPrice, queue) :: levels, c, remaining, []⟩
      else
        let q := matchQueue incoming ts levelPrice queue c remaining
        let r := matchLevels incoming ts levels q.core q.remaining
        { r with
          left := if q.left.isEmpty then r.left else (levelPrice, q.left) :: r.left
          trades := q.trades ++ r.trades }
    else ⟨(levelPrice, queue) :: levels, c, remaining, []⟩

theorem matchLevels_keys (incoming : Order) (ts : Timestamp) (levels : List (Int × OrderQueue))
    (c : BookCore) (remaining : Int) :
    ((matchLevels incoming ts levels c remaining).left.map Prod.fst).Sublist
      (levels.map Prod.fst) := by
  induction levels generalizing c remaining with
  | nil => exact List.Sublist.refl _
  | cons e levels ih =>
    obtain ⟨p, queue⟩ := e
    rw [matchLevels]
    split_ifs
    · exact List.Sublist.refl _
    · simp only
      split_ifs
      · exact (ih _ _).cons p
      · exact (ih _ _).cons_cons p
    · exact List.Sublist.refl _

/-- `match_against`, for either map type. -/
def matchAgainst {lt : Int → Int → Prop} (levels : SortedMap lt OrderQueue) (incoming : Order)
    (c : BookCore) (remaining : Int) (ts : Timestamp) : Matched (SortedMap lt OrderQueue) :=
  let r := matchLevels incoming ts levels.entries c remaining
  { r with left := levels.restrict r.left (matchLevels_keys incoming ts levels.entries c remaining) }

/-- The liquidity scan of the fill-or-kill check. -/
def fokAvailable (order : Order) : List (Int × OrderQueue) → Int → Int
  | [], available => available
  | (price, queue) :: levels, available =>
    if beyondLimit order price then available
    else
      let available := available + (queue.map fun n => n.val.openQty).sum
      if order.quantity ≤ available then available else fokAvailable order levels available

namespace L3OrderBook

def matchIncoming (b : L3OrderBook) (order : Order) (ts : Timestamp) : MatchResult × L3OrderBook :=
  let available :=
    match order.side with
    | .buy => fokAvailable order b.asks.entries 0
    | .sell => fokAvailable order b.bids.entries 0
  if order.tif = .fok ∧ available < order.quantity then ({ remainingQty := order.quantity }, b)
  else
    match order.side with
    | .buy =>
      let r := matchAgainst b.asks order b.toBookCore order.quantity ts
      (⟨r.trades, r.remaining, r.remaining = 0⟩, { b with toBookCore := r.core, asks := r.left })
    | .sell =>
      let r := matchAgainst b.bids order b.toBookCore order.quantity ts
      (⟨r.trades, r.remaining, r.remaining = 0⟩, { b with toBookCore := r.core, bids := r.left })

/-! ## Order operations -/

def addRestingOrder (b : L3OrderBook) (order : Order) (remaining : Int) (ts : Timestamp) :
    L3OrderBook :=
  let l3 : L3Order :=
    { id := order.id, traderId := order.traderId, side := order.side, price := order.price
      visibleQty := remaining, hiddenQty := 0, filledQty := order.quantity - remaining
      entryTime := ts, isIceberg := false, clOrdId := order.clOrdId }
  let it := b.nextAddr
  match order.side with
  | .buy =>
    { b with
      bids := b.bids.push order.price fun pos => ⟨it, { l3 with queuePos := .ofNat pos }⟩
      orderIndex := b.orderIndex.insert order.id ⟨.buy, order.price, it⟩
      bidOrderCount := b.bidOrderCount + 1
      nextAddr := it + 1 }
  | .sell =>
    { b with
      asks := b.asks.push order.price fun pos => ⟨it, { l3 with queuePos := .ofNat pos }⟩
      orderIndex := b.orderIndex.insert order.id ⟨.sell, order.price, it⟩
      askOrderCount := b.askOrderCount + 1
      nextAddr := it + 1 }

end L3OrderBook

/-- The orders of a queue numbered from 0. -/
def numberQueue (queue : OrderQueue) : OrderQueue :=
  queue.mapIdx fun pos n => ⟨n.addr, { n.val with queuePos := .ofNat pos }⟩

/-- `update_queue_positions` on one side. -/
def updateQueuePositions {lt : Int → Int → Prop} (levels : SortedMap lt OrderQueue)
    (price : Int) : SortedMap lt OrderQueue :=
  match levels.lookup price with
  | none => levels
  | some queue => levels.assign price (numberQueue queue)

/-- Unlink a node from the level at `price`: an emptied level is erased, any other renumbered. -/
def eraseNode {lt : Int → Int → Prop} (levels : SortedMap lt OrderQueue) (price : Int)
    (it : Nat) : SortedMap lt OrderQueue :=
  match levels.lookup price with
  | none => levels
  | some queue =>
    let queue := ListNode.unlink it queue
    if queue.isEmpty then levels.erase price
    else updateQueuePositions (levels.assign price queue) price

namespace L3OrderBook

/-- The report fields that `add_order` copies from the order. -/
def addReport (order : Order) (ts : Timestamp) : ExecutionReport where
  orderId := order.id
  traderId := order.traderId
  symbol := order.symbol
  side := order.side
  type := order.type
  price := order.price
  orderQty := order.quantity
  transactTime := ts
  clOrdId := order.clOrdId

/-- The status cascade of `add_order` after matching. -/
def matchedReport (rpt : ExecutionReport) (order : Order) (result : MatchResult) : ExecutionReport :=
  let filled := order.quantity - result.remainingQty
  let rpt := { rpt with filledQty := filled, leavesQty := result.remainingQty }
  if result.remainingQty = 0 then { rpt with status := .filled }
  else if 0 < filled then
    match result.trades.getLast? with
    | some t => { rpt with status := .partiallyFilled, lastQty := t.qty, lastPrice := t.price }
    | none => { rpt with status := .partiallyFilled }
  else { rpt with status := .new }

/-- What `add_order` does with an unfilled remainder: by time-in-force for a limit order, nothing
for a market order. -/
def handleRemainder (b : L3OrderBook) (rpt : ExecutionReport) (order : Order) (result : MatchResult)
    (ts : Timestamp) : ExecutionReport × L3OrderBook :=
  if 0 < result.remainingQty ∧ order.type = .limit then
    match order.tif with
    | .day | .gtc => (rpt, b.addRestingOrder order result.remainingQty ts)
    | .ioc =>
      let status :=
        if 0 < order.quantity - result.remainingQty then OrderStatus.partiallyFilled
        else OrderStatus.canceled
      ({ rpt with status, leavesQty := 0 }, b)
    | .fok =>
      ({ rpt with
          status := .rejected, rejectReason := .insufficientLiquidity, filledQty := 0, leavesQty := 0 },
        b)
  else (rpt, b)

def addOrder (b : L3OrderBook) (order : Order) (ts : Timestamp) : BookResult :=
  let rpt := addReport order ts
  if order.id ∈ b.orderIndex then
    ⟨{ rpt with status := .rejected, rejectReason := .duplicateOrderId, leavesQty := 0 }, b, []⟩
  else
    let (result, b) := b.matchIncoming order ts
    let (rpt, b) := b.handleRemainder (matchedReport rpt order result) order result ts
    let tob := if result.trades ≠ [] ∨ rpt.status = .new then [b.publishTob ts] else []
    ⟨rpt, b, result.trades.map .trade ++ tob⟩

/-- Remove the order at `loc` from its level and its side's count. -/
def removeAt (b : L3OrderBook) (loc : OrderLocation) : L3OrderBook :=
  match loc.side with
  | .buy =>
    { b with bids := eraseNode b.bids loc.price loc.it, bidOrderCount := b.bidOrderCount - 1 }
  | .sell =>
    { b with asks := eraseNode b.asks loc.price loc.it, askOrderCount := b.askOrderCount - 1 }

def cancelOrder (b : L3OrderBook) (id : OrderId) (ts : Timestamp) : BookResult :=
  let rpt : ExecutionReport := { orderId := id, transactTime := ts }
  match b.orderIndex.lookup id with
  | none => ⟨{ rpt with status := .rejected, rejectReason := .none }, b, []⟩
  | some loc =>
    let l3Order := b.deref loc.it
    let rpt :=
      { rpt with
        traderId := l3Order.traderId
        symbol := b.symbol
        side := l3Order.side
        price := l3Order.price
        orderQty := l3Order.visibleQty + l3Order.hiddenQty + l3Order.filledQty
        filledQty := l3Order.filledQty
        leavesQty := 0
        status := .canceled
        clOrdId := l3Order.clOrdId }
    let b := { b.removeAt loc with orderIndex := b.orderIndex.erase id }
    ⟨rpt, b, [b.publishTob ts]⟩

/-- The order that `replace_order` submits once the old one is canceled. -/
def replacement (req : ReplaceRequest) (side : Side) (ts : Timestamp) : Order where
  id := req.orderId
  traderId := req.traderId
  symbol := req.symbol
  side := side
  type := .limit
  tif := .day
  price := req.newPrice
  quantity := req.newQty
  submitTime := ts
  clOrdId := req.clOrdId

def replaceOrder (b : L3OrderBook) (req : ReplaceRequest) (ts : Timestamp) : BookResult :=
  let cancel := b.cancelOrder req.orderId ts
  if cancel.rpt.status ≠ .canceled then
    { cancel with rpt := { cancel.rpt with status := .rejected } }
  else
    let add := cancel.book.addOrder (replacement req cancel.rpt.side ts) ts
    { add with events := cancel.events ++ add.events }

end L3OrderBook

/-! ## Runs -/

/-- A call on the book. -/
inductive BookOp
  | add (order : Order) (ts : Timestamp)
  | cancel (id : OrderId) (ts : Timestamp)
  | replace (req : ReplaceRequest) (ts : Timestamp)

namespace L3OrderBook

def step (b : L3OrderBook) : BookOp → BookResult
  | .add order ts => b.addOrder order ts
  | .cancel id ts => b.cancelOrder id ts
  | .replace req ts => b.replaceOrder req ts

/-- The book after a sequence of calls. -/
def run (b : L3OrderBook) (ops : List BookOp) : L3OrderBook :=
  ops.foldl (fun b op => (b.step op).book) b

/-- A book some sequence of calls leads to from the empty one. -/
def Reachable (b : L3OrderBook) : Prop := ∃ symbol ops, b = (create symbol).run ops

end L3OrderBook

end HftSdk
