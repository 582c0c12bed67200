import HftSdk.Orderbook.L3OrderBook

/-!
# The lightweight order book

`market/order_book.hpp` and `.cpp`: price levels and an index like those of the L3 book, but orders
are only added, canceled and matched: there are no reports, counters or callbacks, and an order keeps
one quantity. `addOrder` does not match and `matchIncoming` does not rest, so that the caller puts
the two together. Maps, list nodes and the allocator are modelled as in the L3 book.
-/

namespace HftSdk

namespace OrderBook

abbrev Queue := NodeList BookOrder

abbrev PriceLevel (s : Side) := SortedMap s.better Queue
abbrev PriceLevelBid := PriceLevel .buy
abbrev PriceLevelAsk := PriceLevel .sell

end OrderBook

open OrderBook in
structure OrderBook where
  symbol_ : Symbol
  bids_ : PriceLevelBid := ∅
  asks_ : PriceLevelAsk := ∅
  order_index_ : Finmap fun _ : OrderId => OrderLocation := ∅
  nextAddr : Nat := 0

namespace OrderBook

/-! ## Adding and canceling -/

/-- Add a new resting order. -/
def addOrder (ob : OrderBook) (ord : BookOrder) : OrderBook :=
  let it := ob.nextAddr
  match ord.side with
  | .buy =>
    { ob with
      bids_ := ob.bids_.push ord.price fun _ => ⟨it, ord⟩
      order_index_ := ob.order_index_.insert ord.id ⟨ord.side, ord.price, it⟩
      nextAddr := it + 1 }
  | .sell =>
    { ob with
      asks_ := ob.asks_.push ord.price fun _ => ⟨it, ord⟩
      order_index_ := ob.order_index_.insert ord.id ⟨ord.side, ord.price, it⟩
      nextAddr := it + 1 }

/-- Unlink a node from the level at `price` and erase the level when that empties it. -/
def eraseFrom {lt : Int → Int → Prop} (levels : SortedMap lt Queue) (price : Int) (it : Nat) :
    SortedMap lt Queue :=
  match levels.lookup price with
  | none => levels
  | some queue =>
    let queue := ListNode.unlink it queue
    if queue.isEmpty then levels.erase price else levels.assign price queue

/-- Remove an order by id; whether there was one. -/
def cancelOrder (ob : OrderBook) (id : OrderId) : Bool × OrderBook :=
  match ob.order_index_.lookup id with
  | none => (false, ob)
  | some loc =>
    let ob :=
      match loc.side with
      | .buy => { ob with bids_ := eraseFrom ob.bids_ loc.price loc.it }
      | .sell => { ob with asks_ := eraseFrom ob.asks_ loc.price loc.it }
    (true, { ob with order_index_ := ob.order_index_.erase id })

/-! ## Matching -/

/-- What a matching loop leaves of the list it walks and of the index, the incoming order's remaining
quantity and the trades. -/
structure Swept (ρ : Type) where
  left : ρ
  index : Finmap fun _ : OrderId => OrderLocation
  remaining : Int
  trades : List Trade

/-- A limit order stops at a level beyond its limit. -/
def stopsAt (incoming : BookOrder) (price : Int) : Bool :=
  match incoming.side with
  | .buy => decide (incoming.price < price) && decide (incoming.type = .limit)
  | .sell => decide (price < incoming.price) && decide (incoming.type = .limit)

def tradeWith (symbol : Symbol) (incoming : BookOrder) (price : Int) (resting : BookOrder)
    (matchedQty : Int) (tsNs : Timestamp) : Trade where
  restingId := resting.id
  incomingId := incoming.id
  symbol := symbol
  aggressorSide := incoming.side
  price := price
  qty := matchedQty
  matchTimestampNs := tsNs

/-- The inner loop: the front of the queue is matched until it is used up and popped. When it is not
used up, the demand is met and the loop ends (`matchQueue_front`). -/
def matchQueue (symbol : Symbol) (incoming : BookOrder) (tsNs : Timestamp) (price : Int) :
    Queue → (Finmap fun _ : OrderId => OrderLocation) → Int → Swept Queue
  | [], index, remaining => ⟨[], index, remaining, []⟩
  | n :: queue, index, remaining =>
    if 0 < remaining then
      let matchedQty := min remaining n.val.qty
      let trade := tradeWith symbol incoming price n.val matchedQty tsNs
      let resting := { n.val with qty := n.val.qty - matchedQty }
      if resting.qty = 0 then
        let r := matchQueue symbol incoming tsNs price queue (index.erase resting.id)
          (remaining - matchedQty)
        { r with trades := trade :: r.trades }
      else ⟨⟨n.addr, resting⟩ :: queue, index, remaining - matchedQty, [trade]⟩
    else ⟨n :: queue, index, remaining, []⟩

theorem matchQueue_front (symbol : Symbol) (incoming : BookOrder) (tsNs : Timestamp) (price : Int)
    (n : ListNode BookOrder) (queue : Queue) (index : Finmap fun _ : OrderId => OrderLocation)
    {remaining : Int} (h : 0 < remaining) :
    let matchedQty := min remaining n.val.qty
    let resting := { n.val with qty := n.val.qty - matchedQty }
    let r :=
      if resting.qty = 0 then
        matchQueue symbol incoming tsNs price queue (index.erase resting.id) (remaining - matchedQty)
      else
        matchQueue symbol incoming tsNs price (⟨n.addr, resting⟩ :: queue) index
          (remaining - matchedQty)
    matchQueue symbol incoming tsNs price (n :: queue) index remaining =
      { r with trades := tradeWith symbol incoming price n.val matchedQty tsNs :: r.trades } := by
  intro matchedQty resting r
  rw [matchQueue, if_pos h]
  change (if resting.qty = 0 then _ else _) = _
  by_cases hfull : resting.qty = 0
  · rw [if_pos hfull, show r = _ from if_pos hfull]
  · have hmet : ¬ 0 < remaining - matchedQty := by
      have hfull : n.val.qty - min remaining n.val.qty ≠ 0 := hfull
      change ¬ 0 < remaining - min remaining n.val.qty
      omega
    rw [if_neg hfull, show r = _ from if_neg hfull, matchQueue, if_neg hmet]

/-- The outer loop: the best level is matched until it is emptied and erased. When it is not emptied,
the demand is met and the loop ends. -/
def matchLevels (symbol : Symbol) (incoming : BookOrder) (tsNs : Timestamp) :
    List (Int × Queue) → (Finmap fun _ : OrderId => OrderLocation) → Int →
      Swept (List (Int × Queue))
  | [], index, remaining => ⟨[], index, remaining, []⟩
  | (price, queue) :: levels, index, remaining =>
    if 0 < remaining then
      if stopsAt incoming price then ⟨(price, queue) :: levels, index, remaining, []⟩
      else
        let q := matchQueue symbol incoming tsNs price queue index remaining
        if q.left.isEmpty then
          let r := matchLevels symbol incoming tsNs levels q.index q.remaining
          { r with trades := q.trades ++ r.trades }
        else ⟨(price, q.left) :: levels, q.index, q.remaining, q.trades⟩
    else ⟨(price, queue) :: levels, index, remaining, []⟩

theorem matchLevels_keys (symbol : Symbol) (incoming : BookOrder) (tsNs : Timestamp)
    (levels : List (Int × Queue)) (index : Finmap fun _ : OrderId => OrderLocation)
    (remaining : Int) :
    ((matchLevels symbol incoming tsNs levels index remaining).left.map Prod.fst).Sublist
      (levels.map Prod.fst) := by
  induction levels generalizing index remaining with
  | nil => exact List.Sublist.refl _
  | cons e levels ih =>
    obtain ⟨p, queue⟩ := e
    rw [matchLevels]
    split_ifs
    · exact List.Sublist.refl _
    · simp only
      split_ifs
      · exact (ih _ _).cons p
      · exact List.Sublist.refl _
    · exact List.Sublist.refl _

/-- One side's loops. -/
def matchSide {lt : Int → Int → Prop} (symbol : Symbol) (levels : SortedMap lt Queue)
    (index : Finmap fun _ : OrderId => OrderLocation) (incoming : BookOrder) (tsNs : Timestamp) :
    Swept (SortedMap lt Queue) :=
  let r := matchLevels symbol incoming tsNs levels.entries index incoming.qty
  { r with left := levels.restrict r.left (matchLevels_keys _ _ _ _ _ _) }

/-- Match an incoming order against the book: its trades, its leftover quantity and the book. -/
def matchIncoming (ob : OrderBook) (incoming : BookOrder) (tsNs : Timestamp) :
    (List Trade × Int) × OrderBook :=
  match incoming.side with
  | .buy =>
    let r := matchSide ob.symbol_ ob.asks_ ob.order_index_ incoming tsNs
    ((r.trades, r.remaining), { ob with asks_ := r.left, order_index_ := r.index })
  | .sell =>
    let r := matchSide ob.symbol_ ob.bids_ ob.order_index_ incoming tsNs
    ((r.trades, r.remaining), { ob with bids_ := r.left, order_index_ := r.index })

/-! ## Queries -/

/-- A level with its total quantity; orders are not counted here. -/
def bookLevel (e : Int × Queue) : BookLevel where
  price := e.1
  qty := (e.2.map fun n => n.val.qty).sum

def bestBid (ob : OrderBook) : Option BookLevel := ob.bids_.entries.head?.map bookLevel

def bestAsk (ob : OrderBook) : Option BookLevel := ob.asks_.entries.head?.map bookLevel

def bids (ob : OrderBook) (depth : Nat) : List BookLevel :=
  (ob.bids_.entries.take depth).map bookLevel

def asks (ob : OrderBook) (depth : Nat) : List BookLevel :=
  (ob.asks_.entries.take depth).map bookLevel

end OrderBook

end HftSdk
