import HftSdk.Orderbook.L3OrderBook

/-!
# The L1 and L2 feeds

`orderbook/l1_feed.hpp` and `orderbook/l2_aggregator.hpp` with their `.cpp` files. A feed of the
code holds a reference to its book; here the book is an argument. The callback of `L1Feed` is left
out, since nothing registers one. Its two averages are those of `RollingStatistics`.
-/

namespace HftSdk

abbrev DEFAULT_L2_DEPTH : Nat := 10
abbrev MAX_L2_DEPTH : Nat := 20

/-! ## L1 -/

structure TradeRecord where
  price : Int
  quantity : Int

abbrev L1Feed.MAX_TRADE_HISTORY : Nat := 1000
abbrev L1Feed.MAX_SPREAD_HISTORY : Nat := 500

/-- `push_back`, then `pop_front` from a queue that is now longer than `max`. -/
def pushBounded {α : Type} (max : Nat) (queue : List α) (a : α) : List α :=
  if max < (queue ++ [a]).length then (queue ++ [a]).tail else queue ++ [a]

structure L1Feed where
  lastTob : TopOfBook := {}
  recentTrades : List TradeRecord := []
  spreadHistory : List Int := []

namespace L1Feed

def update (feed : L1Feed) (book : L3OrderBook) (ts : Timestamp) : L1Feed :=
  let tob := book.topOfBook ts
  { feed with
    lastTob := tob
    spreadHistory :=
      if tob.valid ∧ 0 < tob.spread then
        pushBounded MAX_SPREAD_HISTORY feed.spreadHistory tob.spread
      else feed.spreadHistory }

def recordTrade (feed : L1Feed) (price qty : Int) : L1Feed :=
  { feed with recentTrades := pushBounded MAX_TRADE_HISTORY feed.recentTrades ⟨price, qty⟩ }

end L1Feed

/-! ## L2 -/

structure L2Aggregator where
  depth : Nat := min DEFAULT_L2_DEPTH MAX_L2_DEPTH

/-- The array of a snapshot: the first levels, then empty ones. -/
def depthArray (levels : List BookLevel) : Vector BookLevel MAX_DEPTH_LEVELS :=
  Vector.ofFn fun i => (levels[i.val]?).getD {}

def L2Aggregator.snapshot (l2 : L2Aggregator) (book : L3OrderBook) (ts : Timestamp) :
    DepthSnapshot where
  symbol := book.symbol
  timestamp := ts
  bids := depthArray (book.bidDepth l2.depth)
  asks := depthArray (book.askDepth l2.depth)
  bidLevels := (book.bidDepth l2.depth).length
  askLevels := (book.askDepth l2.depth).length

end HftSdk
