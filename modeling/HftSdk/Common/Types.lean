import Mathlib.Algebra.Order.Ring.Int

/-!
# Core types

The identifiers, enumerations and records of `common/types.hpp` that the modelled modules share.
Ids and timestamps keep their 64-bit width. `Price` and `Quantity` are read as exact integers,
`Int`, and the counters, which start at 0 or 1 and count events, as `Nat`.
-/

namespace HftSdk

abbrev OrderId := UInt64
abbrev TraderId := UInt64
abbrev Timestamp := UInt64

/-- A fixed-size, zero-padded character buffer. -/
abbrev CharBuf (n : Nat) := Vector UInt8 n

/-! ## Enumerations -/

inductive OrderStatus
  | new | partiallyFilled | filled | canceled | rejected | pendingCancel | pendingReplace
deriving DecidableEq, Repr

inductive RejectReason
  | none | unknownSymbol | invalidPrice | invalidQuantity | positionLimit | rateLimit
  | selfTradePrevention | killSwitchActive | duplicateOrderId | insufficientLiquidity
deriving DecidableEq, Repr

inductive Side
  | buy | sell
deriving DecidableEq, Repr

inductive OrderType
  | limit | market
deriving DecidableEq, Repr

inductive TimeInForce
  | day | ioc | fok | gtc
deriving DecidableEq, Repr

/-- The other side. -/
def Side.opp : Side → Side
  | buy => sell
  | sell => buy

@[simp] theorem Side.opp_opp (s : Side) : s.opp.opp = s := by cases s <;> rfl
@[simp] theorem Side.opp_ne (s : Side) : s.opp ≠ s := by cases s <;> decide

theorem Side.eq_or_eq_opp (s t : Side) : t = s ∨ t = s.opp := by cases s <;> cases t <;> decide

/-- A quantity with the sign of the side: bought counts up, sold counts down. -/
def Side.signed : Side → Int → Int
  | buy, q => q
  | sell, q => -q

@[simp] theorem Side.signed_opp (s : Side) (q : Int) : s.opp.signed q = -s.signed q := by
  cases s <;> simp [opp, signed]

@[simp] theorem Side.signed_zero (s : Side) : s.signed 0 = 0 := by cases s <;> rfl

@[simp] theorem Side.signed_inj (s : Side) (q r : Int) : s.signed q = s.signed r ↔ q = r := by
  cases s <;> simp [signed]

theorem Side.signed_add (s : Side) (q r : Int) : s.signed (q + r) = s.signed q + s.signed r := by
  cases s
  · rfl
  · exact Int.neg_add

/-! ## Records -/

/-- A symbol: eight characters, no heap allocation. `Symbol()` is all zeros. -/
structure Symbol where
  data : CharBuf 8 := Vector.replicate 8 0
deriving DecidableEq

abbrev INVALID_ORDER_ID : OrderId := 0

structure Order where
  id : OrderId := INVALID_ORDER_ID
  traderId : TraderId := 0
  symbol : Symbol := {}
  side : Side := .buy
  type : OrderType := .limit
  tif : TimeInForce := .day
  price : Int := 0
  quantity : Int := 0
  submitTime : Timestamp := 0
  clOrdId : CharBuf 20 := Vector.replicate 20 0
deriving DecidableEq

structure CancelRequest where
  orderId : OrderId := INVALID_ORDER_ID
  traderId : TraderId := 0
  symbol : Symbol := {}
deriving DecidableEq

structure ReplaceRequest where
  orderId : OrderId := INVALID_ORDER_ID
  traderId : TraderId := 0
  symbol : Symbol := {}
  newPrice : Int := 0
  newQty : Int := 0
  clOrdId : CharBuf 20 := Vector.replicate 20 0
deriving DecidableEq

/-- An order in the lightweight book. -/
structure BookOrder where
  id : OrderId
  trader : TraderId
  qty : Int
  price : Int
  side : Side
  type : OrderType
  tsNs : Timestamp
deriving DecidableEq

/-- A match: the resting (passive) order, the incoming (aggressor) order and what they traded. -/
structure Trade where
  tradeId : Nat := 0
  restingId : OrderId
  incomingId : OrderId
  restingTrader : TraderId := 0
  incomingTrader : TraderId := 0
  symbol : Symbol
  aggressorSide : Side
  price : Int
  qty : Int
  matchTimestampNs : Timestamp
deriving DecidableEq

structure BookLevel where
  price : Int := 0
  qty : Int := 0
  orderCount : Nat := 0
deriving DecidableEq

structure TopOfBook where
  symbol : Symbol := {}
  bestBid : BookLevel := {}
  bestAsk : BookLevel := {}
  midPrice : Int := 0
  microPrice : Int := 0
  spread : Int := 0
  timestamp : Timestamp := 0
  valid : Bool := false
deriving DecidableEq

abbrev MAX_DEPTH_LEVELS : Nat := 20

structure DepthSnapshot where
  symbol : Symbol := {}
  bids : Vector BookLevel MAX_DEPTH_LEVELS := Vector.replicate MAX_DEPTH_LEVELS {}
  asks : Vector BookLevel MAX_DEPTH_LEVELS := Vector.replicate MAX_DEPTH_LEVELS {}
  bidLevels : Nat := 0
  askLevels : Nat := 0
  timestamp : Timestamp := 0
deriving DecidableEq

structure ExecutionReport where
  orderId : OrderId := INVALID_ORDER_ID
  traderId : TraderId := 0
  symbol : Symbol := {}
  side : Side := .buy
  type : OrderType := .limit
  status : OrderStatus := .new
  price : Int := 0
  orderQty : Int := 0
  filledQty : Int := 0
  lastQty : Int := 0
  lastPrice : Int := 0
  leavesQty : Int := 0
  transactTime : Timestamp := 0
  rejectReason : RejectReason := .none
  clOrdId : CharBuf 20 := Vector.replicate 20 0
deriving DecidableEq

end HftSdk
