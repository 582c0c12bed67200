import HftSdk.Common.Types
import HftSdk.Concurrency.TryCalls
import Mathlib.Data.Finmap

/-!
# The market data engine

`market/market_data_engine.hpp` and `.cpp`. Updates pass a throttle with one clock reading per
symbol, wait in a ring buffer of 16384 slots and are handed to the subscribers by `process_pending`.
A push that finds the buffer full is not noticed.

Handlers are numbered in the order of their subscription; a `Delivery` is the call of one. The value
of the clock is an argument of every call that reads it. The configured L2 depth is read by nothing
and left out.
-/

namespace HftSdk

/-! ## Messages -/

inductive MDUpdateType
  | snapshotFull | incrementalRefresh | tradeReport
deriving DecidableEq, Repr

/-- The union of a message: the member that was assigned last. -/
inductive MDPayload
  | tob (tob : TopOfBook)
  | depth (depth : DepthSnapshot)
  | trade (trade : Trade)
deriving DecidableEq

/-- Market data message envelope. -/
structure MarketDataMessage where
  type : MDUpdateType := .snapshotFull
  symbol : Symbol := {}
  timestamp : Timestamp := 0
  payload : MDPayload := .tob {}
deriving DecidableEq

/-- The call of a handler, with the union it is given a member of. -/
inductive Delivery
  | l1 (handler : Nat) (payload : MDPayload)
  | l2 (handler : Nat) (payload : MDPayload)
  | trade (handler : Nat) (payload : MDPayload)
deriving DecidableEq

/-- `HPRingBuffer<MarketDataMessage, 16384>`. -/
def mdQueueSize : RingSize := ⟨16384, by decide, by decide⟩

/-! ## The engine -/

structure MarketDataEngine where
  throttleNs : UInt64 := 0
  lastPublishTime : Finmap fun _ : Symbol => Timestamp := ∅
  mdQueue : HPRingBuffer MarketDataMessage mdQueueSize := { buffer_ := fun _ => {} }
  l1Handlers : Nat := 0
  l2Handlers : Nat := 0
  tradeHandlers : Nat := 0
  messagesPublished : Nat := 0
  messagesThrottled : Nat := 0

namespace MarketDataEngine

def shouldThrottle (e : MarketDataEngine) (symbol : Symbol) (now : Timestamp) :
    Bool × MarketDataEngine :=
  let publish := { e with lastPublishTime := e.lastPublishTime.insert symbol now }
  if e.throttleNs = 0 then (false, e)
  else
    match e.lastPublishTime.lookup symbol with
    | none => (false, publish)
    | some last => if now - last < e.throttleNs then (true, e) else (false, publish)

/-- `(void)md_queue_->try_push(msg)`. -/
def push (e : MarketDataEngine) (msg : MarketDataMessage) : MarketDataEngine :=
  { e with mdQueue := (e.mdQueue.tryPush msg).1 }

/-- An update that may be throttled. -/
def onUpdate (e : MarketDataEngine) (msg : MarketDataMessage) : MarketDataEngine :=
  let (throttled, e) := e.shouldThrottle msg.symbol msg.timestamp
  if throttled then { e with messagesThrottled := e.messagesThrottled + 1 } else e.push msg

def onTobUpdate (e : MarketDataEngine) (tob : TopOfBook) (now : Timestamp) : MarketDataEngine :=
  e.onUpdate ⟨.incrementalRefresh, tob.symbol, now, .tob tob⟩

def onDepthUpdate (e : MarketDataEngine) (depth : DepthSnapshot) (now : Timestamp) :
    MarketDataEngine :=
  e.onUpdate ⟨.snapshotFull, depth.symbol, now, .depth depth⟩

def onTrade (e : MarketDataEngine) (trade : Trade) (now : Timestamp) : MarketDataEngine :=
  e.push ⟨.tradeReport, trade.symbol, now, .trade trade⟩

/-- The handlers that a message is passed to. -/
def deliver (e : MarketDataEngine) (msg : MarketDataMessage) : List Delivery :=
  match msg.type with
  | .incrementalRefresh => (List.range e.l1Handlers).map fun h => .l1 h msg.payload
  | .snapshotFull => (List.range e.l2Handlers).map fun h => .l2 h msg.payload
  | .tradeReport => (List.range e.tradeHandlers).map fun h => .trade h msg.payload

/-- Process pending market data, until a pop finds nothing. Messages are trivially copyable, so
moving one out of its slot leaves it there. -/
def processPending (e : MarketDataEngine) : List Delivery × MarketDataEngine :=
  match _ : e.mdQueue.tryPop id with
  | (_, none) => ([], e)
  | (queue, some msg) =>
    let r := processPending
      { e with mdQueue := queue, messagesPublished := e.messagesPublished + 1 }
    (e.deliver msg ++ r.1, r.2)
termination_by e.mdQueue.size
decreasing_by exact HPRingBuffer.size_tryPop_lt ‹_›

end MarketDataEngine

/-! ## Runs -/

/-- A call on the engine, with the clock reading it takes. -/
inductive MDCall
  | onTobUpdate (tob : TopOfBook) (now : Timestamp)
  | onDepthUpdate (depth : DepthSnapshot) (now : Timestamp)
  | onTrade (trade : Trade) (now : Timestamp)
  | processPending

/-- The message of an update. -/
def MDCall.message? : MDCall → Option MarketDataMessage
  | .onTobUpdate tob now => some ⟨.incrementalRefresh, tob.symbol, now, .tob tob⟩
  | .onDepthUpdate depth now => some ⟨.snapshotFull, depth.symbol, now, .depth depth⟩
  | .onTrade trade now => some ⟨.tradeReport, trade.symbol, now, .trade trade⟩
  | .processPending => none

namespace MarketDataEngine

/-- The deliveries made in a call, and the engine after it. -/
def step (e : MarketDataEngine) : MDCall → List Delivery × MarketDataEngine
  | .onTobUpdate tob now => ([], e.onTobUpdate tob now)
  | .onDepthUpdate depth now => ([], e.onDepthUpdate depth now)
  | .onTrade trade now => ([], e.onTrade trade now)
  | .processPending => e.processPending

/-- The throttle drops the update. -/
def throttles (e : MarketDataEngine) : MDCall → Bool
  | .onTobUpdate tob now => (e.shouldThrottle tob.symbol now).1
  | .onDepthUpdate depth now => (e.shouldThrottle depth.symbol now).1
  | .onTrade _ _ => false
  | .processPending => false

/-! ## One call -/

variable {e : MarketDataEngine} {l : List MarketDataMessage}

theorem shouldThrottle_cases (e : MarketDataEngine) (symbol : Symbol) (now : Timestamp) :
    e.shouldThrottle symbol now = (true, e) ∨
      ∃ times, e.shouldThrottle symbol now = (false, { e with lastPublishTime := times }) := by
  unfold shouldThrottle
  split_ifs
  · exact Or.inr ⟨_, rfl⟩
  · cases e.lastPublishTime.lookup symbol with
    | none => exact Or.inr ⟨_, rfl⟩
    | some last =>
      dsimp only
      split_ifs
      · exact Or.inl rfl
      · exact Or.inr ⟨_, rfl⟩

theorem onUpdate_cases (e : MarketDataEngine) (msg : MarketDataMessage) :
    (e.shouldThrottle msg.symbol msg.timestamp).1 = true ∧
        e.onUpdate msg = { e with messagesThrottled := e.messagesThrottled + 1 } ∨
      (e.shouldThrottle msg.symbol msg.timestamp).1 = false ∧
        ∃ times, e.onUpdate msg = { e.push msg with lastPublishTime := times } := by
  unfold onUpdate
  rcases e.shouldThrottle_cases msg.symbol msg.timestamp with h | ⟨times, h⟩ <;> rw [h]
  · exact Or.inl ⟨rfl, rfl⟩
  · exact Or.inr ⟨rfl, times, rfl⟩

theorem step_update {c : MDCall} {msg : MarketDataMessage} (hmsg : c.message? = some msg)
    (e : MarketDataEngine) :
    e.throttles c = true ∧ e.step c = ([], { e with messagesThrottled := e.messagesThrottled + 1 }) ∨
      e.throttles c = false ∧
        ∃ times, e.step c = ([], { e.push msg with lastPublishTime := times }) := by
  have hupdate := e.onUpdate_cases msg
  cases c with
  | onTrade trade now =>
    obtain rfl := Option.some.inj hmsg
    exact Or.inr ⟨rfl, _, rfl⟩
  | processPending => cases hmsg
  | _ =>
    obtain rfl := Option.some.inj hmsg
    rcases hupdate with ⟨h, heq⟩ | ⟨h, times, heq⟩
    · exact Or.inl ⟨h, congrArg _ heq⟩
    · exact Or.inr ⟨h, times, congrArg _ heq⟩

theorem processPending_eq (h : e.mdQueue.Holds l) : ∃ queue : HPRingBuffer _ mdQueueSize,
    queue.Holds [] ∧ e.processPending = (l.flatMap e.deliver,
      { e with mdQueue := queue, messagesPublished := e.messagesPublished + l.length }) := by
  induction l generalizing e with
  | nil =>
    refine ⟨e.mdQueue, h, ?_⟩
    unfold processPending
    split
    · rfl
    · rename_i hpop
      rw [h.tryPop_nil] at hpop
      cases hpop
  | cons msg l ih =>
    obtain ⟨hrest, hmsg⟩ := h.tryPop_cons id
    unfold processPending
    split
    · rename_i hpop
      rw [hpop] at hmsg
      cases hmsg
    · rename_i queue msg' hpop
      rw [hpop] at hrest hmsg
      obtain rfl : msg' = msg := Option.some.inj hmsg
      obtain ⟨queue', hempty, heq⟩ := ih
        (e := { e with mdQueue := queue, messagesPublished := e.messagesPublished + 1 }) hrest
      refine ⟨queue', hempty, ?_⟩
      rw [heq, List.length_cons, Nat.add_comm l.length, ← Nat.add_assoc]
      rfl

end MarketDataEngine

end HftSdk
