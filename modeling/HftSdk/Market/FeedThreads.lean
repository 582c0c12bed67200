import HftSdk.Market.Conservation
import HftSdk.Concurrency.RingProgress

/-!
# The feed and the publisher

`process_pending` is called from a thread of its own, while the thread of the matching engine calls
`on_tob_update`, `on_depth_update` and `on_trade`. They share the ring buffer and nothing else: the
throttle belongs to the feed, the handlers and the count of published messages to the publisher. So
a step is a step of the ring buffer, with what its thread does on its own around it, or one call of a
handler, and the steps interleave in any way (`step_cases`).
-/

namespace HftSdk

open HPRingBuffer (Outcome Traced)

namespace MarketDataEngine

/-! ## The part of the feed -/

/-- An update that may be throttled, up to its push. -/
def throttleUpdate (e : MarketDataEngine) (msg : MarketDataMessage) :
    MarketDataEngine × Option MarketDataMessage :=
  let (throttled, e) := e.shouldThrottle msg.symbol msg.timestamp
  if throttled then ({ e with messagesThrottled := e.messagesThrottled + 1 }, none) else (e, some msg)

/-- The engine before the push, and what is to be pushed. -/
def throttle (e : MarketDataEngine) : MDCall → MarketDataEngine × Option MarketDataMessage
  | .onTobUpdate tob now => e.throttleUpdate ⟨.incrementalRefresh, tob.symbol, now, .tob tob⟩
  | .onDepthUpdate depth now => e.throttleUpdate ⟨.snapshotFull, depth.symbol, now, .depth depth⟩
  | .onTrade trade now => (e, some ⟨.tradeReport, trade.symbol, now, .trade trade⟩)
  | .processPending => (e, none)

/-- What the throttle looks at and writes. -/
def gateState (e : MarketDataEngine) : UInt64 × (Finmap fun _ : Symbol => Timestamp) × Nat :=
  (e.throttleNs, e.lastPublishTime, e.messagesThrottled)

variable {e e' : MarketDataEngine}

theorem step_eq_throttle (e : MarketDataEngine) {c : MDCall} (hc : c.message?.isSome) :
    (e.step c).2 = match e.throttle c with
      | (e', some msg) => e'.push msg
      | (e', none) => e' := by
  have hupdate : ∀ msg, e.onUpdate msg = match e.throttleUpdate msg with
      | (e', some msg) => e'.push msg
      | (e', none) => e' := by
    intro msg
    unfold onUpdate throttleUpdate
    dsimp only
    split_ifs <;> rfl
  cases c with
  | onTobUpdate tob now => exact hupdate _
  | onDepthUpdate depth now => exact hupdate _
  | onTrade trade now => rfl
  | processPending => cases hc

theorem throttleUpdate_congr (h : e.gateState = e'.gateState) (msg : MarketDataMessage) :
    (e.throttleUpdate msg).2 = (e'.throttleUpdate msg).2 ∧
      (e.throttleUpdate msg).1.gateState = (e'.throttleUpdate msg).1.gateState := by
  obtain ⟨ns, times, queue, l1, l2, trades, published, throttled⟩ := e
  obtain ⟨ns', times', queue', l1', l2', trades', published', throttled'⟩ := e'
  unfold gateState at h
  simp only [Prod.mk.injEq] at h
  obtain ⟨rfl, rfl, rfl⟩ := h
  unfold throttleUpdate shouldThrottle
  dsimp only
  by_cases hzero : ns = 0
  · rw [if_pos hzero, if_pos hzero]
    exact ⟨rfl, rfl⟩
  · rw [if_neg hzero, if_neg hzero]
    cases times.lookup msg.symbol with
    | none => exact ⟨rfl, rfl⟩
    | some last =>
      by_cases hnear : msg.timestamp - last < ns
      · simp only [if_pos hnear]
        exact ⟨rfl, rfl⟩
      · simp only [if_neg hnear]
        exact ⟨rfl, rfl⟩

theorem throttle_congr (h : e.gateState = e'.gateState) (c : MDCall) :
    (e.throttle c).2 = (e'.throttle c).2 ∧
      (e.throttle c).1.gateState = (e'.throttle c).1.gateState := by
  cases c with
  | onTobUpdate tob now => exact throttleUpdate_congr h _
  | onDepthUpdate depth now => exact throttleUpdate_congr h _
  | onTrade trade now => exact ⟨rfl, h⟩
  | processPending => exact ⟨rfl, h⟩

theorem throttle_cases (e : MarketDataEngine) (c : MDCall) :
    e.throttle c = ({ e with messagesThrottled := e.messagesThrottled + 1 }, none) ∨
      ∃ times, e.throttle c = ({ e with lastPublishTime := times }, c.message?) := by
  have hupdate : ∀ msg,
      e.throttleUpdate msg = ({ e with messagesThrottled := e.messagesThrottled + 1 }, none) ∨
        ∃ times, e.throttleUpdate msg = ({ e with lastPublishTime := times }, some msg) := by
    intro msg
    unfold throttleUpdate
    rcases e.shouldThrottle_cases msg.symbol msg.timestamp with h | ⟨times, h⟩ <;> rw [h]
    · exact .inl rfl
    · exact .inr ⟨times, rfl⟩
  cases c with
  | onTobUpdate tob now => exact hupdate _
  | onDepthUpdate depth now => exact hupdate _
  | onTrade trade now => exact .inr ⟨e.lastPublishTime, rfl⟩
  | processPending => exact .inr ⟨e.lastPublishTime, rfl⟩

theorem throttle_frame (e : MarketDataEngine) (c : MDCall) :
    (e.throttle c).1.mdQueue = e.mdQueue ∧ (e.throttle c).1.deliver = e.deliver ∧
      (e.throttle c).1.messagesPublished = e.messagesPublished := by
  rcases e.throttle_cases c with h | ⟨times, h⟩ <;> rw [h] <;> exact ⟨rfl, rfl, rfl⟩

theorem gateState_step (e : MarketDataEngine) {c : MDCall} (hc : c.message?.isSome) :
    (e.step c).2.gateState = (e.throttle c).1.gateState := by
  rw [e.step_eq_throttle hc]
  obtain ⟨e', o⟩ := e.throttle c
  cases o <;> rfl

theorem unthrottled_eq_throttle (e : MarketDataEngine) {c : MDCall} (hc : c.message?.isSome) :
    (e.unthrottled [c]).filterMap MDCall.message? = (e.throttle c).2.toList := by
  have hcount : (e.step c).2.messagesThrottled = (e.throttle c).1.messagesThrottled :=
    congrArg (fun g => g.2.2) (e.gateState_step hc)
  obtain ⟨msg, hmsg⟩ := Option.isSome_iff_exists.mp hc
  unfold unthrottled
  dsimp only
  rw [hcount]
  rcases e.throttle_cases c with h | ⟨times, h⟩ <;> rw [h]
  · simp [unthrottled]
  · simp [unthrottled, hmsg]

theorem unthrottled_append (e : MarketDataEngine) (calls calls' : List MDCall) :
    e.unthrottled (calls ++ calls') = e.unthrottled calls ++ (e.run calls).unthrottled calls' := by
  induction calls generalizing e with
  | nil => rfl
  | cons c calls ih =>
    rw [List.cons_append, unthrottled_cons, ih, unthrottled_cons e c calls, List.append_assoc]
    rfl

end MarketDataEngine

/-! ## What a step of the ring buffer does -/

namespace HPRingBuffer

variable {T : Type} {sz : RingSize}

/-- The thread would wait in its call. -/
def Producer.waits : Producer T → Bool
  | .start _ blocking | .loaded _ blocking _ => blocking
  | _ => false

def Consumer.waits : Consumer T → Bool
  | .start blocking | .loaded blocking _ => blocking
  | _ => false

/-- The producer goes on with its item, or its `try_push` returns. -/
inductive Produces (s : HPRingBuffer T sz) : HPRingBuffer T sz × Option (Outcome T) → Prop
  | on (s' : HPRingBuffer T sz) (hconsumer : s'.consumer = s.consumer)
      (hitem : s'.producer.item? = s.producer.item?)
      (hphase : s.producer.waits = false →
        s'.producer.waits = false ∧ s'.producer.phase ≤ s.producer.phase - 1) : Produces s (s', none)
  | pushed (s' : HPRingBuffer T sz) (hconsumer : s'.consumer = s.consumer) (item : T)
      (hitem : s.producer.item? = some item) (hidle : s'.producer = .idle) :
      Produces s (s', some (.pushed item))
  | full (s' : HPRingBuffer T sz) (hconsumer : s'.consumer = s.consumer) (item : T)
      (hitem : s.producer.item? = some item) (hidle : s'.producer = .idle) : Produces s (s', some .full)

theorem produces (s : HPRingBuffer T sz) : Produces s s.produce := by
  unfold produce
  cases hp : s.producer with
  | idle => exact .on _ rfl rfl fun _ => by rw [hp]; exact ⟨rfl, le_rfl⟩
  | start item blocking =>
    exact .on _ rfl (by rw [hp]; rfl) fun hwait => ⟨by rw [hp] at hwait; exact hwait, by rw [hp]; rfl⟩
  | loaded item blocking ws =>
    have hitem : s.producer.item? = some item := by rw [hp]; rfl
    dsimp only
    split_ifs with hfull hblocking
    · exact .on _ rfl hitem.symm fun hwait => by rw [hp, hblocking] at hwait; cases hwait
    · exact .full _ rfl item hitem rfl
    · exact .on _ rfl hitem.symm fun _ => ⟨rfl, by rw [hp]; rfl⟩
  | free item ws => exact .on _ rfl (by rw [hp]; rfl) fun _ => ⟨rfl, by rw [hp]; rfl⟩
  | wrote item ws =>
    refine .pushed _ ?_ item (by rw [hp]; rfl) ?_ <;> rfl

/-- The consumer goes on, or its `try_pop` returns. -/
inductive Consumes (s : HPRingBuffer T sz) : HPRingBuffer T sz × Option (Outcome T) → Prop
  | on (s' : HPRingBuffer T sz) (hproducer : s'.producer = s.producer)
      (hphase : s.consumer.waits = false → s'.consumer.waits = false ∧
        (0 < s.consumer.phase → 0 < s'.consumer.phase ∧ s'.consumer.phase < s.consumer.phase)) :
      Consumes s (s', none)
  | popped (s' : HPRingBuffer T sz) (hproducer : s'.producer = s.producer) (value : T)
      (hidle : s'.consumer = .idle) : Consumes s (s', some (.popped value))
  | empty (s' : HPRingBuffer T sz) (hproducer : s'.producer = s.producer) (hidle : s'.consumer = .idle) :
      Consumes s (s', some .empty)

theorem consumes (moved : T → T) (s : HPRingBuffer T sz) : Consumes s (s.consume moved) := by
  unfold consume
  cases hc : s.consumer with
  | idle => exact .on _ rfl fun _ => by rw [hc]; exact ⟨rfl, fun h => by cases h⟩
  | start blocking =>
    refine .on _ rfl fun hwait => ?_
    rw [hc] at hwait ⊢
    exact ⟨hwait, fun _ => ⟨Nat.succ_pos _, Nat.lt_succ_self _⟩⟩
  | loaded blocking rs =>
    dsimp only
    split_ifs with hempty hblocking
    · exact .on _ rfl fun hwait => by rw [hc, hblocking] at hwait; cases hwait
    · exact .empty _ rfl rfl
    · exact .on _ rfl fun _ => ⟨rfl, fun _ => by rw [hc]; exact ⟨Nat.succ_pos _, Nat.lt_succ_self _⟩⟩
  | ready rs =>
    exact .on _ rfl fun _ => ⟨rfl, fun _ => by rw [hc]; exact ⟨Nat.succ_pos _, Nat.lt_succ_self _⟩⟩
  | took rs value => refine .popped _ ?_ value ?_ <;> rfl

theorem step_pop (moved : T → T) (s : HPRingBuffer T sz) (blocking : Bool) :
    (s.step moved (.pop blocking)).1.producer = s.producer ∧
      (s.step moved (.pop blocking)).2 = none ∧
      (s.consumer = .idle → (s.step moved (.pop blocking)).1.consumer = .start blocking) := by
  unfold step
  dsimp only
  cases hc : s.consumer with
  | idle => exact ⟨rfl, rfl, fun _ => rfl⟩
  | _ => exact ⟨rfl, rfl, fun h => by cases h⟩

end HPRingBuffer

/-! ## The two threads -/

/-- Where the publisher is: outside, in a `try_pop` of `process_pending`, or in the loop over the
handlers of a message. -/
inductive Publisher
  | idle
  | popping
  | handing (rest : List Delivery)

/-- What the publisher has still to hand over of its message. -/
def Publisher.rest : Publisher → List Delivery
  | .handing rest => rest
  | _ => []

/-- The engine and where its publisher is, and what has happened so far. -/
structure FeedThreads where
  engine : MarketDataEngine
  publisher : Publisher := .idle
  /-- The updates of the feed. -/
  calls : List MDCall := []
  /-- The messages whose `try_push` has returned, and what it returned. -/
  fates : List (MarketDataMessage × Bool) := []
  popped : List MarketDataMessage := []
  delivered : List Delivery := []

/-- A call, or the next step of the call a thread is in. -/
inductive ThreadAction
  | call (c : MDCall)
  | feed
  | publish

namespace FeedThreads

def pushed (m : FeedThreads) : List MarketDataMessage := (m.fates.filter Prod.snd).map Prod.fst

def queue (m : FeedThreads) : Traced MarketDataMessage mdQueueSize :=
  ⟨m.engine.mdQueue, m.pushed, m.popped⟩

/-- A step of the ring buffer. -/
def onQueue (m : FeedThreads) (a : HPRingBuffer.Action MarketDataMessage) :
    FeedThreads × Option (Outcome MarketDataMessage) :=
  let (mdQueue, outcome) := m.engine.mdQueue.step id a
  ({ m with engine := { m.engine with mdQueue } }, outcome)

/-- The loop of `process_pending` comes to its next `try_pop`. -/
def tryPop (m : FeedThreads) : FeedThreads :=
  { (m.onQueue (.pop false)).1 with publisher := .popping }

/-- An update, up to its `try_push`. -/
def submit (m : FeedThreads) (c : MDCall) : FeedThreads :=
  let (engine, admitted) := m.engine.throttle c
  let m := { m with engine, calls := m.calls ++ [c] }
  match admitted with
  | some msg => (m.onQueue (.push msg false)).1
  | none => m

/-- The feed's next step. -/
def feed (m : FeedThreads) : FeedThreads :=
  match m.onQueue .produce with
  | (m', some (.pushed msg)) => { m' with fates := m.fates ++ [(msg, true)] }
  | (m', some .full) =>
    { m' with fates := m.fates ++ m.engine.mdQueue.producer.item?.toList.map fun msg => (msg, false) }
  | (m', _) => m'

/-- The publisher's next step. -/
def publish (m : FeedThreads) : FeedThreads :=
  match m.publisher with
  | .idle => m
  | .popping =>
    match m.onQueue .consume with
    | (m', some (.popped msg)) =>
      { m' with
        engine := { m'.engine with messagesPublished := m.engine.messagesPublished + 1 }
        publisher := .handing (m.engine.deliver msg)
        popped := m.popped ++ [msg] }
    | (m', some .empty) => { m' with publisher := .idle }
    | (m', _) => m'
  | .handing [] => m.tryPop
  | .handing (d :: rest) => { m with publisher := .handing rest, delivered := m.delivered ++ [d] }

/-- One step; a thread that is in a call makes no other. -/
def step (m : FeedThreads) : ThreadAction → FeedThreads
  | .call .processPending =>
    match m.publisher with
    | .idle => m.tryPop
    | _ => m
  | .call c =>
    match m.engine.mdQueue.producer with
    | .idle => m.submit c
    | _ => m
  | .feed => m.feed
  | .publish => m.publish

def run (m : FeedThreads) (acts : List ThreadAction) : FeedThreads := acts.foldl step m

/-! ## What a step does -/

variable {m : FeedThreads} {e : MarketDataEngine}

theorem pushed_append (fates : List (MarketDataMessage × Bool)) (msg : MarketDataMessage) (b : Bool) :
    ((fates ++ [(msg, b)]).filter Prod.snd).map Prod.fst =
      (fates.filter Prod.snd).map Prod.fst ++ if b then [msg] else [] := by
  rw [List.filter_append, List.map_append]
  cases b <;> rfl

/-- **The cases of a step of the feed.** -/
inductive Feeds (m : FeedThreads) : FeedThreads → Prop
  /-- It goes on with its message, or is outside. -/
  | on (mdQueue : HPRingBuffer MarketDataMessage mdQueueSize)
      (hconsumer : mdQueue.consumer = m.engine.mdQueue.consumer)
      (hitem : mdQueue.producer.item? = m.engine.mdQueue.producer.item?)
      (hphase : m.engine.mdQueue.producer.waits = false → mdQueue.producer.waits = false ∧
        mdQueue.producer.phase ≤ m.engine.mdQueue.producer.phase - 1) :
      Feeds m { m with engine := { m.engine with mdQueue } }
  /-- Its `try_push` returns. -/
  | returned (mdQueue : HPRingBuffer MarketDataMessage mdQueueSize)
      (hconsumer : mdQueue.consumer = m.engine.mdQueue.consumer) (msg : MarketDataMessage) (b : Bool)
      (hitem : m.engine.mdQueue.producer.item? = some msg) (hidle : mdQueue.producer = .idle)
      (hfull : b = false → (m.engine.mdQueue.step id .produce).2 = some .full) :
      Feeds m { m with engine := { m.engine with mdQueue }, fates := m.fates ++ [(msg, b)] }

theorem feed_cases (m : FeedThreads) : Feeds m m.feed ∧ m.feed.queue = m.queue.step id .produce := by
  have hcases : HPRingBuffer.Produces m.engine.mdQueue (m.engine.mdQueue.step id .produce) :=
    m.engine.mdQueue.produces
  have hreturned := Feeds.returned (m := m)
  unfold feed onQueue queue pushed Traced.step
  dsimp only
  generalize m.engine.mdQueue.step id .produce = r at hcases hreturned
  cases hcases with
  | on mdQueue hconsumer hitem hphase => exact ⟨.on mdQueue hconsumer hitem hphase, rfl⟩
  | pushed mdQueue hconsumer msg hitem hidle =>
    refine ⟨hreturned mdQueue hconsumer msg true hitem hidle (fun h => by cases h), ?_⟩
    dsimp only
    rw [pushed_append]
    rfl
  | full mdQueue hconsumer msg hitem hidle =>
    dsimp only
    rw [hitem]
    refine ⟨hreturned mdQueue hconsumer msg false hitem hidle fun _ => rfl, ?_⟩
    rw [Option.toList_some, List.map_singleton, pushed_append]
    exact congrArg (Traced.mk mdQueue · m.popped) (List.append_nil _)

/-- **The cases of a step of the publisher.** -/
inductive Publishes (m : FeedThreads) : FeedThreads → Prop
  | outside (hidle : m.publisher = .idle) : Publishes m m
  /-- A handler is called. -/
  | handed (d : Delivery) (rest : List Delivery) (hhanding : m.publisher = .handing (d :: rest)) :
      Publishes m { m with publisher := .handing rest, delivered := m.delivered ++ [d] }
  /-- After the last handler a `try_pop` begins. -/
  | begun (hhanding : m.publisher = .handing []) : Publishes m m.tryPop
  /-- The `try_pop` goes on. -/
  | on (mdQueue : HPRingBuffer MarketDataMessage mdQueueSize)
      (hproducer : mdQueue.producer = m.engine.mdQueue.producer) (hpopping : m.publisher = .popping)
      (hphase : m.engine.mdQueue.consumer.waits = false → mdQueue.consumer.waits = false ∧
        (0 < m.engine.mdQueue.consumer.phase → 0 < mdQueue.consumer.phase ∧
          mdQueue.consumer.phase < m.engine.mdQueue.consumer.phase)) :
      Publishes m { m with engine := { m.engine with mdQueue } }
  /-- The `try_pop` returns a message. -/
  | popped (mdQueue : HPRingBuffer MarketDataMessage mdQueueSize)
      (hproducer : mdQueue.producer = m.engine.mdQueue.producer) (msg : MarketDataMessage)
      (hidle : mdQueue.consumer = .idle) (hpopping : m.publisher = .popping) :
      Publishes m
        { m with
          engine :=
            { m.engine with mdQueue, messagesPublished := m.engine.messagesPublished + 1 }
          publisher := .handing (m.engine.deliver msg)
          popped := m.popped ++ [msg] }
  /-- The `try_pop` finds nothing, and `process_pending` returns. -/
  | returned (mdQueue : HPRingBuffer MarketDataMessage mdQueueSize)
      (hproducer : mdQueue.producer = m.engine.mdQueue.producer) (hidle : mdQueue.consumer = .idle)
      (hpopping : m.publisher = .popping)
      (hempty : (m.engine.mdQueue.step id .consume).2 = some .empty) :
      Publishes m { m with engine := { m.engine with mdQueue }, publisher := .idle }

theorem queue_tryPop (m : FeedThreads) : m.tryPop.queue = m.queue.step id (.pop false) := by
  have hnone := (m.engine.mdQueue.step_pop id false).2.1
  unfold tryPop onQueue queue Traced.step
  dsimp only
  generalize m.engine.mdQueue.step id (.pop false) = r at hnone
  obtain ⟨mdQueue, o⟩ := r
  cases hnone
  rfl

theorem publish_cases (m : FeedThreads) : Publishes m m.publish ∧ m.publish.queue =
    match m.publisher with
    | .idle | .handing (_ :: _) => m.queue
    | .popping => m.queue.step id .consume
    | .handing [] => m.queue.step id (.pop false) := by
  unfold publish
  cases hpub : m.publisher with
  | idle => exact ⟨.outside hpub, rfl⟩
  | handing rest =>
    cases rest with
    | nil => exact ⟨.begun hpub, m.queue_tryPop⟩
    | cons d rest => exact ⟨.handed d rest hpub, rfl⟩
  | popping =>
    have hcases : HPRingBuffer.Consumes m.engine.mdQueue (m.engine.mdQueue.step id .consume) :=
      m.engine.mdQueue.consumes id
    have hreturned := Publishes.returned (m := m)
    unfold onQueue queue pushed Traced.step
    dsimp only
    generalize m.engine.mdQueue.step id .consume = r at hcases hreturned
    cases hcases with
    | on mdQueue hproducer hphase =>
      have hon := Publishes.on (m := m) mdQueue hproducer hpub hphase
      exact ⟨hon, rfl⟩
    | popped mdQueue hproducer msg hidle => exact ⟨.popped mdQueue hproducer msg hidle hpub, rfl⟩
    | empty mdQueue hproducer hidle => exact ⟨hreturned mdQueue hproducer hidle hpub rfl, rfl⟩

/-- What a call of the feed leaves alone. -/
structure Frame (m m' : FeedThreads) : Prop where
  fates : m'.fates = m.fates
  popped : m'.popped = m.popped
  delivered : m'.delivered = m.delivered
  publisher : m'.publisher = m.publisher
  consumer : m'.engine.mdQueue.consumer = m.engine.mdQueue.consumer
  deliver : m'.engine.deliver = m.engine.deliver

theorem submit_cases (hidle : m.engine.mdQueue.producer = .idle) (c : MDCall) :
    Frame m (m.submit c) ∧ ((m.submit c).engine.mdQueue.producer = .idle ∨
      ∃ msg, (m.submit c).engine.mdQueue.producer = .start msg false) := by
  obtain ⟨hqueue, hdeliver, -⟩ := m.engine.throttle_frame c
  unfold submit
  generalize m.engine.throttle c = r at hqueue hdeliver
  obtain ⟨engine, admitted⟩ := r
  dsimp only at hqueue hdeliver ⊢
  cases admitted with
  | none => exact ⟨⟨rfl, rfl, rfl, rfl, by rw [hqueue], hdeliver⟩, .inl (by rw [hqueue, hidle])⟩
  | some msg =>
    have hpush : engine.mdQueue.step id (.push msg false) =
        ({ m.engine.mdQueue with producer := .start msg false }, none) := by
      rw [hqueue]
      unfold HPRingBuffer.step
      dsimp only
      rw [hidle]
    unfold onQueue
    dsimp only
    rw [hpush]
    exact ⟨⟨rfl, rfl, rfl, rfl, rfl, hdeliver⟩, .inr ⟨msg, rfl⟩⟩

/-- **The cases of a step.** -/
inductive Steps (m : FeedThreads) : ThreadAction → FeedThreads → Prop
  /-- A call of a thread that is in one. -/
  | busy (c : MDCall) : Steps m (.call c) m
  | submitted (c : MDCall) (hc : c.message?.isSome) (hidle : m.engine.mdQueue.producer = .idle) :
      Steps m (.call c) (m.submit c)
  | processed (hidle : m.publisher = .idle) : Steps m (.call .processPending) m.tryPop
  | fed (m' : FeedThreads) (h : Feeds m m') : Steps m .feed m'
  | published (m' : FeedThreads) (h : Publishes m m') : Steps m .publish m'

theorem step_cases (m : FeedThreads) (a : ThreadAction) : Steps m a (m.step a) := by
  cases a with
  | feed => exact .fed _ m.feed_cases.1
  | publish => exact .published _ m.publish_cases.1
  | call c =>
    have hupdate : c.message?.isSome → Steps m (.call c) (match m.engine.mdQueue.producer with
        | .idle => m.submit c
        | _ => m) := by
      intro hc
      cases hp : m.engine.mdQueue.producer with
      | idle => exact .submitted c hc hp
      | _ => exact .busy c
    cases c with
    | processPending =>
      unfold step
      cases hpub : m.publisher with
      | idle => exact .processed hpub
      | _ => exact .busy _
    | _ => exact hupdate rfl

end FeedThreads

end HftSdk
