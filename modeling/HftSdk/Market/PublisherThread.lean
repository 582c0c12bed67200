import HftSdk.Market.FeedThreads

/-!
# The publisher thread

`run_conveyed`: whatever the feed and the publisher do, the throttle says what it would in one thread,
and what it lets through is pushed, popped and handed over in order; a message is lost only when the
buffer is full. `flushed`: when `process_pending` returns, everything that was pushed before it was
called has been handed over.
-/

namespace HftSdk

open HPRingBuffer (Traced)

namespace FeedThreads

variable {m m' : FeedThreads} {e : MarketDataEngine}

/-! ## The invariant -/

/-- **The invariant**, for an engine `e` at the start: the queue is sound, the throttle is where it
would be in one thread, and every message is where it should be. -/
structure Inv (e : MarketDataEngine) (m : FeedThreads) : Prop where
  queue : HPRingBuffer.Inv m.queue
  gate : m.engine.gateState = (e.run m.calls).gateState
  fates : m.fates.map Prod.fst ++ m.engine.mdQueue.producer.item?.toList =
    (e.unthrottled m.calls).filterMap MDCall.message?
  handed : m.delivered ++ m.publisher.rest = m.popped.flatMap e.deliver
  deliver : m.engine.deliver = e.deliver
  published : m.engine.messagesPublished = m.popped.length

theorem Inv.tryPop (h : Inv e m) (hrest : m.publisher.rest = []) : Inv e m.tryPop where
  queue := by
    rw [queue_tryPop]
    exact h.queue.step id _
  gate := h.gate
  fates := by
    have hproducer : m.tryPop.engine.mdQueue.producer = m.engine.mdQueue.producer :=
      (m.engine.mdQueue.step_pop id false).1
    rw [hproducer]
    exact h.fates
  handed := by
    have hhanded := h.handed
    rw [hrest] at hhanded
    exact hhanded
  deliver := h.deliver
  published := h.published

theorem Inv.submit (h : Inv e m) (hidle : m.engine.mdQueue.producer = .idle) {c : MDCall}
    (hc : c.message?.isSome) : Inv e (m.submit c) := by
  obtain ⟨hsame, hgate⟩ := MarketDataEngine.throttle_congr h.gate c
  obtain ⟨hqueue, hdeliver, hpublished⟩ := m.engine.throttle_frame c
  have hrun : e.run (m.calls ++ [c]) = ((e.run m.calls).step c).2 := Run.final_append _ _ _
  have hgate' : (m.engine.throttle c).1.gateState = (e.run (m.calls ++ [c])).gateState := by
    rw [hrun, MarketDataEngine.gateState_step _ hc, hgate]
  have hold : m.fates.map Prod.fst = (e.unthrottled m.calls).filterMap MDCall.message? := by
    rw [← h.fates, hidle]
    exact (List.append_nil _).symm
  have hfates : m.fates.map Prod.fst ++ (m.engine.throttle c).2.toList =
      (e.unthrottled (m.calls ++ [c])).filterMap MDCall.message? := by
    rw [MarketDataEngine.unthrottled_append, List.filterMap_append,
      MarketDataEngine.unthrottled_eq_throttle _ hc, ← hsame, hold]
  unfold FeedThreads.submit
  generalize m.engine.throttle c = r at hqueue hdeliver hpublished hgate' hfates
  obtain ⟨engine, admitted⟩ := r
  dsimp only at hqueue hdeliver hpublished hgate' hfates ⊢
  have hdeliver' := hdeliver.trans h.deliver
  have hpublished' := hpublished.trans h.published
  cases admitted with
  | none =>
    refine ⟨?_, hgate', ?_, h.handed, hdeliver', hpublished'⟩
    · unfold FeedThreads.queue
      dsimp only
      rw [hqueue]
      exact h.queue
    · dsimp only
      rw [hqueue, hidle]
      exact hfates
  | some msg =>
    -- the push that begins
    have hpush : engine.mdQueue.step id (.push msg false) =
        ({ m.engine.mdQueue with producer := .start msg false }, none) := by
      rw [hqueue]
      unfold HPRingBuffer.step
      dsimp only
      rw [hidle]
    unfold onQueue
    dsimp only
    rw [hpush]
    exact ⟨h.queue.setProducer trivial, hgate', hfates, h.handed, hdeliver', hpublished'⟩

theorem inv_queue_feed (h : HPRingBuffer.Inv m.queue) : HPRingBuffer.Inv m.feed.queue := by
  rw [m.feed_cases.2]
  exact h.step id .produce

theorem inv_queue_publish (h : HPRingBuffer.Inv m.queue) : HPRingBuffer.Inv m.publish.queue := by
  rw [m.publish_cases.2]
  split
  · exact h
  · exact h
  · exact h.step id .consume
  · exact h.step id _

theorem Inv.feed (h : Inv e m) (hcases : Feeds m m') (hinv : HPRingBuffer.Inv m'.queue) : Inv e m' := by
  have hfates := h.fates
  cases hcases with
  | on mdQueue hconsumer hitem hphase =>
    refine ⟨hinv, h.gate, ?_, h.handed, h.deliver, h.published⟩
    dsimp only
    rw [hitem]
    exact hfates
  | returned mdQueue hconsumer msg b hitem hidle hfull =>
    refine ⟨hinv, h.gate, ?_, h.handed, h.deliver, h.published⟩
    dsimp only
    rw [hitem] at hfates
    rw [hidle, List.map_append, ← hfates]
    exact List.append_nil _

theorem Inv.publish (h : Inv e m) (hcases : Publishes m m') (hinv : HPRingBuffer.Inv m'.queue) :
    Inv e m' := by
  have hhanded := h.handed
  have hfates : ∀ mdQueue : HPRingBuffer MarketDataMessage mdQueueSize,
      mdQueue.producer = m.engine.mdQueue.producer →
      m.fates.map Prod.fst ++ mdQueue.producer.item?.toList =
        (e.unthrottled m.calls).filterMap MDCall.message? := fun mdQueue hproducer => by
    rw [hproducer]
    exact h.fates
  cases hcases with
  | outside => exact h
  | handed d rest hhanding =>
    refine ⟨hinv, h.gate, h.fates, ?_, h.deliver, h.published⟩
    rw [hhanding] at hhanded
    rw [← hhanded]
    exact List.append_assoc _ [d] rest
  | begun hhanding => exact h.tryPop (by rw [hhanding]; rfl)
  | on mdQueue hproducer hpopping hphase =>
    exact ⟨hinv, h.gate, hfates mdQueue hproducer, hhanded, h.deliver, h.published⟩
  | popped mdQueue hproducer msg hidle hpopping =>
    refine ⟨hinv, h.gate, hfates mdQueue hproducer, ?_, h.deliver, ?_⟩
    · rw [hpopping] at hhanded
      dsimp only
      rw [List.flatMap_append, ← hhanded, h.deliver, List.flatMap_singleton]
      exact congrArg (· ++ e.deliver msg) (List.append_nil _).symm
    · dsimp only
      rw [List.length_append, h.published]
      rfl
  | returned mdQueue hproducer hidle hpopping hempty =>
    rw [hpopping] at hhanded
    exact ⟨hinv, h.gate, hfates mdQueue hproducer, hhanded, h.deliver, h.published⟩

theorem Inv.step (h : Inv e m) (a : ThreadAction) : Inv e (m.step a) := by
  have hcases := m.step_cases a
  have hinv : a = .feed ∨ a = .publish → HPRingBuffer.Inv (m.step a).queue := by
    rintro (rfl | rfl)
    · exact inv_queue_feed h.queue
    · exact inv_queue_publish h.queue
  generalize m.step a = m' at hcases hinv
  cases hcases with
  | busy c => exact h
  | submitted c hc hidle => exact h.submit hidle hc
  | processed hidle => exact h.tryPop (by rw [hidle]; rfl)
  | fed m' hfed => exact h.feed hfed (hinv (.inl rfl))
  | published m' hpub => exact h.publish hpub (hinv (.inr rfl))

/-- A new engine with its threads. -/
def start (throttleNs : UInt64) (l1Handlers l2Handlers tradeHandlers : Nat) : FeedThreads where
  engine := .configured throttleNs l1Handlers l2Handlers tradeHandlers

theorem inv_start (throttleNs : UInt64) (l1Handlers l2Handlers tradeHandlers : Nat) :
    Inv (.configured throttleNs l1Handlers l2Handlers tradeHandlers)
      (start throttleNs l1Handlers l2Handlers tradeHandlers) :=
  ⟨HPRingBuffer.inv_create _, rfl, rfl, rfl, rfl, rfl⟩

theorem inv_run (throttleNs : UInt64) (l1Handlers l2Handlers tradeHandlers : Nat)
    (acts : List ThreadAction) :
    Inv (.configured throttleNs l1Handlers l2Handlers tradeHandlers)
      ((start throttleNs l1Handlers l2Handlers tradeHandlers).run acts) :=
  Run.invariant (fun _ a h => h.step a) acts
    (inv_start throttleNs l1Handlers l2Handlers tradeHandlers)

/-! ## Every update is conveyed -/

theorem Inv.full_of_lost (h : Inv e m) {a : ThreadAction} {msg : MarketDataMessage}
    (hlost : (m.step a).fates = m.fates ++ [(msg, false)]) :
    m.queue.stored = mdQueueSize.size - 1 := by
  have hsame : (m.step a).fates ≠ m.fates := fun hsame => by
    have hlength := congrArg List.length (hsame.symm.trans hlost)
    rw [List.length_append, List.length_singleton] at hlength
    omega
  have hcases := m.step_cases a
  generalize m.step a = m' at hcases hlost hsame
  cases hcases with
  | busy c => exact absurd rfl hsame
  | submitted c hc hidle => exact absurd (submit_cases hidle c).1.fates hsame
  | processed hidle => exact absurd rfl hsame
  | published m' hpub => cases hpub <;> exact absurd rfl hsame
  | fed m' hfed =>
    cases hfed with
    | on => exact absurd rfl hsame
    | returned mdQueue hconsumer msg' b hitem hidle hfull =>
      have heq := List.append_cancel_left hlost
      rw [List.cons.injEq, Prod.mk.injEq] at heq
      exact (h.queue.correct id).full (hfull heq.1.2)

/-- **Where the updates are**, at any moment. -/
structure Conveyed (e : MarketDataEngine) (m : FeedThreads) : Prop where
  /-- What the throttle would let through in one thread was pushed or lost, or is being pushed. -/
  fates : m.fates.map Prod.fst ++ m.engine.mdQueue.producer.item?.toList =
    (e.unthrottled m.calls).filterMap MDCall.message?
  /-- What was pushed is popped in order, or stored. -/
  fifo : m.popped <+: m.pushed
  capacity : m.queue.stored ≤ mdQueueSize.size - 1
  /-- What was popped is handed to its handlers, one after the other. -/
  handed : m.delivered ++ m.publisher.rest = m.popped.flatMap e.deliver
  published : m.engine.messagesPublished = m.popped.length
  throttled : m.engine.messagesThrottled = (e.run m.calls).messagesThrottled

theorem Inv.conveyed (h : Inv e m) : Conveyed e m where
  fates := h.fates
  fifo := h.queue.fifo
  capacity := (h.queue.correct id).capacity
  handed := h.handed
  published := h.published
  throttled := congrArg (fun g => g.2.2) h.gate

/-- **Every update is conveyed** under every interleaving of the two threads, and none is lost but to a
full buffer. -/
theorem run_conveyed (throttleNs : UInt64) (l1Handlers l2Handlers tradeHandlers : Nat)
    (acts : List ThreadAction) :
    Conveyed (.configured throttleNs l1Handlers l2Handlers tradeHandlers)
        ((start throttleNs l1Handlers l2Handlers tradeHandlers).run acts) ∧
      Run.Along step (fun m a => ∀ msg, (m.step a).fates = m.fates ++ [(msg, false)] →
        m.queue.stored = mdQueueSize.size - 1)
        (start throttleNs l1Handlers l2Handlers tradeHandlers) acts := by
  refine ⟨(inv_run throttleNs l1Handlers l2Handlers tradeHandlers acts).conveyed, ?_⟩
  have htrue : Run.Along step (fun _ _ => True)
      (start throttleNs l1Handlers l2Handlers tradeHandlers) acts :=
    Run.along_of_forall (fun _ _ => trivial) _ acts
  exact htrue.imp (fun m a h _ => ⟨h.step a, fun _ => h.full_of_lost⟩)
    (inv_start throttleNs l1Handlers l2Handlers tradeHandlers)

/-! ## What `process_pending` promises -/

/-- Nothing that was pushed, popped or handed over is taken back. -/
structure Grows (m m' : FeedThreads) : Prop where
  fates : m.fates <+: m'.fates
  popped : m.popped <+: m'.popped
  delivered : m.delivered <+: m'.delivered

theorem Grows.pushed (h : Grows m m') : m.pushed <+: m'.pushed := by
  obtain ⟨rest, hrest⟩ := h.fates
  unfold FeedThreads.pushed
  rw [← hrest, List.filter_append, List.map_append]
  exact List.prefix_append _ _

theorem Grows.of_eq (hfates : m'.fates = m.fates) (hpopped : m'.popped = m.popped)
    (hdelivered : m'.delivered = m.delivered) : Grows m m' where
  fates := by rw [hfates]
  popped := by rw [hpopped]
  delivered := by rw [hdelivered]

theorem grows_step (m : FeedThreads) (a : ThreadAction) : Grows m (m.step a) := by
  have hcases := m.step_cases a
  generalize m.step a = m' at hcases
  cases hcases with
  | busy c => exact .of_eq rfl rfl rfl
  | submitted c hc hidle =>
    have hframe := (submit_cases hidle c).1
    exact .of_eq hframe.fates hframe.popped hframe.delivered
  | processed hidle => exact .of_eq rfl rfl rfl
  | fed m' hfed =>
    cases hfed with
    | on => exact .of_eq rfl rfl rfl
    | returned => exact ⟨List.prefix_append _ _, List.prefix_rfl, List.prefix_rfl⟩
  | published m' hpub =>
    cases hpub with
    | popped => exact ⟨List.prefix_rfl, List.prefix_append _ _, List.prefix_rfl⟩
    | handed => exact ⟨List.prefix_rfl, List.prefix_rfl, List.prefix_append _ _⟩
    | _ => exact .of_eq rfl rfl rfl

theorem grows_run (m : FeedThreads) (acts : List ThreadAction) : Grows m (m.run acts) := by
  refine Run.invariant (fun m' a h => ?_) acts (.of_eq rfl rfl rfl)
  have hstep := m'.grows_step a
  exact ⟨h.fates.trans hstep.fates, h.popped.trans hstep.popped, h.delivered.trans hstep.delivered⟩

theorem idle_of_step {a : ThreadAction} (hidle : (m.step a).publisher = .idle) :
    m.publisher = .idle ∨ (m.engine.mdQueue.step id .consume).2 = some .empty := by
  have hcases := m.step_cases a
  generalize m.step a = m' at hcases hidle
  cases hcases with
  | busy c => exact .inl hidle
  | submitted c hc hp => exact .inl ((submit_cases hp c).1.publisher ▸ hidle)
  | processed hpub => exact .inl hpub
  | fed m' hfed => cases hfed <;> exact .inl hidle
  | published m' hpub =>
    cases hpub with
    | outside hpub => exact .inl hpub
    | on => exact .inl hidle
    | returned mdQueue hproducer hout hpopping hempty => exact .inr hempty
    | _ => cases hidle

/-- What is known of messages that were pushed once: they are, and popped if the publisher has come
out since. -/
structure Flushed (l : List MarketDataMessage) (e : MarketDataEngine) (m : FeedThreads) : Prop where
  inv : Inv e m
  pushed : l <+: m.pushed
  popped : m.publisher = .idle → l <+: m.popped

theorem Flushed.step {l : List MarketDataMessage} (h : Flushed l e m) (a : ThreadAction) :
    Flushed l e (m.step a) where
  inv := h.inv.step a
  pushed := h.pushed.trans (m.grows_step a).pushed
  popped hidle := by
    rcases idle_of_step hidle with hbefore | hempty
    · exact (h.popped hbefore).trans (m.grows_step a).popped
    · -- an empty buffer: everything pushed was popped
      have hzero := (h.inv.queue.correct id).empty hempty
      have hfifo : m.popped <+: m.pushed := h.inv.queue.fifo
      have hall : m.popped = m.pushed := by
        refine hfifo.eq_of_length_le ?_
        unfold Traced.stored queue at hzero
        exact Nat.le_of_sub_eq_zero hzero
      exact (hall ▸ h.pushed).trans (m.grows_step a).popped

/-- Everything that was pushed is handed over, and that is everything the throttle lets through if
nothing was lost and the feed is outside. -/
structure HandedOver (e : MarketDataEngine) (m m' : FeedThreads) : Prop where
  pushed : m.pushed.flatMap e.deliver <+: m'.delivered
  unthrottled : m.engine.mdQueue.producer = .idle → (∀ x ∈ m.fates, x.2 = true) →
    ((e.unthrottled m.calls).filterMap MDCall.message?).flatMap e.deliver <+: m'.delivered

theorem Inv.handedOver (h : Inv e m) (hpushed : m.pushed.flatMap e.deliver <+: m'.delivered) :
    HandedOver e m m' where
  pushed := hpushed
  unthrottled hproducer hall := by
    have hfates := h.fates
    rw [hproducer] at hfates
    have hold := (List.append_nil _).symm.trans hfates
    unfold FeedThreads.pushed at hpushed
    rwa [List.filter_eq_self.mpr hall, hold] at hpushed

theorem Flushed.delivered {l : List MarketDataMessage} (h : Flushed l e m)
    (hidle : m.publisher = .idle) : l.flatMap e.deliver <+: m.delivered := by
  obtain ⟨rest, hrest⟩ := h.popped hidle
  have hhanded := h.inv.handed
  rw [hidle, ← hrest, List.flatMap_append] at hhanded
  have hall := (List.append_nil _).symm.trans hhanded
  rw [hall]
  exact List.prefix_append _ _

/-- **`process_pending` leaves nothing behind**: when it returns, all that was pushed before it was
called has been handed over, whatever the feed does meanwhile. -/
theorem flushed (throttleNs : UInt64) (l1Handlers l2Handlers tradeHandlers : Nat)
    (before after : List ThreadAction)
    (hidle : ((start throttleNs l1Handlers l2Handlers tradeHandlers).run before).publisher = .idle)
    (hreturned : (((start throttleNs l1Handlers l2Handlers tradeHandlers).run before).run
      (.call .processPending :: after)).publisher = .idle) :
    HandedOver (.configured throttleNs l1Handlers l2Handlers tradeHandlers)
      ((start throttleNs l1Handlers l2Handlers tradeHandlers).run before)
      (((start throttleNs l1Handlers l2Handlers tradeHandlers).run before).run
        (.call .processPending :: after)) := by
  have hinv := inv_run throttleNs l1Handlers l2Handlers tradeHandlers before
  generalize (start throttleNs l1Handlers l2Handlers tradeHandlers).run before = m
    at hinv hidle hreturned ⊢
  have hcalled : m.step (.call .processPending) = m.tryPop := by
    unfold step
    dsimp only
    rw [hidle]
  have hfirst : Flushed m.pushed (.configured throttleNs l1Handlers l2Handlers tradeHandlers)
      (m.step (.call .processPending)) := by
    refine ⟨hinv.step _, (m.grows_step _).pushed, fun h => ?_⟩
    rw [hcalled] at h
    cases h
  have hafter : Flushed m.pushed (.configured throttleNs l1Handlers l2Handlers tradeHandlers)
      (m.run (.call .processPending :: after)) :=
    Run.invariant (fun _ a h => h.step a) after hfirst
  exact hinv.handedOver (hafter.delivered hreturned)

/-- A trade is pushed, and a second one while the first is handed to two handlers. -/
theorem flushed_trade :
    let trade : Trade := ⟨1, 1, 2, 1, 2, {}, .buy, 10, 5, 0⟩
    let before : List ThreadAction := [.call (.onTrade trade 0), .feed, .feed, .feed, .feed]
    let after : List ThreadAction := [.publish, .publish, .publish, .publish, .call (.onTrade trade 1),
      .publish, .feed, .feed, .publish, .publish, .publish, .publish]
    HandedOver (.configured 0 0 0 2) ((start 0 0 0 2).run before)
      (((start 0 0 0 2).run before).run (.call .processPending :: after)) :=
  flushed 0 0 0 2 _ _ rfl rfl

end FeedThreads

end HftSdk
