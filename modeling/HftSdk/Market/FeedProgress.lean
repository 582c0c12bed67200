import HftSdk.Market.PublisherThread

/-!
# Neither thread waits for the other

`try_push` and `try_pop` do not wait, and neither do the feed and the publisher. `run_unhindered`: an
update returns within four steps of the feed, whatever the publisher does; and a publisher that is in
`process_pending` hands over everything that is stored within a number of its own steps, which grows
with what is stored and with the number of handlers, whatever the feed does.
-/

namespace HftSdk

/-- The most handlers that a message may have. -/
def MarketDataEngine.handlersMax (e : MarketDataEngine) : Nat :=
  max e.l1Handlers (max e.l2Handlers e.tradeHandlers)

theorem MarketDataEngine.deliver_length_le (e : MarketDataEngine) (msg : MarketDataMessage) :
    (e.deliver msg).length ≤ e.handlersMax := by
  unfold deliver handlersMax
  cases msg.type <;> rw [List.length_map, List.length_range] <;> omega

def ThreadAction.isFeed : ThreadAction → Bool
  | .feed => true
  | _ => false

def ThreadAction.isPublish : ThreadAction → Bool
  | .publish => true
  | _ => false

namespace FeedThreads

variable {m m' : FeedThreads} {e : MarketDataEngine}

/-! ## What the threads leave to each other -/

theorem Feeds.publish_frame (h : Feeds m m') : m'.engine.mdQueue.consumer = m.engine.mdQueue.consumer ∧
    m'.publisher = m.publisher ∧ m'.popped = m.popped := by
  cases h with
  | on mdQueue hconsumer | returned mdQueue hconsumer => exact ⟨hconsumer, rfl, rfl⟩

theorem Publishes.feed_frame (h : Publishes m m') :
    m'.engine.mdQueue.producer = m.engine.mdQueue.producer ∧ m'.fates = m.fates := by
  cases h with
  | begun => exact ⟨(m.engine.mdQueue.step_pop id false).1, rfl⟩
  | on mdQueue hproducer | popped mdQueue hproducer | returned mdQueue hproducer =>
    exact ⟨hproducer, rfl⟩
  | outside | handed => exact ⟨rfl, rfl⟩

/-! ## Calls that do not wait -/

/-- **No call waits**, and the publisher is in a `try_pop` when it says so. -/
structure Prompt (e : MarketDataEngine) (m : FeedThreads) : Prop extends Inv e m where
  producer : m.engine.mdQueue.producer.waits = false
  consumer : m.engine.mdQueue.consumer.waits = false
  popping : m.publisher = .popping → 0 < m.engine.mdQueue.consumer.phase
  outside : m.publisher ≠ .popping → m.engine.mdQueue.consumer = .idle
  rest : m.publisher.rest.length ≤ e.handlersMax

theorem Prompt.tryPop (h : Prompt e m) (hrest : m.publisher.rest = [])
    (hne : m.publisher ≠ .popping) : Prompt e m.tryPop := by
  obtain ⟨hproducer, -, hconsumer⟩ := m.engine.mdQueue.step_pop id false
  have hstart : m.tryPop.engine.mdQueue.consumer = .start false := hconsumer (h.outside hne)
  refine ⟨h.toInv.tryPop hrest, ?_, ?_, fun _ => ?_, fun hout => absurd rfl hout, Nat.zero_le _⟩
  · have hsame : m.tryPop.engine.mdQueue.producer = m.engine.mdQueue.producer := hproducer
    rw [hsame]
    exact h.producer
  · rw [hstart]
    rfl
  · rw [hstart]
    exact Nat.succ_pos _

theorem Prompt.feed (h : Prompt e m) (hinv : Inv e m')
    (hwaits : m'.engine.mdQueue.producer.waits = false)
    (hframe : m'.engine.mdQueue.consumer = m.engine.mdQueue.consumer ∧ m'.publisher = m.publisher ∧
      m'.popped = m.popped) : Prompt e m' := by
  obtain ⟨hconsumer, hpublisher, -⟩ := hframe
  refine ⟨hinv, hwaits, ?_, ?_, ?_, ?_⟩
  · rw [hconsumer]
    exact h.consumer
  · rw [hpublisher, hconsumer]
    exact h.popping
  · rw [hpublisher, hconsumer]
    exact h.outside
  · rw [hpublisher]
    exact h.rest

theorem Prompt.step (h : Prompt e m) (a : ThreadAction) : Prompt e (m.step a) := by
  have hinv := h.toInv.step a
  have hcases := m.step_cases a
  generalize m.step a = m' at hinv hcases
  cases hcases with
  | busy c => exact h
  | submitted c hc hidle =>
    obtain ⟨hframe, hstart⟩ := submit_cases hidle c
    refine h.feed hinv ?_ ⟨hframe.consumer, hframe.publisher, hframe.popped⟩
    rcases hstart with hstart | ⟨msg, hstart⟩ <;> rw [hstart] <;> rfl
  | processed hidle => exact h.tryPop (by rw [hidle]; rfl) (by rw [hidle]; exact fun hp => by cases hp)
  | fed m' hfed =>
    refine h.feed hinv ?_ hfed.publish_frame
    cases hfed with
    | on mdQueue hconsumer hitem hphase => exact (hphase h.producer).1
    | returned mdQueue hconsumer msg b hitem hidle hfull =>
      rw [hidle]
      rfl
  | published m' hpub =>
    cases hpub with
    | outside => exact h
    | handed d rest hhanding =>
      have hrest := h.rest
      have hout := h.outside (by rw [hhanding]; exact fun hp => by cases hp)
      rw [hhanding] at hrest
      exact ⟨hinv, h.producer, h.consumer, fun hp => (by cases hp), fun _ => hout,
        (Nat.le_succ _).trans hrest⟩
    | begun hhanding =>
      exact h.tryPop (by rw [hhanding]; rfl) (by rw [hhanding]; exact fun hp => by cases hp)
    | on mdQueue hproducer hpopping hphase =>
      obtain ⟨hwait, hdown⟩ := hphase h.consumer
      exact ⟨hinv, by rw [hproducer]; exact h.producer, hwait,
        fun _ => (hdown (h.popping hpopping)).1, fun hout => absurd hpopping hout, h.rest⟩
    | popped mdQueue hproducer msg hidle hpopping =>
      refine ⟨hinv, by rw [hproducer]; exact h.producer, by rw [hidle]; rfl,
        fun hp => (by cases hp), fun _ => hidle, ?_⟩
      change (m.engine.deliver msg).length ≤ _
      rw [h.deliver]
      exact e.deliver_length_le msg
    | returned mdQueue hproducer hidle hpopping hempty =>
      exact ⟨hinv, by rw [hproducer]; exact h.producer, by rw [hidle]; rfl,
        fun hp => (by cases hp), fun _ => hidle, Nat.zero_le _⟩

/-! ## The feed -/

theorem Prompt.returned (h : Prompt e m) {msg : MarketDataMessage}
    (hitem : m.engine.mdQueue.producer.item? = some msg) {acts : List ThreadAction}
    (hacts : m.engine.mdQueue.producer.phase ≤ acts.countP ThreadAction.isFeed) :
    ∃ b, m.fates ++ [(msg, b)] <+: (m.run acts).fates := by
  induction acts generalizing m with
  | nil => exact absurd (HPRingBuffer.Producer.phase_pos hitem) (Nat.not_lt.mpr hacts)
  | cons a acts ih =>
    have hprompt := h.step a
    have hcases := m.step_cases a
    change ∃ b, m.fates ++ [(msg, b)] <+: ((m.step a).run acts).fates
    -- a step that leaves the call alone
    have hsame : a.isFeed = false →
        (m.step a).engine.mdQueue.producer = m.engine.mdQueue.producer ∧
          (m.step a).fates = m.fates →
        ∃ b, m.fates ++ [(msg, b)] <+: ((m.step a).run acts).fates := by
      rintro ha ⟨hproducer, hfates⟩
      rw [List.countP_cons, if_neg (by rw [ha]; decide)] at hacts
      rw [← hfates]
      exact ih hprompt (by rw [hproducer, hitem]) (by rw [hproducer]; exact hacts)
    generalize m.step a = m' at hprompt hcases hsame
    cases hcases with
    | busy c => exact hsame rfl ⟨rfl, rfl⟩
    | submitted c hc hidle =>
      rw [hidle] at hitem
      cases hitem
    | processed hidle => exact hsame rfl ⟨(m.engine.mdQueue.step_pop id false).1, rfl⟩
    | published m' hpub => exact hsame rfl hpub.feed_frame
    | fed m' hfed =>
      rw [List.countP_cons, if_pos (show ThreadAction.feed.isFeed = true from rfl)] at hacts
      cases hfed with
      | on mdQueue hconsumer hitem' hphase =>
        have hdown := (hphase h.producer).2
        exact ih hprompt (hitem'.trans hitem) (hdown.trans (Nat.sub_le_of_le_add hacts))
      | returned mdQueue hconsumer msg' b hitem' hidle hfull =>
        obtain rfl := Option.some_inj.mp (hitem'.symm.trans hitem)
        have hgrows := grows_run { m with
          engine := { m.engine with mdQueue }, fates := m.fates ++ [(msg', b)] } acts
        exact ⟨b, hgrows.fates⟩

/-! ## The publisher -/

/-- How many steps of its own the publisher has before it until it pops, when there is a message. -/
def toPop (m : FeedThreads) : Nat :=
  match m.publisher with
  | .idle => 0
  | .popping => m.engine.mdQueue.consumer.phase
  | .handing rest => rest.length + 5

/-- How many until it has handed over the first `n` messages, when none has more than `handlers`
handlers. -/
def due (handlers n : Nat) (m : FeedThreads) : Nat :=
  if m.popped.length < n then
    m.toPop + (n - 1 - m.popped.length) * (handlers + 5) + handlers
  else m.publisher.rest.length

theorem due_of_lt {handlers n : Nat} (h : m.popped.length < n) : m.due handlers n =
    m.toPop + (n - 1 - m.popped.length) * (handlers + 5) + handlers := if_pos h

theorem due_of_le {handlers n : Nat} (h : n ≤ m.popped.length) :
    m.due handlers n = m.publisher.rest.length := if_neg (Nat.not_lt.mpr h)

theorem lt_of_due {handlers n : Nat} (hrest : m.publisher.rest = []) (hdue : 0 < m.due handlers n) :
    m.popped.length < n := by
  apply Nat.not_le.mp
  intro hle
  rw [due_of_le hle, hrest] at hdue
  exact Nat.lt_irrefl _ hdue

/-- **What is owed**: messages that were pushed, as long as the publisher is in `process_pending` or
has popped them. -/
structure Owes (e : MarketDataEngine) (l : List MarketDataMessage) (m : FeedThreads) : Prop
    extends Prompt e m where
  pushed : l <+: m.pushed
  length : m.popped.length ≤ l.length
  inside : m.popped.length < l.length → m.publisher ≠ .idle

variable {l : List MarketDataMessage}

theorem Owes.delivered (h : Owes e l m) (hdue : m.due e.handlersMax l.length = 0) :
    l.flatMap e.deliver <+: m.delivered := by
  by_cases hlt : m.popped.length < l.length
  · -- a message to be popped is a step to be made
    rw [due_of_lt hlt] at hdue
    have hpop : 0 < m.toPop := by
      have hinside := h.inside hlt
      unfold toPop
      cases hpub : m.publisher with
      | idle => exact absurd hpub hinside
      | popping => exact h.popping hpub
      | handing rest => exact Nat.succ_pos _
    omega
  · have hle := Nat.not_lt.mp hlt
    rw [due_of_le hle] at hdue
    have hfifo : m.popped <+: m.pushed := h.queue.fifo
    have hall : m.popped = l :=
      (List.prefix_of_prefix_length_le hfifo h.pushed h.length).eq_of_length_le hle
    have hhanded := h.handed
    rw [List.length_eq_zero_iff.mp hdue, List.append_nil, hall] at hhanded
    rw [hhanded]

theorem Owes.not_idle (h : Owes e l m) (hdue : 0 < m.due e.handlersMax l.length) :
    m.publisher ≠ .idle := fun hidle =>
  h.inside (lt_of_due (by rw [hidle]; rfl) hdue) hidle

theorem Owes.publish (h : Owes e l m) (hdue : 0 < m.due e.handlersMax l.length)
    (hcases : Publishes m m') (hprompt : Prompt e m') (hpushed : l <+: m'.pushed) :
    Owes e l m' ∧ m'.due e.handlersMax l.length < m.due e.handlersMax l.length := by
  have hlength := h.length
  cases hcases with
  | outside hidle => exact absurd hidle (h.not_idle hdue)
  | handed d rest hhanding =>
    refine ⟨⟨hprompt, hpushed, hlength, fun _ hp => by cases hp⟩, ?_⟩
    unfold due toPop
    dsimp only
    rw [hhanding]
    split_ifs
    · simp only [List.length_cons]
      omega
    · exact Nat.lt_succ_self _
  | begun hhanding =>
    refine ⟨⟨hprompt, hpushed, hlength, fun _ hp => by cases hp⟩, ?_⟩
    have hstart := (m.engine.mdQueue.step_pop id false).2.2
      (h.outside (by rw [hhanding]; exact fun hp => by cases hp))
    have hlt : m.popped.length < l.length := lt_of_due (by rw [hhanding]; rfl) hdue
    have hlt' : m.tryPop.popped.length < l.length := hlt
    have hpop : m.toPop = 5 := by
      unfold toPop
      rw [hhanding]
      rfl
    have hpop' : m.tryPop.toPop = 4 := by
      change (m.engine.mdQueue.step id (.pop false)).1.consumer.phase = 4
      rw [hstart]
      rfl
    rw [due_of_lt hlt, due_of_lt hlt', hpop, hpop']
    change 4 + (l.length - 1 - m.popped.length) * _ + _ < _
    omega
  | on mdQueue hproducer hpopping hphase =>
    refine ⟨⟨hprompt, hpushed, hlength, fun _ hp => by rw [hpopping] at hp; cases hp⟩, ?_⟩
    have hdown := ((hphase h.consumer).2 (h.popping hpopping)).2
    have hlt : m.popped.length < l.length := lt_of_due (by rw [hpopping]; rfl) hdue
    rw [due_of_lt hlt]
    unfold due toPop
    dsimp only
    rw [hpopping, if_pos hlt]
    dsimp only
    omega
  | popped mdQueue hproducer msg hidle hpopping =>
    have hphase := h.popping hpopping
    have hlt : m.popped.length < l.length := lt_of_due (by rw [hpopping]; rfl) hdue
    have hhandlers : (m.engine.deliver msg).length ≤ e.handlersMax := by
      rw [h.deliver]
      exact e.deliver_length_le msg
    refine ⟨⟨hprompt, hpushed, ?_, fun _ hp => by cases hp⟩, ?_⟩
    · rw [List.length_append, List.length_singleton]
      exact hlt
    · rw [due_of_lt hlt]
      unfold due toPop
      dsimp only
      rw [hpopping, List.length_append, List.length_singleton]
      dsimp only
      split_ifs with hmore
      · -- the messages that are left are one fewer
        have hone : l.length - 1 - m.popped.length = l.length - 1 - (m.popped.length + 1) + 1 := by
          omega
        rw [hone, Nat.succ_mul]
        omega
      · change (m.engine.deliver msg).length < _
        omega
  | returned mdQueue hproducer hidle hpopping hempty =>
    -- an empty buffer: nothing was left to pop
    exfalso
    have hzero : m.pushed.length - m.popped.length = 0 := (h.queue.correct id).empty hempty
    have hlt : m.popped.length < l.length := lt_of_due (by rw [hpopping]; rfl) hdue
    have hle := h.pushed.length_le
    omega

theorem Owes.frame (h : Owes e l m) (hprompt : Prompt e m') (hpushed : l <+: m'.pushed)
    (hframe : m'.engine.mdQueue.consumer = m.engine.mdQueue.consumer ∧ m'.publisher = m.publisher ∧
      m'.popped = m.popped) :
    Owes e l m' ∧ m'.due e.handlersMax l.length = m.due e.handlersMax l.length := by
  obtain ⟨hconsumer, hpublisher, hpopped⟩ := hframe
  refine ⟨⟨hprompt, hpushed, by rw [hpopped]; exact h.length, ?_⟩, ?_⟩
  · rw [hpopped, hpublisher]
    exact h.inside
  · unfold due toPop
    rw [hpopped, hpublisher, hconsumer]

theorem Owes.run (h : Owes e l m) {acts : List ThreadAction}
    (hacts : m.due e.handlersMax l.length ≤ acts.countP ThreadAction.isPublish) :
    l.flatMap e.deliver <+: (m.run acts).delivered := by
  induction acts generalizing m with
  | nil => exact h.delivered (Nat.le_zero.mp hacts)
  | cons a acts ih =>
    rcases Nat.eq_zero_or_pos (m.due e.handlersMax l.length) with hzero | hdue
    · exact (h.delivered hzero).trans (m.grows_run (a :: acts)).delivered
    · have hprompt := h.toPrompt.step a
      have hpushed := h.pushed.trans (m.grows_step a).pushed
      have hcases := m.step_cases a
      change l.flatMap e.deliver <+: ((m.step a).run acts).delivered
      -- the steps of the feed
      have hsame : a.isPublish = false →
          (m.step a).engine.mdQueue.consumer = m.engine.mdQueue.consumer ∧
            (m.step a).publisher = m.publisher ∧ (m.step a).popped = m.popped →
          l.flatMap e.deliver <+: ((m.step a).run acts).delivered := by
        intro ha hframe
        obtain ⟨howes, hdue'⟩ := h.frame hprompt hpushed hframe
        rw [List.countP_cons, if_neg (by rw [ha]; decide)] at hacts
        exact ih howes (by rw [hdue']; exact hacts)
      generalize m.step a = m' at hprompt hpushed hcases hsame
      cases hcases with
      | busy c => exact hsame rfl ⟨rfl, rfl, rfl⟩
      | submitted c hc hidle =>
        have hframe := (submit_cases hidle c).1
        exact hsame rfl ⟨hframe.consumer, hframe.publisher, hframe.popped⟩
      | processed hidle => exact absurd hidle (h.not_idle hdue)
      | fed m' hfed => exact hsame rfl hfed.publish_frame
      | published m' hpub =>
        obtain ⟨howes, hless⟩ := h.publish hdue hpub hprompt hpushed
        rw [List.countP_cons, if_pos (show ThreadAction.publish.isPublish = true from rfl)] at hacts
        exact ih howes (Nat.le_of_lt_succ (hless.trans_le hacts))

theorem Prompt.due_le (h : Prompt e m) :
    m.due e.handlersMax m.pushed.length ≤ (m.queue.stored + 1) * (e.handlersMax + 5) := by
  have hrest := h.rest
  have hstored : m.queue.stored = m.pushed.length - m.popped.length := rfl
  have hpop : m.toPop ≤ e.handlersMax + 5 := by
    unfold toPop
    cases hpub : m.publisher with
    | idle => exact Nat.zero_le _
    | popping => exact (HPRingBuffer.Consumer.phase_le _).trans (by omega)
    | handing rest =>
      rw [hpub] at hrest
      exact Nat.add_le_add_right hrest 5
  by_cases hlt : m.popped.length < m.pushed.length
  · have hone : m.queue.stored = m.pushed.length - 1 - m.popped.length + 1 := by omega
    rw [due_of_lt hlt, hone, Nat.succ_mul, Nat.succ_mul]
    omega
  · rw [due_of_le (Nat.not_lt.mp hlt), Nat.succ_mul]
    omega

/-! ## Both of them -/

/-- **What each thread is sure of**, whatever the other does. -/
structure Unhindered (e : MarketDataEngine) (m : FeedThreads) : Prop where
  /-- An update in progress returns within four steps of the feed. -/
  returns : ∀ msg acts, m.engine.mdQueue.producer.item? = some msg →
    4 ≤ acts.countP ThreadAction.isFeed → ∃ b, m.fates ++ [(msg, b)] <+: (m.run acts).fates
  /-- A `process_pending` in progress hands over what is stored. -/
  hands : ∀ acts, m.publisher ≠ .idle →
    (m.queue.stored + 1) * (e.handlersMax + 5) ≤ acts.countP ThreadAction.isPublish →
    m.pushed.flatMap e.deliver <+: (m.run acts).delivered

theorem prompt_start (throttleNs : UInt64) (l1Handlers l2Handlers tradeHandlers : Nat) :
    Prompt (.configured throttleNs l1Handlers l2Handlers tradeHandlers)
      (start throttleNs l1Handlers l2Handlers tradeHandlers) :=
  ⟨inv_start _ _ _ _, rfl, rfl, fun h => (by cases h), fun _ => rfl, Nat.zero_le _⟩

/-- **Neither thread waits for the other**, in any state that their steps lead to. -/
theorem run_unhindered (throttleNs : UInt64) (l1Handlers l2Handlers tradeHandlers : Nat)
    (acts : List ThreadAction) :
    Unhindered (.configured throttleNs l1Handlers l2Handlers tradeHandlers)
      ((start throttleNs l1Handlers l2Handlers tradeHandlers).run acts) := by
  have h : Prompt (.configured throttleNs l1Handlers l2Handlers tradeHandlers)
      ((start throttleNs l1Handlers l2Handlers tradeHandlers).run acts) :=
    Run.invariant (fun _ a h => h.step a) acts
      (prompt_start throttleNs l1Handlers l2Handlers tradeHandlers)
  generalize (start throttleNs l1Handlers l2Handlers tradeHandlers).run acts = m at h
  constructor
  · intro msg acts hitem hfour
    exact h.returned hitem ((HPRingBuffer.Producer.phase_le _).trans hfour)
  · intro acts hinside hacts
    have howes : Owes (.configured throttleNs l1Handlers l2Handlers tradeHandlers) m.pushed m :=
      ⟨h, List.prefix_rfl, h.queue.fifo.length_le, fun _ => hinside⟩
    exact howes.run (h.due_le.trans hacts)

end FeedThreads

end HftSdk
