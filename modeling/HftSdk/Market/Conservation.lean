import HftSdk.Market.MarketDataEngine
import HftSdk.Lib.Run

/-!
# Every message once

Along a run, what the throttle does not drop is queued and then delivered, in order and once to each
handler, for as long as no push finds the buffer full. `conserved_iff` says that this is exactly when
the numbers add up: a message that is not pushed is counted nowhere.
-/

namespace HftSdk

/-- What a handler of this kind is given for a call. -/
def MDCall.payload? : MDUpdateType → MDCall → Option MDPayload
  | .incrementalRefresh, .onTobUpdate tob _ => some (.tob tob)
  | .snapshotFull, .onDepthUpdate depth _ => some (.depth depth)
  | .tradeReport, .onTrade trade _ => some (.trade trade)
  | _, _ => none

/-- What a delivery gives to the handler with this number. -/
def Delivery.payload? : MDUpdateType → Nat → Delivery → Option MDPayload
  | .incrementalRefresh, h, .l1 handler payload => if handler = h then some payload else none
  | .snapshotFull, h, .l2 handler payload => if handler = h then some payload else none
  | .tradeReport, h, .trade handler payload => if handler = h then some payload else none
  | _, _, _ => none

namespace MarketDataEngine

/-! ## Runs -/

/-- The engine after a run. -/
def run (e : MarketDataEngine) (calls : List MDCall) : MarketDataEngine := Run.final step e calls

/-- The deliveries made in a run. -/
def deliveries (e : MarketDataEngine) (calls : List MDCall) : List Delivery :=
  (Run.outputs step e calls).flatten

/-- The calls that are not counted as throttled. -/
def unthrottled : MarketDataEngine → List MDCall → List MDCall
  | _, [] => []
  | e, c :: calls =>
    let e' := (e.step c).2
    if e'.messagesThrottled = e.messagesThrottled then c :: e'.unthrottled calls
    else e'.unthrottled calls

/-- How many calls are updates. -/
def updates (calls : List MDCall) : Nat := calls.countP fun c => c.message?.isSome

/-- How many handlers there are of a kind. -/
def handlers (e : MarketDataEngine) : MDUpdateType → Nat
  | .incrementalRefresh => e.l1Handlers
  | .snapshotFull => e.l2Handlers
  | .tradeReport => e.tradeHandlers

/-- An engine that no call has reached yet. -/
def configured (throttleNs : UInt64) (l1Handlers l2Handlers tradeHandlers : Nat) :
    MarketDataEngine := { throttleNs, l1Handlers, l2Handlers, tradeHandlers }

/-- Neither losses nor duplicates. -/
structure Conserved (e : MarketDataEngine) (calls : List MDCall) : Prop where
  /-- Every update was throttled, delivered or is queued. -/
  account : updates calls =
    (e.run calls).messagesThrottled + (e.run calls).messagesPublished + (e.run calls).mdQueue.size
  /-- Once what is pending is processed, every handler has had every update of its kind that was not
  throttled, once and in order. -/
  delivered : ∀ type, ∀ h < e.handlers type,
    (e.deliveries (calls ++ [.processPending])).filterMap (Delivery.payload? type h) =
      (e.unthrottled calls).filterMap (MDCall.payload? type)
  /-- No trade was throttled. -/
  trades : (e.unthrottled calls).filterMap (MDCall.payload? .tradeReport) =
    calls.filterMap (MDCall.payload? .tradeReport)

/-- An update that is not throttled finds room in the queue. -/
def Roomy (e : MarketDataEngine) (c : MDCall) : Prop :=
  c.message?.isSome = true → e.throttles c = false → e.mdQueue.size < mdQueueSize.size - 1

/-! ## One call -/

variable {e : MarketDataEngine} {l : List MarketDataMessage}

/-- What a call does when these messages are queued, and what is queued after it. -/
inductive Effect (e : MarketDataEngine) (l : List MarketDataMessage) (c : MDCall) :
    List Delivery × MarketDataEngine → List MarketDataMessage → Prop
  | throttled (msg : MarketDataMessage) (hmsg : c.message? = some msg) (hyes : e.throttles c = true) :
      Effect e l c ([], { e with messagesThrottled := e.messagesThrottled + 1 }) l
  | queued (msg : MarketDataMessage) (hmsg : c.message? = some msg) (hno : e.throttles c = false)
      (hroom : l.length < mdQueueSize.size - 1) (queue : HPRingBuffer _ mdQueueSize)
      (times : Finmap fun _ : Symbol => Timestamp) :
      Effect e l c ([], { e with mdQueue := queue, lastPublishTime := times }) (l ++ [msg])
  | lost (msg : MarketDataMessage) (hmsg : c.message? = some msg) (hno : e.throttles c = false)
      (hfull : l.length = mdQueueSize.size - 1) (times : Finmap fun _ : Symbol => Timestamp) :
      Effect e l c ([], { e with lastPublishTime := times }) l
  | processed (hc : c = .processPending) (queue : HPRingBuffer _ mdQueueSize) :
      Effect e l c (l.flatMap e.deliver,
        { e with mdQueue := queue, messagesPublished := e.messagesPublished + l.length }) []

theorem step_effect (h : e.mdQueue.Holds l) (c : MDCall) :
    ∃ l', (e.step c).2.mdQueue.Holds l' ∧ Effect e l c (e.step c) l' := by
  cases hmsg : c.message? with
  | none =>
    cases c with
    | processPending =>
      obtain ⟨queue, hempty, heq⟩ := processPending_eq h
      rw [step, heq]
      exact ⟨[], hempty, .processed rfl queue⟩
    | _ => cases hmsg
  | some msg =>
    rcases step_update hmsg e with ⟨hyes, heq⟩ | ⟨hno, times, heq⟩ <;> rw [heq]
    · exact ⟨l, h, .throttled msg hmsg hyes⟩
    · by_cases hroom : l.length < mdQueueSize.size - 1
      · exact ⟨_, (h.tryPush hroom msg).1, .queued msg hmsg hno hroom _ times⟩
      · have hfull := Nat.le_antisymm h.length_le (not_lt.mp hroom)
        rw [push, h.tryPush_full hfull]
        exact ⟨l, h, .lost msg hmsg hno hfull times⟩

/-- What the numbers add up to. -/
def account (e : MarketDataEngine) : Nat :=
  e.messagesThrottled + e.messagesPublished + e.mdQueue.size

theorem account_step (h : e.mdQueue.Holds l) (c : MDCall) :
    (e.step c).2.account ≤ e.account + updates [c] ∧
      ((e.step c).2.account = e.account + updates [c] ↔ e.Roomy c) := by
  obtain ⟨l', hl', heffect⟩ := step_effect h c
  have hsize := h.size_eq
  have hsize' := hl'.size_eq
  unfold account Roomy updates
  rw [hsize, hsize', List.countP_singleton]
  generalize e.step c = r at heffect
  cases heffect with
  | throttled msg hmsg hyes =>
    simp [hmsg, hyes]
    omega
  | queued msg hmsg hno hroom queue times =>
    simp [hmsg, hno, hroom]
    omega
  | lost msg hmsg hno hfull times =>
    simp [hmsg, hno, hfull]
  | processed hc queue =>
    subst hc
    simp [MDCall.message?]
    omega

theorem trades_unthrottled (h : e.mdQueue.Holds l) (c : MDCall) :
    (e.unthrottled [c]).filterMap (MDCall.payload? .tradeReport) =
      [c].filterMap (MDCall.payload? .tradeReport) := by
  obtain ⟨l', -, heffect⟩ := step_effect h c
  unfold unthrottled
  generalize e.step c = r at heffect
  cases heffect with
  | throttled msg hmsg hyes =>
    cases c with
    | onTrade trade now => cases hyes
    | _ => simp [unthrottled, MDCall.payload?]
  | _ => simp [unthrottled]

theorem deliveries_step (h : e.mdQueue.Holds l) {c : MDCall} (hroom : e.Roomy c) :
    ∃ l', (e.step c).2.mdQueue.Holds l' ∧ (e.step c).2.deliver = e.deliver ∧
      (e.step c).1 ++ l'.flatMap e.deliver =
        (l ++ (e.unthrottled [c]).filterMap MDCall.message?).flatMap e.deliver := by
  obtain ⟨l', hl', heffect⟩ := step_effect h c
  refine ⟨l', hl', ?_⟩
  unfold unthrottled
  generalize e.step c = r at heffect
  cases heffect with
  | throttled msg hmsg hyes =>
    refine ⟨rfl, ?_⟩
    simp [unthrottled]
  | queued msg hmsg hno hroom queue times =>
    refine ⟨rfl, ?_⟩
    simp [unthrottled, hmsg]
  | lost msg hmsg hno hfull times =>
    unfold Roomy at hroom
    rw [h.size_eq, hfull] at hroom
    exact absurd (hroom (by rw [hmsg]; rfl) hno) (lt_irrefl _)
  | processed hc queue =>
    subst hc
    refine ⟨rfl, ?_⟩
    simp [unthrottled, MDCall.message?]

/-! ## Runs -/

theorem unthrottled_cons (e : MarketDataEngine) (c : MDCall) (calls : List MDCall) :
    e.unthrottled (c :: calls) = e.unthrottled [c] ++ (e.step c).2.unthrottled calls := by
  simp only [unthrottled]
  split_ifs <;> rfl

theorem deliveries_cons (e : MarketDataEngine) (c : MDCall) (calls : List MDCall) :
    e.deliveries (c :: calls) = (e.step c).1 ++ (e.step c).2.deliveries calls := rfl

theorem trades_conserved (h : e.mdQueue.Holds l) (calls : List MDCall) :
    (e.unthrottled calls).filterMap (MDCall.payload? .tradeReport) =
      calls.filterMap (MDCall.payload? .tradeReport) := by
  induction calls generalizing e l with
  | nil => rfl
  | cons c calls ih =>
    obtain ⟨l', hl', -⟩ := step_effect h c
    rw [unthrottled_cons, List.filterMap_append, ih hl', trades_unthrottled h,
      ← List.filterMap_append, List.singleton_append]

/-- **The stream of a run** in which every push finds room: what was queued, and what was not
throttled. -/
theorem deliveries_eq (h : e.mdQueue.Holds l) {calls : List MDCall}
    (hroom : Run.Along (fun e c => (e.step c).2) Roomy e calls) :
    e.deliveries (calls ++ [.processPending]) =
      (l ++ (e.unthrottled calls).filterMap MDCall.message?).flatMap e.deliver := by
  induction calls generalizing e l with
  | nil =>
    obtain ⟨queue, -, heq⟩ := processPending_eq h
    rw [List.nil_append, deliveries_cons, step, heq]
    simp [deliveries, Run.outputs, unthrottled]
  | cons c calls ih =>
    obtain ⟨l', hl', hdeliver, hstream⟩ := deliveries_step h hroom.1
    rw [List.cons_append, deliveries_cons, ih hl' hroom.2, hdeliver, unthrottled_cons,
      List.filterMap_append, List.flatMap_append, ← List.append_assoc, hstream,
      ← List.flatMap_append, List.append_assoc]

theorem filterMap_range_eq {α : Type} {h n : Nat} (hlt : h < n) (a : α) :
    (List.range n).filterMap (fun k => if k = h then some a else none) = [a] := by
  induction n with
  | zero => omega
  | succ n ih =>
    rw [List.range_succ, List.filterMap_append]
    rcases Nat.lt_succ_iff_lt_or_eq.mp hlt with hlt | rfl
    · rw [ih hlt]
      simp [hlt.ne']
    · have hnone : (List.range h).filterMap (fun k => if k = h then some a else none) = [] :=
        List.filterMap_eq_nil_iff.mpr fun k hk => if_neg (List.mem_range.mp hk).ne
      rw [hnone]
      simp

theorem deliver_payload {type : MDUpdateType} {h : Nat} (hlt : h < e.handlers type) (c : MDCall) :
    (c.message?.toList.flatMap e.deliver).filterMap (Delivery.payload? type h) =
      [c].filterMap (MDCall.payload? type) := by
  cases type <;> cases c <;>
    simp [MDCall.message?, MDCall.payload?, deliver, List.filterMap_map, Function.comp_def,
      Delivery.payload?] <;>
    exact filterMap_range_eq hlt _

theorem deliver_payloads {type : MDUpdateType} {h : Nat} (hlt : h < e.handlers type)
    (calls : List MDCall) :
    ((calls.filterMap MDCall.message?).flatMap e.deliver).filterMap (Delivery.payload? type h) =
      calls.filterMap (MDCall.payload? type) := by
  induction calls with
  | nil => rfl
  | cons c calls ih =>
    have hsplit : (c :: calls).filterMap MDCall.message? =
        c.message?.toList ++ calls.filterMap MDCall.message? := by
      cases h : c.message? <;> simp [h]
    rw [hsplit, List.flatMap_append, List.filterMap_append, ih, deliver_payload hlt,
      ← List.filterMap_append, List.singleton_append]

/-- The calls of a run, as what it yields. -/
def calling (e : MarketDataEngine) (c : MDCall) : MDCall × MarketDataEngine := (c, (e.step c).2)

theorem account_iff (h : e.mdQueue.Holds l) (calls : List MDCall) :
    (e.run calls).account = e.account + updates calls ↔
      Run.Along (fun e c => (e.step c).2) Roomy e calls := by
  have hsum : updates calls = ((Run.outputs calling e calls).map fun c => updates [c]).sum := by
    rw [show Run.outputs calling e calls = calls from Run.outputs_inputs _ e calls]
    induction calls with
    | nil => rfl
    | cons c calls ih =>
      rw [List.map_cons, List.sum_cons, ← ih, updates, updates, updates, ← List.countP_append,
        List.singleton_append]
  have hholds : ∀ (e : MarketDataEngine) (c : MDCall), (∃ l, e.mdQueue.Holds l) →
      ∃ l, (calling e c).2.mdQueue.Holds l := by
    rintro e c ⟨l, h⟩
    obtain ⟨l', hl', -⟩ := step_effect h c
    exact ⟨l', hl'⟩
  have hcount := Run.final_counter_eq_iff (f := account) (g := fun c => updates [c]) (C := Roomy)
    hholds (fun e c ⟨l, h⟩ => (account_step h c).1) (fun e c ⟨l, h⟩ => (account_step h c).2)
    ⟨l, h⟩ calls
  rw [hsum]
  exact hcount

theorem roomy_of_conserved (h : e.mdQueue.Holds []) (hzero : e.account = 0) {calls : List MDCall}
    (hc : e.Conserved calls) : Run.Along (fun e c => (e.step c).2) Roomy e calls := by
  refine (account_iff h calls).mp ?_
  rw [hzero, Nat.zero_add]
  exact hc.account.symm

theorem conserved_of_roomy (h : e.mdQueue.Holds []) (hzero : e.account = 0) {calls : List MDCall}
    (hroom : Run.Along (fun e c => (e.step c).2) Roomy e calls) : e.Conserved calls := by
  constructor
  case account =>
    have haccount := (account_iff h calls).mpr hroom
    rw [hzero, Nat.zero_add] at haccount
    exact haccount.symm
  case delivered =>
    intro type handler hlt
    rw [deliveries_eq h hroom, List.nil_append]
    exact deliver_payloads hlt _
  case trades => exact trades_conserved h calls

/-- **When nothing is lost or duplicated**, at any time of a run: exactly when every update that is
not throttled finds fewer than 16383 messages in the queue. -/
theorem conserved_iff (throttleNs : UInt64) (l1Handlers l2Handlers tradeHandlers : Nat)
    (calls : List MDCall) :
    (∀ front, front <+: calls →
      (configured throttleNs l1Handlers l2Handlers tradeHandlers).Conserved front) ↔
        Run.Along (fun e c => (e.step c).2) Roomy
          (configured throttleNs l1Handlers l2Handlers tradeHandlers) calls := by
  set e := configured throttleNs l1Handlers l2Handlers tradeHandlers
  have hempty : e.mdQueue.Holds [] := HPRingBuffer.holds_create _
  have hzero : e.account = 0 := (Nat.zero_add _).trans hempty.size_eq
  constructor
  · exact fun h => roomy_of_conserved hempty hzero (h calls (List.prefix_refl _))
  · rintro h front ⟨rest, rfl⟩
    exact conserved_of_roomy hempty hzero (Run.along_append.mp h).1

theorem roomy_trades (h : e.mdQueue.Holds l) {trade : Trade} {now : Timestamp} {n : Nat}
    (hroom : Run.Along (fun e c => (e.step c).2) Roomy e (List.replicate n (.onTrade trade now))) :
    l.length + n ≤ mdQueueSize.size - 1 := by
  induction n generalizing e l with
  | zero => exact h.length_le
  | succ n ih =>
    obtain ⟨hhere, hrest⟩ := hroom
    have hlt := hhere rfl rfl
    rw [h.size_eq] at hlt
    have hnext := ih (h.tryPush hlt _).1 hrest
    rw [List.length_append, List.length_singleton] at hnext
    omega

/-- Of 16384 trades in a row the last is lost. -/
theorem burst_not_conserved : ¬ (configured 0 0 0 1).Conserved
    (List.replicate 16384 (.onTrade ⟨0, 1, 2, 0, 0, {}, .buy, 100, 5, 0⟩ 0)) := by
  intro h
  have hempty : (configured 0 0 0 1).mdQueue.Holds [] := HPRingBuffer.holds_create _
  have hzero : (configured 0 0 0 1).account = 0 := (Nat.zero_add _).trans hempty.size_eq
  have hle := roomy_trades hempty (roomy_of_conserved hempty hzero h)
  rw [List.length_nil, Nat.zero_add] at hle
  exact absurd hle (Nat.not_le_of_lt (Nat.lt_succ_self 16383))

end MarketDataEngine

end HftSdk
