import HftSdk.Market.Conservation
import HftSdk.Market.Sessions

/-!
# The throttle

The throttle remembers one clock reading for each symbol: that of the last update of the symbol, top
of book or depth, that it let through. Fed by a matching engine, it therefore drops a depth update
exactly when an update of either kind for the symbol was let through too shortly before
(`depth_throttled_iff`), and no update of another symbol makes a difference. A depth update that
follows the top of book of the same request is dropped although no depth was let through before it.
-/

namespace HftSdk

/-! ## Updates and readings -/

/-- The symbol and the clock reading that an update is throttled by. -/
def MDCall.checked? : MDCall → Option (Symbol × Timestamp)
  | .onTobUpdate tob now => some (tob.symbol, now)
  | .onDepthUpdate depth now => some (depth.symbol, now)
  | _ => none

/-- An update of this symbol that may be throttled. -/
def MDCall.about (s : Symbol) (c : MDCall) : Bool := c.checked?.any fun x => x.1 = s

/-- A depth update of this symbol. -/
def MDCall.depthAbout (s : Symbol) : MDCall → Bool
  | .onDepthUpdate depth _ => depth.symbol = s
  | _ => false

/-- The clock reading of a call. -/
def MDCall.reading? : MDCall → Option Timestamp
  | .onTobUpdate _ now => some now
  | .onDepthUpdate _ now => some now
  | .onTrade _ now => some now
  | .processPending => none

namespace MarketDataEngine

/-- The reading of an update in `p` that is let through. -/
def passed (e : MarketDataEngine) (p : MDCall → Bool) (c : MDCall) : Option Timestamp :=
  if p c = true ∧ e.throttles c = false then c.checked?.map Prod.snd else none

/-- The readings of the updates in `p` that are let through in a run. -/
def accepted (e : MarketDataEngine) (p : MDCall → Bool) (calls : List MDCall) : List Timestamp :=
  (Run.outputs (fun e c => (e.passed p c, (e.step c).2)) e calls).filterMap id

/-- What the throttle says to the updates of a symbol in a run. -/
def verdicts (e : MarketDataEngine) (s : Symbol) : List MDCall → List Bool
  | [] => []
  | c :: calls =>
    (if c.about s then [e.throttles c] else []) ++ (e.step c).2.verdicts s calls

variable {e : MarketDataEngine}

/-! ## One call -/

theorem throttles_of_checked {c : MDCall} {s : Symbol} {now : Timestamp}
    (h : c.checked? = some (s, now)) (e : MarketDataEngine) :
    e.throttles c = (e.shouldThrottle s now).1 := by
  cases c with
  | onTobUpdate tob now =>
    cases h
    rfl
  | onDepthUpdate depth now =>
    cases h
    rfl
  | _ => cases h

theorem processPending_frame (e : MarketDataEngine) :
    e.processPending.2.throttleNs = e.throttleNs ∧
      e.processPending.2.lastPublishTime = e.lastPublishTime := by
  fun_induction processPending e with
  | case1 => exact ⟨rfl, rfl⟩
  | case2 e queue msg hpop r ih => exact ih

/-- The throttle of one symbol. -/
def gate (interval : UInt64) (last : Option Timestamp) (now : Timestamp) :
    Bool × Option Timestamp :=
  if interval = 0 then (false, last)
  else
    match last with
    | none => (false, some now)
    | some t => if now - t < interval then (true, some t) else (false, some now)

theorem shouldThrottle_gate (e : MarketDataEngine) (s : Symbol) (now : Timestamp) :
    ((e.shouldThrottle s now).1, (e.shouldThrottle s now).2.lastPublishTime.lookup s) =
        gate e.throttleNs (e.lastPublishTime.lookup s) now ∧
      ∀ s' ≠ s, (e.shouldThrottle s now).2.lastPublishTime.lookup s' =
        e.lastPublishTime.lookup s' := by
  unfold shouldThrottle gate
  by_cases hN : e.throttleNs = 0
  · rw [if_pos hN, if_pos hN]
    exact ⟨rfl, fun _ _ => rfl⟩
  · rw [if_neg hN, if_neg hN]
    cases hlast : e.lastPublishTime.lookup s with
    | none => exact ⟨by simp, fun s' hs => by simp [hs]⟩
    | some t =>
      dsimp only
      split_ifs
      · exact ⟨by simp [hlast], fun _ _ => rfl⟩
      · exact ⟨by simp, fun s' hs => by simp [hs]⟩

theorem step_lastPublishTime (e : MarketDataEngine) (c : MDCall) :
    (e.step c).2.throttleNs = e.throttleNs ∧ (e.step c).2.lastPublishTime =
      match c.checked? with
      | some (s, now) => (e.shouldThrottle s now).2.lastPublishTime
      | none => e.lastPublishTime := by
  have hupdate : ∀ msg, (e.onUpdate msg).throttleNs = e.throttleNs ∧
      (e.onUpdate msg).lastPublishTime =
        (e.shouldThrottle msg.symbol msg.timestamp).2.lastPublishTime := by
    intro msg
    unfold onUpdate
    rcases e.shouldThrottle_cases msg.symbol msg.timestamp with h | ⟨times, h⟩ <;> rw [h]
    · exact ⟨rfl, rfl⟩
    · exact ⟨rfl, rfl⟩
  cases c with
  | onTobUpdate tob now => exact hupdate _
  | onDepthUpdate depth now => exact hupdate _
  | onTrade trade now => exact ⟨rfl, rfl⟩
  | processPending => exact processPending_frame e

theorem step_gate {c : MDCall} {s : Symbol} {now : Timestamp} (h : c.checked? = some (s, now))
    (e : MarketDataEngine) :
    (e.throttles c, (e.step c).2.lastPublishTime.lookup s) =
      gate e.throttleNs (e.lastPublishTime.lookup s) now := by
  rw [throttles_of_checked h, (step_lastPublishTime e c).2, h]
  exact (shouldThrottle_gate e s now).1

theorem step_gate_other {c : MDCall} {s : Symbol} (h : c.about s = false) (e : MarketDataEngine) :
    (e.step c).2.lastPublishTime.lookup s = e.lastPublishTime.lookup s := by
  rw [(step_lastPublishTime e c).2]
  unfold MDCall.about at h
  cases hc : c.checked? with
  | none => rfl
  | some x =>
    obtain ⟨s', now⟩ := x
    rw [hc, Option.any_some, decide_eq_false_iff_not] at h
    exact (shouldThrottle_gate e s' now).2 s (Ne.symm h)

theorem checked_of_about {c : MDCall} {s : Symbol} (h : c.about s = true) :
    ∃ now, c.checked? = some (s, now) := by
  unfold MDCall.about at h
  cases hc : c.checked? with
  | none =>
    rw [hc] at h
    cases h
  | some x =>
    obtain ⟨s', now⟩ := x
    rw [hc, Option.any_some, decide_eq_true_eq] at h
    obtain rfl : s' = s := h
    exact ⟨now, rfl⟩

/-! ## Runs -/

theorem verdicts_eq (e : MarketDataEngine) (s : Symbol) (calls : List MDCall) :
    e.verdicts s calls = Run.outputs (gate e.throttleNs) (e.lastPublishTime.lookup s)
      ((calls.filter (MDCall.about s)).filterMap fun c => c.checked?.map Prod.snd) := by
  induction calls generalizing e with
  | nil => rfl
  | cons c calls ih =>
    rw [verdicts, ih, (step_lastPublishTime e c).1]
    by_cases h : c.about s = true
    · obtain ⟨now, hc⟩ := checked_of_about h
      have hgate := step_gate hc e
      rw [List.filter_cons_of_pos h, if_pos h, List.filterMap_cons, hc, Option.map_some, Run.outputs,
        ← hgate]
      rfl
    · rw [List.filter_cons_of_neg h, if_neg h, step_gate_other (by simpa using h)]
      rfl

theorem accepted_concat (e : MarketDataEngine) (p : MDCall → Bool) (calls : List MDCall)
    (c : MDCall) :
    e.accepted p (calls ++ [c]) = e.accepted p calls ++ ((e.run calls).passed p c).toList := by
  unfold accepted
  rw [Run.outputs_append, List.filterMap_append]
  congr 1

theorem run_throttleNs (e : MarketDataEngine) (calls : List MDCall) :
    (e.run calls).throttleNs = e.throttleNs :=
  Run.final_invariant (I := fun e' => e'.throttleNs = e.throttleNs)
    (fun e' c h => (step_lastPublishTime e' c).1.trans h) calls rfl

theorem lookup_step (hN : e.throttleNs ≠ 0) (s : Symbol) (c : MDCall) :
    (e.step c).2.lastPublishTime.lookup s =
      (e.passed (MDCall.about s) c).or (e.lastPublishTime.lookup s) := by
  unfold passed
  by_cases h : c.about s = true
  · obtain ⟨now, hc⟩ := checked_of_about h
    have hgate := step_gate hc e
    unfold gate at hgate
    rw [if_neg hN] at hgate
    cases hlast : e.lastPublishTime.lookup s with
    | none =>
      rw [hlast] at hgate
      obtain ⟨hverdict, hnext⟩ := Prod.mk.inj hgate
      rw [hnext, hverdict, hc, if_pos ⟨h, rfl⟩]
      rfl
    | some t =>
      rw [hlast] at hgate
      dsimp only at hgate
      split_ifs at hgate <;> obtain ⟨hverdict, hnext⟩ := Prod.mk.inj hgate
      · rw [hnext, hverdict, if_neg (by simp)]
        rfl
      · rw [hnext, hverdict, hc, if_pos ⟨h, rfl⟩]
        rfl
  · rw [step_gate_other (by simpa using h), if_neg fun hp => h hp.1]
    rfl

theorem lookup_run (hN : e.throttleNs ≠ 0) (s : Symbol) (calls : List MDCall) :
    (e.run calls).lastPublishTime.lookup s =
      (e.accepted (MDCall.about s) calls).getLast?.or (e.lastPublishTime.lookup s) := by
  induction calls using List.reverseRecOn with
  | nil => rfl
  | append_singleton calls c ih =>
    have hrun : e.run (calls ++ [c]) = ((e.run calls).step c).2 := Run.final_append ..
    rw [hrun, lookup_step (by rwa [run_throttleNs]), ih, accepted_concat, List.getLast?_append,
      ← Option.or_assoc]
    cases (e.run calls).passed (MDCall.about s) c <;> rfl

theorem accepted_sublist (e : MarketDataEngine) (p : MDCall → Bool) (calls : List MDCall) :
    (e.accepted p calls).Sublist (calls.filterMap MDCall.reading?) := by
  induction calls using List.reverseRecOn with
  | nil => exact List.Sublist.refl _
  | append_singleton calls c ih =>
    rw [accepted_concat, List.filterMap_append]
    refine ih.append ?_
    unfold passed
    split_ifs
    · cases c <;> simp [MDCall.checked?, MDCall.reading?]
    · exact List.nil_sublist _

/-- **When an update is dropped**, under a clock that does not run backwards: when one of the same
symbol was let through less than the interval before. -/
theorem throttles_run_iff (he : e.lastPublishTime = ∅) (hN : e.throttleNs ≠ 0) {front : List MDCall}
    {c : MDCall} {s : Symbol} {now : Timestamp} (hc : c.checked? = some (s, now))
    (hclock : ((front ++ [c]).filterMap MDCall.reading?).Pairwise (· ≤ ·)) :
    (e.run front).throttles c = true ↔
      ∃ t ∈ e.accepted (MDCall.about s) front, now - t < e.throttleNs := by
  have hreading : [c].filterMap MDCall.reading? = [now] := by
    cases c <;> simp_all [MDCall.checked?, MDCall.reading?]
  rw [List.filterMap_append, hreading, List.pairwise_append] at hclock
  have hsorted := hclock.1.sublist (e.accepted_sublist (MDCall.about s) front)
  have hle : ∀ t ∈ e.accepted (MDCall.about s) front, t ≤ now := fun t ht =>
    hclock.2.2 t ((e.accepted_sublist _ front).subset ht) now List.mem_cons_self
  have hverdict := congrArg Prod.fst (step_gate hc (e.run front))
  rw [lookup_run hN, he, Finmap.lookup_empty, Option.or_none, run_throttleNs] at hverdict
  generalize e.accepted (MDCall.about s) front = times at hsorted hle hverdict
  dsimp only at hverdict
  rw [hverdict]
  unfold gate
  rw [if_neg hN]
  rcases times.eq_nil_or_concat with rfl | ⟨earlier, last, rfl⟩
  · simp
  · -- the last reading is the latest one
    rw [List.concat_eq_append] at hsorted hle ⊢
    rw [List.pairwise_append] at hsorted
    have hlast : ∀ t ∈ earlier ++ [last], now - last ≤ now - t := by
      intro t ht
      have htl : t ≤ last := by
        rcases List.mem_append.mp ht with ht | ht
        · exact hsorted.2.2 t ht last List.mem_cons_self
        · rw [List.mem_singleton.mp ht]
          exact UInt64.le_refl last
      have hlnow := hle last (by simp)
      rw [UInt64.le_iff_toNat_le] at htl hlnow
      rw [UInt64.le_iff_toNat_le, UInt64.toNat_sub_of_le _ _ (UInt64.le_iff_toNat_le.mpr hlnow),
        UInt64.toNat_sub_of_le _ _ (hle t ht)]
      omega
    rw [List.getLast?_concat]
    dsimp only
    split_ifs with hnear
    · exact iff_of_true rfl ⟨last, by simp, hnear⟩
    · refine iff_of_false id ?_
      rintro ⟨t, ht, htnear⟩
      exact hnear (UInt64.lt_of_le_of_lt (hlast t ht) htnear)

end MarketDataEngine

/-! ## Fed by a matching engine -/

/-- The update of an L1 or L2 callback. -/
def EngineEvent.update? : EngineEvent → Option MDPayload
  | .l1 tob => some (.tob tob)
  | .l2 depth => some (.depth depth)
  | _ => none

/-- The update of a call that may be throttled. -/
def MDCall.update? : MDCall → Option MDPayload
  | .onTobUpdate tob _ => some (.tob tob)
  | .onDepthUpdate depth _ => some (.depth depth)
  | _ => none

/-- The callbacks of a session. -/
def MatchingEngine.events (calls : List SessionCall) : List EngineEvent :=
  (Run.outputs (fun (e : MatchingEngine) (call : SessionCall) =>
    ((e.withRisk call.risk).perform call.op).swap) {} calls).flatten

/-- A session whose L1 and L2 callbacks are the top of book and depth updates that a market data
engine receives, with trades and processing in between, under a clock that does not run
backwards. -/
structure FeedRun where
  calls : List SessionCall
  received : List MDCall
  fed : received.filterMap MDCall.update? =
    (MatchingEngine.events calls).filterMap EngineEvent.update?
  clock : (received.filterMap MDCall.reading?).Pairwise (· ≤ ·)

namespace FeedRun

open MarketDataEngine

/-- **What a depth update is dropped for**: an update of the same symbol, top of book or depth, that
was let through less than the interval before. Updates of other symbols make no difference. -/
theorem depth_throttled_iff (r : FeedRun) {interval : UInt64} (hN : interval ≠ 0)
    (l1Handlers l2Handlers tradeHandlers : Nat) :
    let e := configured interval l1Handlers l2Handlers tradeHandlers
    (∀ front depth now rest, r.received = front ++ .onDepthUpdate depth now :: rest →
      ((e.run front).throttles (.onDepthUpdate depth now) = true ↔
        ∃ t ∈ e.accepted (MDCall.about depth.symbol) front, now - t < interval)) ∧
    ∀ (r' : FeedRun) (s : Symbol),
      r.received.filter (MDCall.about s) = r'.received.filter (MDCall.about s) →
        e.verdicts s r.received = e.verdicts s r'.received := by
  intro e
  constructor
  · intro front depth now rest hreceived
    have hclock := r.clock
    rw [hreceived, List.append_cons, List.filterMap_append] at hclock
    exact throttles_run_iff (e := e) rfl hN (c := .onDepthUpdate depth now) rfl
      (List.pairwise_append.mp hclock).1
  · intro r' s hsame
    rw [verdicts_eq, verdicts_eq, hsame]

/-- The first order of a new symbol, with the clock standing at 5. -/
def firstOrder : FeedRun where
  calls := [⟨none, .addSymbol {}⟩, ⟨none, .newOrder { id := 1, price := 10, quantity := 5 } 5 5⟩]
  received := [.onTobUpdate
      { bestBid := ⟨10, 5, 1⟩, midPrice := 10, timestamp := 5, valid := true } 5,
    .onDepthUpdate { bids := (Vector.replicate 20 {}).set 0 ⟨10, 5, 1⟩, bidLevels := 1, timestamp := 5 } 5]
  fed := by decide
  clock := by decide

theorem firstOrder_depth_throttled :
    let e := configured 1000000 1 1 0
    (∀ front depth now rest, firstOrder.received = front ++ .onDepthUpdate depth now :: rest →
      ((e.run front).throttles (.onDepthUpdate depth now) = true ↔
        ∃ t ∈ e.accepted (MDCall.about depth.symbol) front, now - t < 1000000)) ∧
    ∀ (r' : FeedRun) (s : Symbol),
      firstOrder.received.filter (MDCall.about s) = r'.received.filter (MDCall.about s) →
        e.verdicts s firstOrder.received = e.verdicts s r'.received :=
  firstOrder.depth_throttled_iff (by decide) 1 1 0

/-- A depth update is dropped only for a depth update of the same symbol that was let through less
than the interval before. -/
def DepthForDepth (r : FeedRun) (e : MarketDataEngine) : Prop :=
  ∀ front depth now rest, r.received = front ++ .onDepthUpdate depth now :: rest →
    (e.run front).throttles (.onDepthUpdate depth now) = true →
      ∃ t ∈ e.accepted (MDCall.depthAbout depth.symbol) front, now - t < e.throttleNs

/-- That is not so: the depth of the first order is dropped for its top of book. -/
theorem firstOrder_not_depthForDepth : ¬ firstOrder.DepthForDepth (configured 1000000 1 1 0) := by
  intro h
  obtain ⟨t, ht, -⟩ := h [_] _ _ [] rfl (by decide)
  exact List.not_mem_nil ht

end FeedRun

end HftSdk
