import HftSdk.Lib.SlidingWindow
import HftSdk.Risk.RiskView

/-!
# The rate limit

The engine keeps the submit times of a trader's accepted orders and forgets those that the window of
a later order has left behind, by an unsigned subtraction. When the submit times of the trader never
decrease the window is exact (`rate_limit_exact`). Otherwise an order may find that one within its
window has been forgotten: the subtraction wraps around for a timestamp that is later than the order,
and a timestamp forgotten on account of a late order is missing for an earlier one. Orders for which
that is not so (`Remembers`) are as many in every interval as the rate allows (`rate_bound`).
-/

namespace HftSdk

/-! ## Runs with the accepted orders -/

/-- A risk engine in use, with the orders it accepted, oldest first. -/
structure RiskLog where
  engine : RiskEngine
  accepted : List Order := []

/-- The length of the window, in nanoseconds. -/
def TraderRiskLimits.windowNs (limits : TraderRiskLimits) : Nat := limits.rateWindowMs.toNat * 1000000

namespace RiskLog

/-- The order that a call accepts. -/
def acceptedBy (e : RiskEngine) : RiskCall → List Order
  | .checkOrder o => if (e.checkOrder o).1 = .none then [o] else []
  | _ => []

def step (r : RiskLog) (c : RiskCall) : RiskLog where
  engine := (r.engine.call c).2
  accepted := r.accepted ++ acceptedBy r.engine c

/-- An engine whose limits are set, before any call. -/
def start (defaultLimits : TraderRiskLimits)
    (traderLimits : Finmap fun _ : TraderId => TraderRiskLimits) : RiskLog where
  engine := .withLimits defaultLimits traderLimits

/-- The accepted orders of a trader, by submit time. -/
def times (r : RiskLog) (t : TraderId) : List Timestamp :=
  (r.accepted.filter fun o => o.traderId = t).map Order.submitTime

/-- The timestamps the engine holds. -/
def held (r : RiskLog) (t : TraderId) : List Timestamp := (r.engine.getState t).orderTimestamps

/-- The submit times of the checks of a trader, whatever they returned. -/
def submitTimes (t : TraderId) (calls : List RiskCall) : List Timestamp :=
  calls.filterMap fun
    | .checkOrder o => if o.traderId = t then some o.submitTime else none
    | _ => none

/-- The accepted submit times of the trader that the window of the order does not hold. -/
def forgotten (r : RiskLog) (o : Order) : List Timestamp :=
  SlidingWindow.gone (r.times o.traderId) (r.engine.view.window o)

/-- No timestamp within the window of the order, to either side, is forgotten when its rate is
checked. -/
def Remembers (t : TraderId) (r : RiskLog) : RiskCall → Prop
  | .checkOrder o =>
    o.traderId = t → r.engine.ReachesRateLimit o → ∀ x ∈ r.forgotten o,
      x.toNat + (r.engine.getLimits t).windowNs < o.submitTime.toNat ∨
        o.submitTime.toNat + (r.engine.getLimits t).windowNs < x.toNat
  | _ => True

instance (t : TraderId) (r : RiskLog) : ∀ c, Decidable (Remembers t r c)
  | .checkOrder o =>
    have := List.decidableBAll (fun x : Timestamp =>
      x.toNat + (r.engine.getLimits t).windowNs < o.submitTime.toNat ∨
        o.submitTime.toNat + (r.engine.getLimits t).windowNs < x.toNat) (r.forgotten o)
    inferInstanceAs (Decidable (_ → _ → _))
  | .onFill .. | .killTrader _ | .killAll | .unkillTrader _ | .unkillAll | .isKilled _
  | .getPosition .. => isTrue trivial

/-! ## One call -/

theorem reachesRateLimit_iff (e : RiskEngine) (o : Order) :
    e.ReachesRateLimit o ↔ e.view.screen o = .none := by
  unfold RiskEngine.ReachesRateLimit RiskView.screen
  rw [RiskEngine.checkKillSwitch_eq, RiskEngine.checkPositionLimit_eq]
  split_ifs <;> simp_all

/-- What a call does to the timestamps of a trader: nothing, or what the rate check of one of its
orders does. -/
inductive Does (r : RiskLog) (t : TraderId) (c : RiskCall) : Prop
  | nothing (hheld : (r.step c).held t = r.held t) (htimes : (r.step c).times t = r.times t)
  | reject (o : Order) (hc : c = .checkOrder o) (ht : o.traderId = t)
      (hreach : r.engine.ReachesRateLimit o) (hrate : r.engine.view.rate t ≤ (r.engine.view.window o).length)
      (hheld : (r.step c).held t = r.engine.view.window o)
      (htimes : (r.step c).times t = r.times t)
  | accept (o : Order) (hc : c = .checkOrder o) (ht : o.traderId = t)
      (hreach : r.engine.ReachesRateLimit o) (hrate : (r.engine.view.window o).length < r.engine.view.rate t)
      (hheld : (r.step c).held t = r.engine.view.window o ++ [o.submitTime])
      (htimes : (r.step c).times t = r.times t ++ [o.submitTime])

theorem held_eq (r : RiskLog) (t : TraderId) : r.held t = (r.engine.view.states t).orderTimestamps := rfl

theorem held_step (r : RiskLog) (t : TraderId) (c : RiskCall) :
    (r.step c).held t = ((r.engine.view.call c).2.states t).orderTimestamps := by
  rw [RiskEngine.commutes_view]
  rfl

theorem times_step (r : RiskLog) (t : TraderId) (c : RiskCall) :
    (r.step c).times t = r.times t ++
      ((acceptedBy r.engine c).filter fun o => o.traderId = t).map Order.submitTime := by
  unfold times step
  rw [List.filter_append, List.map_append]

theorem checkOrder_fst (e : RiskEngine) (o : Order) : (e.checkOrder o).1 = (e.view.check o).1 := by
  rw [← RiskEngine.checkOrder_view]

theorem times_of_not_accepted {r : RiskLog} {t : TraderId} {c : RiskCall}
    (h : ∀ o, c = .checkOrder o → o.traderId = t → (r.engine.checkOrder o).1 ≠ .none) :
    (r.step c).times t = r.times t := by
  rw [times_step, List.filter_eq_nil_iff.mpr, List.map_nil, List.append_nil]
  intro o ho
  cases c with
  | checkOrder o' =>
    rw [acceptedBy] at ho
    split_ifs at ho with hok
    · obtain rfl := List.mem_singleton.mp ho
      rw [decide_eq_true_eq]
      exact fun ht => h o rfl ht hok
    · cases ho
  | _ => cases ho

theorem does_checkOrder (r : RiskLog) (t : TraderId) (o : Order) : r.Does t (.checkOrder o) := by
  have hheld := r.held_step t (.checkOrder o)
  change _ = ((r.engine.view.check o).2.states t).orderTimestamps at hheld
  have hverdict := checkOrder_fst r.engine o
  by_cases hscreen : r.engine.view.screen o = .none
  · have hreach := (reachesRateLimit_iff r.engine o).mpr hscreen
    rcases lt_or_ge (r.engine.view.window o).length (r.engine.view.rate o.traderId) with hroom | hfull
    · rw [RiskView.check_of_room hscreen hroom] at hheld hverdict
      rw [RiskView.setTimestamps_timestamps] at hheld
      by_cases ht : o.traderId = t
      · rw [if_pos ht.symm] at hheld
        refine .accept o rfl ht hreach (ht ▸ hroom) hheld ?_
        rw [times_step, acceptedBy, if_pos hverdict]
        simp [ht]
      · rw [if_neg (Ne.symm ht)] at hheld
        refine .nothing hheld (times_of_not_accepted fun o' ho ht' => ?_)
        cases ho
        exact absurd ht' ht
    · rw [RiskView.check_of_full hscreen hfull] at hheld hverdict
      rw [RiskView.setTimestamps_timestamps] at hheld
      have htimes : (r.step (.checkOrder o)).times t = r.times t := by
        refine times_of_not_accepted fun o' ho _ => ?_
        cases ho
        rw [hverdict]
        exact RejectReason.noConfusion
      by_cases ht : o.traderId = t
      · rw [if_pos ht.symm] at hheld
        exact .reject o rfl ht hreach (ht ▸ hfull) hheld htimes
      · rw [if_neg (Ne.symm ht)] at hheld
        exact .nothing hheld htimes
  · rw [RiskView.check_of_screen hscreen] at hheld hverdict
    refine .nothing hheld (times_of_not_accepted fun o' ho _ => ?_)
    cases ho
    rw [hverdict]
    exact hscreen

/-- **What a call does** to the timestamps of a trader. -/
theorem does (r : RiskLog) (t : TraderId) (c : RiskCall) : r.Does t c := by
  by_cases hc : ∃ o, c = .checkOrder o
  · obtain ⟨o, rfl⟩ := hc
    exact r.does_checkOrder t o
  · have hne : ∀ o, c ≠ .checkOrder o := fun o ho => hc ⟨o, ho⟩
    refine .nothing ?_ (times_of_not_accepted fun o ho _ => absurd ho (hne o))
    rw [held_step, RiskView.call_timestamps _ hne]
    rfl

theorem getLimits_step (r : RiskLog) (c : RiskCall) (t : TraderId) :
    (r.step c).engine.getLimits t = r.engine.getLimits t := by
  change (r.engine.call c).2.getLimits t = _
  cases c with
  | checkOrder o => exact (r.engine.checkOrder_agrees o).limits t
  | onFill t' s side qty p => exact RiskEngine.getLimits_onFill _ _ _ _ _ p _
  | _ => rfl

theorem getLimits_run (r : RiskLog) (calls : List RiskCall) (t : TraderId) :
    (calls.foldl step r).engine.getLimits t = r.engine.getLimits t :=
  Run.invariant (I := fun r' : RiskLog => r'.engine.getLimits t = r.engine.getLimits t)
    (fun r' c h => (r'.getLimits_step c t).trans h) calls rfl

theorem window_suffix {r : RiskLog} {o : Order} (h : r.held o.traderId <:+ r.times o.traderId) :
    r.engine.view.window o <:+ r.times o.traderId :=
  (List.dropWhile_suffix _).trans h

theorem suffix_step {r : RiskLog} {t : TraderId} (h : r.held t <:+ r.times t) (c : RiskCall) :
    (r.step c).held t <:+ (r.step c).times t := by
  cases r.does t c with
  | nothing hheld htimes => rwa [hheld, htimes]
  | reject o _ ht _ _ hheld htimes =>
    subst ht
    rw [hheld, htimes]
    exact window_suffix h
  | accept o _ ht _ _ hheld htimes =>
    subst ht
    rw [hheld, htimes]
    obtain ⟨front, hfront⟩ := window_suffix h
    exact ⟨front, by rw [← List.append_assoc, hfront]⟩

theorem start_times (defaultLimits : TraderRiskLimits)
    (traderLimits : Finmap fun _ : TraderId => TraderRiskLimits) (t : TraderId) :
    (start defaultLimits traderLimits).times t = [] ∧ (start defaultLimits traderLimits).held t = [] := by
  refine ⟨rfl, ?_⟩
  unfold held start RiskEngine.withLimits RiskEngine.getState
  rw [Finmap.valueAt_empty]

/-! ## Submit times that never decrease -/

theorem windowNs_toNat (limits : TraderRiskLimits) :
    (limits.rateWindowMs.toUInt64 * 1000000).toNat = limits.windowNs := by
  have hlt : limits.rateWindowMs.toNat * 1000000 < 2 ^ 64 := by
    have := limits.rateWindowMs.toNat_lt
    omega
  rw [UInt64.toNat_mul, UInt32.toNat_toUInt64]
  exact Nat.mod_eq_of_lt hlt

theorem expired_iff (limits : TraderRiskLimits) {now x : Timestamp} (h : x ≤ now) :
    limits.rateWindowMs.toUInt64 * 1000000 < now - x ↔ x.toNat + limits.windowNs < now.toNat := by
  rw [UInt64.lt_iff_toNat_lt, windowNs_toNat, UInt64.toNat_sub_of_le _ _ h]
  have hle : x.toNat ≤ now.toNat := UInt64.le_iff_toNat_le.mp h
  omega

/-- The timestamps of a trader whose checks so far were submitted by `m`, in order. -/
structure Trimmed (r : RiskLog) (t : TraderId) (m : Timestamp) : Prop where
  suffix : r.held t <:+ r.times t
  sorted : (r.times t).Pairwise (· ≤ ·)
  le : ∀ x ∈ r.times t, x ≤ m
  gone : ∀ x ∈ SlidingWindow.gone (r.times t) (r.held t),
    x.toNat + (r.engine.getLimits t).windowNs < m.toNat

theorem Trimmed.mono {r : RiskLog} {t : TraderId} {m m' : Timestamp} (h : r.Trimmed t m)
    (hle : m ≤ m') : r.Trimmed t m' where
  suffix := h.suffix
  sorted := h.sorted
  le x hx := UInt64.le_trans (h.le x hx) hle
  gone x hx := lt_of_lt_of_le (h.gone x hx) (UInt64.le_iff_toNat_le.mp hle)

theorem Trimmed.window {r : RiskLog} {o : Order} (h : r.Trimmed o.traderId o.submitTime) :
    (∀ x ∈ r.forgotten o,
      x.toNat + (r.engine.getLimits o.traderId).windowNs < o.submitTime.toNat) ∧
      ∀ x ∈ r.engine.view.window o,
        o.submitTime.toNat ≤ x.toNat + (r.engine.getLimits o.traderId).windowNs := by
  let limits := r.engine.getLimits o.traderId
  have hle : ∀ x ∈ r.held o.traderId, x ≤ o.submitTime := fun x hx => h.le x (h.suffix.subset hx)
  constructor
  · intro x hx
    unfold forgotten RiskView.window RiskEngine.inWindow at hx
    rw [← held_eq, SlidingWindow.gone_dropWhile h.suffix] at hx
    rcases List.mem_append.mp hx with hx | hx
    · exact h.gone x hx
    · have hexpired := List.mem_takeWhile_imp hx
      rw [decide_eq_true_eq] at hexpired
      exact (expired_iff limits (hle x ((List.takeWhile_sublist _).subset hx))).mp hexpired
  · intro x hx
    have hxheld : x ∈ r.held o.traderId := (List.dropWhile_sublist _).subset hx
    have hsorted : (r.held o.traderId).Pairwise fun x y =>
        decide (limits.rateWindowMs.toUInt64 * 1000000 < o.submitTime - y) = true →
          decide (limits.rateWindowMs.toUInt64 * 1000000 < o.submitTime - x) = true := by
      refine (h.sorted.sublist h.suffix.sublist).imp_of_mem fun {x y} hx hy hxy => ?_
      rw [decide_eq_true_eq, decide_eq_true_eq, expired_iff limits (hle x hx),
        expired_iff limits (hle y hy)]
      have : x.toNat ≤ y.toNat := UInt64.le_iff_toNat_le.mp hxy
      omega
    have hkept := SlidingWindow.not_of_mem_dropWhile hsorted hx
    rw [decide_eq_false_iff_not, expired_iff limits (hle x hxheld)] at hkept
    exact not_lt.mp hkept

theorem Trimmed.step {r : RiskLog} {t : TraderId} {m : Timestamp} (h : r.Trimmed t m) {c : RiskCall}
    (hc : ∀ o, c = .checkOrder o → o.traderId = t → m = o.submitTime) : (r.step c).Trimmed t m := by
  have hsuffix := suffix_step h.suffix c
  have hlimits := r.getLimits_step c t
  cases r.does t c with
  | nothing hheld htimes =>
    refine ⟨hsuffix, ?_, ?_, ?_⟩ <;> rw [htimes]
    · exact h.sorted
    · exact h.le
    · rw [hheld, hlimits]
      exact h.gone
  | reject o hcall ht _ _ hheld htimes =>
    obtain rfl := hc o hcall ht
    subst ht
    refine ⟨hsuffix, ?_, ?_, ?_⟩ <;> rw [htimes]
    · exact h.sorted
    · exact h.le
    · rw [hheld, hlimits]
      exact h.window.1
  | accept o hcall ht _ _ hheld htimes =>
    obtain rfl := hc o hcall ht
    subst ht
    refine ⟨hsuffix, ?_, ?_, ?_⟩ <;> rw [htimes]
    · rw [List.pairwise_append]
      refine ⟨h.sorted, List.pairwise_singleton _ _, fun x hx y hy => ?_⟩
      obtain rfl := List.mem_singleton.mp hy
      exact h.le x hx
    · intro x hx
      rcases List.mem_append.mp hx with hx | hx
      · exact h.le x hx
      · obtain rfl := List.mem_singleton.mp hx
        exact UInt64.le_refl _
    · rw [hheld, hlimits, SlidingWindow.gone_concat (window_suffix h.suffix)]
      exact h.window.1

theorem submitTimes_append (t : TraderId) (calls calls' : List RiskCall) :
    submitTimes t (calls ++ calls') = submitTimes t calls ++ submitTimes t calls' :=
  List.filterMap_append

theorem submitTimes_checkOrder {t : TraderId} {o : Order} (ht : o.traderId = t) :
    submitTimes t [.checkOrder o] = [o.submitTime] := by
  simp [submitTimes, ht]

theorem trimmed_run (defaultLimits : TraderRiskLimits)
    (traderLimits : Finmap fun _ : TraderId => TraderRiskLimits) {t : TraderId}
    {calls : List RiskCall} (hsorted : (submitTimes t calls).Pairwise (· ≤ ·)) {m : Timestamp}
    (hm : ∀ x ∈ submitTimes t calls, x ≤ m) :
    (calls.foldl step (start defaultLimits traderLimits)).Trimmed t m := by
  induction calls using List.reverseRecOn generalizing m with
  | nil =>
    obtain ⟨htimes, hheld⟩ := start_times defaultLimits traderLimits t
    refine ⟨?_, ?_, ?_, ?_⟩ <;> simp [htimes, hheld, SlidingWindow.gone]
  | append_singleton calls c ih =>
    rw [submitTimes_append] at hsorted hm
    have hbefore := (List.pairwise_append.mp hsorted).1
    rw [List.foldl_append, List.foldl_cons, List.foldl_nil]
    by_cases hc : ∃ o, c = .checkOrder o ∧ o.traderId = t
    · -- up to the new check, and from there to `m`
      obtain ⟨o, rfl, ht⟩ := hc
      rw [submitTimes_checkOrder ht] at hsorted hm
      have hlast : ∀ x ∈ submitTimes t calls, x ≤ o.submitTime := fun x hx =>
        (List.pairwise_append.mp hsorted).2.2 x hx _ (List.mem_singleton_self _)
      refine Trimmed.mono ((ih hbefore hlast).step fun o' ho' _ => ?_)
        (hm _ (List.mem_append_right _ (List.mem_singleton_self _)))
      cases ho'
      rfl
    · exact (ih hbefore fun x hx => hm x (List.mem_append_left _ hx)).step fun o ho ht =>
        absurd ⟨o, ho, ht⟩ hc

theorem remembers_of_sorted (defaultLimits : TraderRiskLimits)
    (traderLimits : Finmap fun _ : TraderId => TraderRiskLimits) {t : TraderId}
    {calls : List RiskCall} (hsorted : (submitTimes t calls).Pairwise (· ≤ ·)) :
    Run.Along step (Remembers t) (start defaultLimits traderLimits) calls := by
  induction calls using List.reverseRecOn with
  | nil => trivial
  | append_singleton calls c ih =>
    rw [submitTimes_append] at hsorted
    obtain ⟨hbefore, -, hlast⟩ := List.pairwise_append.mp hsorted
    refine Run.along_append.mpr ⟨ih hbefore, ?_, trivial⟩
    cases c with
    | checkOrder o =>
      rintro rfl - x hx
      rw [submitTimes_checkOrder rfl] at hlast
      have htrimmed := trimmed_run defaultLimits traderLimits hbefore fun x hx =>
        hlast x hx _ (List.mem_singleton_self _)
      exact Or.inl (htrimmed.window.1 x hx)
    | _ => trivial

/-! ## Any submit times -/

/-- How many accepted orders of the trader an interval of the length of its window contains. -/
def inInterval (r : RiskLog) (t : TraderId) (first : Nat) : Nat :=
  ((r.times t).filter fun x =>
    first ≤ x.toNat ∧ x.toNat ≤ first + (r.engine.getLimits t).windowNs).length

/-- The rate bounds every interval. -/
structure Limited (r : RiskLog) (t : TraderId) : Prop where
  suffix : r.held t <:+ r.times t
  bound : ∀ first, r.inInterval t first ≤ (r.engine.getLimits t).maxOrderRate.toNat

theorem Limited.step {r : RiskLog} {t : TraderId} (h : r.Limited t) {c : RiskCall}
    (hc : Remembers t r c) : (r.step c).Limited t := by
  refine ⟨suffix_step h.suffix c, fun first => ?_⟩
  unfold inInterval
  rw [getLimits_step]
  have hbound := h.bound first
  unfold inInterval at hbound
  cases r.does t c with
  | nothing _ htimes => rwa [htimes]
  | reject _ _ _ _ _ _ htimes => rwa [htimes]
  | accept o hcall ht hreach hroom _ htimes =>
    subst ht hcall
    rw [htimes, List.filter_append, List.length_append]
    by_cases hnow : first ≤ o.submitTime.toNat ∧
        o.submitTime.toNat ≤ first + (r.engine.getLimits o.traderId).windowNs
    · have hkept := SlidingWindow.count_le (window_suffix h.suffix)
        (p := fun x : Timestamp => decide (first ≤ x.toNat ∧
          x.toNat ≤ first + (r.engine.getLimits o.traderId).windowNs))
        fun x hx => by
          have hfar := hc rfl hreach x hx
          rw [decide_eq_false_iff_not]
          omega
      have hlast := List.length_filter_le (fun x : Timestamp => decide (first ≤ x.toNat ∧
        x.toNat ≤ first + (r.engine.getLimits o.traderId).windowNs)) [o.submitTime]
      rw [List.length_singleton] at hlast
      have hrate : r.engine.view.rate o.traderId =
        (r.engine.getLimits o.traderId).maxOrderRate.toNat := rfl
      omega
    · rw [List.filter_cons_of_neg (by simpa using hnow), List.filter_nil, List.length_nil]
      exact hbound

theorem limited_start (defaultLimits : TraderRiskLimits)
    (traderLimits : Finmap fun _ : TraderId => TraderRiskLimits) (t : TraderId) :
    (start defaultLimits traderLimits).Limited t := by
  obtain ⟨htimes, hheld⟩ := start_times defaultLimits traderLimits t
  refine ⟨by rw [htimes, hheld], fun first => ?_⟩
  unfold inInterval
  rw [htimes]
  exact Nat.zero_le _

/-- **The rate bounds every interval** of the length of the window, when at every rate check of the
trader no timestamp within the window of the order, to either side, is forgotten. -/
theorem rate_bound (defaultLimits : TraderRiskLimits)
    (traderLimits : Finmap fun _ : TraderId => TraderRiskLimits) (t : TraderId)
    (calls : List RiskCall)
    (h : Run.Along step (Remembers t) (start defaultLimits traderLimits) calls) (first : Nat) :
    (calls.foldl step (start defaultLimits traderLimits)).inInterval t first ≤
      ((start defaultLimits traderLimits).engine.getLimits t).maxOrderRate.toNat := by
  have hlimited := h.invariant (I := fun r : RiskLog => r.Limited t) (fun r c hr hc => hr.step hc)
    (limited_start defaultLimits traderLimits t)
  rw [← getLimits_run _ calls]
  exact hlimited.bound first

/-- A rate of 1: the second order comes after the window of the first. -/
theorem rate_bound_two_orders : ((List.foldl step (start { maxOrderRate := 1, rateWindowMs := 1 } ∅)
      [.checkOrder { traderId := 1, price := 5, quantity := 1, submitTime := 7 },
        .checkOrder { traderId := 1, price := 5, quantity := 1, submitTime := 2000000 }]).inInterval 1 0) ≤
    1 :=
  rate_bound { maxOrderRate := 1, rateWindowMs := 1 } ∅ 1 _ (by decide) 0

/-- An order with a timestamp one nanosecond before that of the first wraps the subtraction, and a
rate of 1 lets both through. -/
theorem earlier_timestamp_bypasses_rate :
    ¬ ∀ (defaultLimits : TraderRiskLimits)
        (traderLimits : Finmap fun _ : TraderId => TraderRiskLimits) (t : TraderId)
        (calls : List RiskCall) (first : Nat),
      (calls.foldl step (start defaultLimits traderLimits)).inInterval t first ≤
        ((start defaultLimits traderLimits).engine.getLimits t).maxOrderRate.toNat := by
  intro h
  have hbypass := h { maxOrderRate := 1 } ∅ 1
    [.checkOrder { traderId := 1, price := 5, quantity := 1, submitTime := 5 },
      .checkOrder { traderId := 1, price := 5, quantity := 1, submitTime := 4 }] 0
  exact absurd hbypass (by decide)

end RiskLog

end HftSdk
