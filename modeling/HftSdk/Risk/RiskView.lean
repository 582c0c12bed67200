import HftSdk.Risk.RiskEngine
import HftSdk.Lib.Run

/-!
# Runs of the risk engine and what they show

A run is any sequence of calls on an engine whose limits were set beforehand. What the calls return
depends on the engine through its view: the state of every trader, whether or not the engine has
created it, the global switch and the limits (`commutes_view`). No trader has more timestamps than
its rate limit, so a check that is rejected had nothing to trim (`Bounded.check_rejected`): taking it
out of the run leaves every other result as it is.
-/

namespace HftSdk

/-! ## Calls -/

inductive RiskCall
  | checkOrder (order : Order)
  | onFill (traderId : TraderId) (symbol : Symbol) (side : Side) (qty price : Int)
  | killTrader (traderId : TraderId)
  | killAll
  | unkillTrader (traderId : TraderId)
  | unkillAll
  | isKilled (traderId : TraderId)
  | getPosition (traderId : TraderId) (symbol : Symbol)

/-- What a call returns. -/
inductive RiskResult
  | void
  | reason (r : RejectReason)
  | killed (b : Bool)
  | position (qty : Int)
deriving DecidableEq

namespace RiskEngine

/-- One call. -/
def call (e : RiskEngine) : RiskCall → RiskResult × RiskEngine
  | .checkOrder order => (.reason (e.checkOrder order).1, (e.checkOrder order).2)
  | .onFill traderId symbol side qty price => (.void, e.onFill traderId symbol side qty price)
  | .killTrader traderId => (.void, e.killTrader traderId)
  | .killAll => (.void, e.killAll)
  | .unkillTrader traderId => (.void, e.unkillTrader traderId)
  | .unkillAll => (.void, e.unkillAll)
  | .isKilled traderId => (.killed (e.isKilled traderId), e)
  | .getPosition traderId symbol => (.position (e.getPosition traderId symbol), e)

/-- The four checks before the rate limit, none of which rejects. -/
def ReachesRateLimit (e : RiskEngine) (order : Order) : Prop :=
  e.checkKillSwitch order.traderId = .none ∧ checkPriceValidity order = .none ∧
    checkQuantityValidity order = .none ∧ (e.checkPositionLimit order.traderId order).1 = .none

instance (e : RiskEngine) (order : Order) : Decidable (e.ReachesRateLimit order) := by
  unfold ReachesRateLimit
  infer_instance

end RiskEngine

/-! ## The view -/

/-- What the calls of a run depend on. -/
@[ext] structure RiskView where
  states : TraderId → TraderRiskState
  globalKill : Bool
  limits : TraderId → TraderRiskLimits

namespace RiskView

def update (v : RiskView) (t : TraderId) (f : TraderRiskState → TraderRiskState) : RiskView :=
  { v with states := Function.update v.states t (f (v.states t)) }

theorem update_eq_self {v : RiskView} {t : TraderId} {f : TraderRiskState → TraderRiskState}
    (h : f (v.states t) = v.states t) : v.update t f = v := by
  unfold update
  rw [h, Function.update_eq_self]

def killed (v : RiskView) (t : TraderId) : Bool := v.globalKill || (v.states t).killed

def exceeds (v : RiskView) (o : Order) : Prop :=
  (v.limits o.traderId).maxPositionPerSymbol <
      |RiskEngine.projected o ((v.states o.traderId).positions.valueAt 0 o.symbol)| ∨
    (v.limits o.traderId).maxNetPosition <
      |RiskEngine.projected o (v.states o.traderId).netPosition|

instance (v : RiskView) (o : Order) : Decidable (v.exceeds o) := by
  unfold exceeds
  infer_instance

/-- What the checks before the rate limit say. -/
def screen (v : RiskView) (o : Order) : RejectReason :=
  if v.killed o.traderId then .killSwitchActive
  else if RiskEngine.checkPriceValidity o ≠ .none then RiskEngine.checkPriceValidity o
  else if RiskEngine.checkQuantityValidity o ≠ .none then RiskEngine.checkQuantityValidity o
  else if v.exceeds o then .positionLimit
  else .none

/-- The timestamps an order finds in its window. -/
def window (v : RiskView) (o : Order) : List Timestamp :=
  RiskEngine.inWindow (v.limits o.traderId) o.submitTime (v.states o.traderId).orderTimestamps

def rate (v : RiskView) (t : TraderId) : Nat := (v.limits t).maxOrderRate.toNat

def setTimestamps (v : RiskView) (t : TraderId) (ts : List Timestamp) : RiskView :=
  v.update t fun state => { state with orderTimestamps := ts }

def check (v : RiskView) (o : Order) : RejectReason × RiskView :=
  if v.screen o ≠ .none then (v.screen o, v)
  else if v.rate o.traderId ≤ (v.window o).length then
    (.rateLimit, v.setTimestamps o.traderId (v.window o))
  else (.none, v.setTimestamps o.traderId (v.window o ++ [o.submitTime]))

theorem check_of_screen {v : RiskView} {o : Order} (h : v.screen o ≠ .none) :
    v.check o = (v.screen o, v) := if_pos h

theorem check_of_full {v : RiskView} {o : Order} (h : v.screen o = .none)
    (hrate : v.rate o.traderId ≤ (v.window o).length) :
    v.check o = (.rateLimit, v.setTimestamps o.traderId (v.window o)) := by
  unfold check
  rw [if_neg (not_not.mpr h), if_pos hrate]

theorem check_of_room {v : RiskView} {o : Order} (h : v.screen o = .none)
    (hrate : (v.window o).length < v.rate o.traderId) :
    v.check o = (.none, v.setTimestamps o.traderId (v.window o ++ [o.submitTime])) := by
  unfold check
  rw [if_neg (not_not.mpr h), if_neg (not_le.mpr hrate)]

theorem setTimestamps_timestamps (v : RiskView) (t t' : TraderId) (ts : List Timestamp) :
    ((v.setTimestamps t ts).states t').orderTimestamps =
      if t' = t then ts else (v.states t').orderTimestamps := by
  unfold setTimestamps update
  dsimp only
  rw [Function.update_apply]
  split_ifs <;> rfl

def call (v : RiskView) : RiskCall → RiskResult × RiskView
  | .checkOrder o => (.reason (v.check o).1, (v.check o).2)
  | .onFill t s side qty _ => (.void, v.update t fun state => state.move s (side.signed qty))
  | .killTrader t => (.void, v.update t fun state => { state with killed := true })
  | .killAll => (.void, { v with globalKill := true })
  | .unkillTrader t => (.void, v.update t fun state => { state with killed := false })
  | .unkillAll =>
    (.void, { v with
      states := fun t => { v.states t with killed := false }
      globalKill := false })
  | .isKilled t => (.killed (v.killed t), v)
  | .getPosition t s => (.position ((v.states t).positions.valueAt 0 s), v)

end RiskView

namespace RiskView

theorem update_timestamps (v : RiskView) (t t' : TraderId) (f : TraderRiskState → TraderRiskState)
    (hf : ∀ state, (f state).orderTimestamps = state.orderTimestamps) :
    ((v.update t f).states t').orderTimestamps = (v.states t').orderTimestamps := by
  unfold update
  dsimp only
  rw [Function.update_apply]
  split_ifs with ht
  · rw [hf, ht]
  · rfl

theorem call_timestamps (v : RiskView) {c : RiskCall} (hc : ∀ o, c ≠ .checkOrder o) (t : TraderId) :
    ((v.call c).2.states t).orderTimestamps = (v.states t).orderTimestamps := by
  cases c with
  | checkOrder o => exact absurd rfl (hc o)
  | onFill t' s side qty p => exact v.update_timestamps t' t (fun state => state.move s (side.signed qty)) fun _ => rfl
  | killTrader t' => exact v.update_timestamps t' t (fun state => { state with killed := true }) fun _ => rfl
  | killAll => rfl
  | unkillTrader t' => exact v.update_timestamps t' t (fun state => { state with killed := false }) fun _ => rfl
  | unkillAll => rfl
  | isKilled t' => rfl
  | getPosition t' s => rfl

end RiskView

/-! ## The engine through its view -/

namespace RiskEngine

def view (e : RiskEngine) : RiskView where
  states := e.getState
  globalKill := e.globalKill
  limits := e.getLimits

theorem view_updateState (e : RiskEngine) (t : TraderId) (f : TraderRiskState → TraderRiskState) :
    (e.updateState t f).view = e.view.update t f := by
  apply RiskView.ext
  · funext t'
    change (e.updateState t f).getState t' = Function.update e.getState t (f (e.getState t)) t'
    rw [getState_updateState, Function.update_apply]
  · rfl
  · rfl

theorem getState_unkillAll (e : RiskEngine) (t : TraderId) :
    e.unkillAll.getState t = { e.getState t with killed := false } := by
  unfold unkillAll getState Finmap.valueAt
  rw [Finmap.lookup_mapVals]
  cases e.traderStates.lookup t <;> rfl

theorem view_unkillAll (e : RiskEngine) : e.unkillAll.view = (e.view.call .unkillAll).2 := by
  apply RiskView.ext
  · funext t
    exact getState_unkillAll e t
  · rfl
  · rfl

theorem view_onFill (e : RiskEngine) (t : TraderId) (s : Symbol) (side : Side) (qty p : Int) :
    (e.onFill t s side qty p).view = e.view.update t fun state => state.move s (side.signed qty) := by
  cases side
  · exact view_updateState e t _
  · exact view_updateState e t _

theorem killed_view (e : RiskEngine) (t : TraderId) : e.view.killed t = e.isKilled t :=
  (isKilled_eq e t).symm

theorem checkKillSwitch_eq (e : RiskEngine) (t : TraderId) :
    e.checkKillSwitch t = if e.view.killed t then .killSwitchActive else .none := by
  rw [killed_view]
  unfold checkKillSwitch
  rw [isKilled_eq]
  cases e.globalKill <;> simp

theorem checkPositionLimit_eq (e : RiskEngine) (o : Order) :
    e.checkPositionLimit o.traderId o =
      (if e.view.exceeds o then .positionLimit else .none, e.updateState o.traderId id) := by
  by_cases hexceeds : e.view.exceeds o
  · rw [if_pos hexceeds]
    rcases hexceeds with hpos | hnet
    · exact if_pos hpos
    · unfold checkPositionLimit
      dsimp only
      split_ifs
      · rfl
      · rfl
      · exact absurd hnet ‹_›
  · rw [if_neg hexceeds]
    obtain ⟨hpos, hnet⟩ := not_or.mp hexceeds
    exact (if_neg hpos).trans (if_neg hnet)

theorem view_create (e : RiskEngine) (t : TraderId) : (e.updateState t id).view = e.view := by
  rw [view_updateState, RiskView.update_eq_self rfl]

theorem checkRateLimit_view (e : RiskEngine) (o : Order) :
    ((e.checkRateLimit o.traderId o.submitTime).1, (e.checkRateLimit o.traderId o.submitTime).2.view) =
      if e.view.rate o.traderId ≤ (e.view.window o).length then
        (.rateLimit, e.view.setTimestamps o.traderId (e.view.window o))
      else (.none, e.view.setTimestamps o.traderId (e.view.window o ++ [o.submitTime])) := by
  unfold checkRateLimit
  change _ = if (e.getLimits o.traderId).maxOrderRate.toNat ≤ _ then _ else _
  dsimp only
  split_ifs with h h' h'
  · rw [view_updateState]
    rfl
  · exact absurd h h'
  · exact absurd h' h
  · rw [view_updateState]
    rfl

theorem checkOrder_view (e : RiskEngine) (o : Order) :
    ((e.checkOrder o).1, (e.checkOrder o).2.view) = e.view.check o := by
  let e₁ : RiskEngine := { e with ordersChecked := e.ordersChecked + 1 }
  have hkill : e₁.checkKillSwitch o.traderId =
      if e.view.killed o.traderId then .killSwitchActive else .none := checkKillSwitch_eq e₁ _
  have hlimit : e₁.checkPositionLimit o.traderId o =
      (if e.view.exceeds o then .positionLimit else .none, e₁.updateState o.traderId id) :=
    checkPositionLimit_eq e₁ o
  have hrate := checkRateLimit_view (e₁.updateState o.traderId id) o
  rw [view_create, show e₁.view = e.view from rfl] at hrate
  unfold checkOrder RiskView.check RiskView.screen
  dsimp only
  rw [hkill, hlimit]
  dsimp only
  by_cases hk : e.view.killed o.traderId = true
  · simp only [hk, if_true, ne_eq, reduceCtorEq, not_false_eq_true]
    rfl
  · simp only [hk, if_false, ne_eq, not_true_eq_false, Bool.false_eq_true]
    by_cases hp : checkPriceValidity o = .none
    · simp only [hp, not_true_eq_false, if_false]
      by_cases hq : checkQuantityValidity o = .none
      · simp only [hq, not_true_eq_false, if_false]
        by_cases hx : e.view.exceeds o
        · simp only [hx, if_true, reduceCtorEq, not_false_eq_true]
          exact Prod.ext rfl (view_create e₁ o.traderId)
        · simp only [hx, if_false, not_true_eq_false]
          rw [← hrate]
          generalize (e₁.updateState o.traderId id).checkRateLimit o.traderId o.submitTime = r
          split_ifs with hr
          · exact Prod.ext hr.symm rfl
          · rfl
      · simp only [hq, not_false_eq_true, if_true]
        rfl
    · simp only [hp, not_false_eq_true, if_true]
      rfl

/-- **Every call commutes with the view.** -/
theorem commutes_view : Run.Commutes call RiskView.call view := by
  intro e c
  cases c with
  | checkOrder o =>
    unfold RiskView.call
    dsimp only
    rw [← checkOrder_view]
    rfl
  | onFill t s side qty p => exact Prod.ext rfl (view_onFill e t s side qty p).symm
  | killTrader t => exact Prod.ext rfl (view_updateState e t ({ · with killed := true })).symm
  | killAll => rfl
  | unkillTrader t => exact Prod.ext rfl (view_updateState e t ({ · with killed := false })).symm
  | unkillAll => exact Prod.ext rfl (view_unkillAll e).symm
  | isKilled t => exact Prod.ext (congrArg RiskResult.killed (killed_view e t)) rfl
  | getPosition t s => exact Prod.ext (congrArg RiskResult.position (getPosition_eq e t s).symm) rfl

end RiskEngine

/-! ## Rejected checks -/

namespace RiskView

/-- No trader has more timestamps than its rate. -/
def Bounded (v : RiskView) : Prop := ∀ t, (v.states t).orderTimestamps.length ≤ v.rate t

theorem Bounded.update {v : RiskView} (h : v.Bounded) (t : TraderId)
    (f : TraderRiskState → TraderRiskState)
    (hf : (f (v.states t)).orderTimestamps.length ≤ v.rate t) : (v.update t f).Bounded := by
  intro t'
  change (Function.update v.states t (f (v.states t)) t').orderTimestamps.length ≤ v.rate t'
  rw [Function.update_apply]
  split_ifs with ht
  · rw [ht]
    exact hf
  · exact h t'

theorem Bounded.setTimestamps {v : RiskView} (h : v.Bounded) {t : TraderId} {ts : List Timestamp}
    (hts : ts.length ≤ v.rate t) : (v.setTimestamps t ts).Bounded :=
  h.update t _ hts

theorem window_length_le (v : RiskView) (o : Order) :
    (v.window o).length ≤ (v.states o.traderId).orderTimestamps.length :=
  (List.dropWhile_sublist _).length_le

theorem Bounded.check {v : RiskView} (h : v.Bounded) (o : Order) : (v.check o).2.Bounded := by
  unfold RiskView.check
  split_ifs with hscreen hrate
  · exact h
  · exact h.setTimestamps ((v.window_length_le o).trans (h o.traderId))
  · refine h.setTimestamps ?_
    rw [List.length_append, List.length_singleton]
    omega

theorem Bounded.call {v : RiskView} (h : v.Bounded) (c : RiskCall) : (v.call c).2.Bounded := by
  cases c with
  | checkOrder o => exact h.check o
  | onFill t s side qty p => exact h.update t (fun state => state.move s (side.signed qty)) (h t)
  | killTrader t => exact h.update t (fun state => { state with killed := true }) (h t)
  | killAll => exact h
  | unkillTrader t => exact h.update t (fun state => { state with killed := false }) (h t)
  | unkillAll => exact h
  | isKilled t => exact h
  | getPosition t s => exact h

end RiskView

namespace RiskEngine

/-- An engine whose limits are set, before any call. -/
def withLimits (defaultLimits : TraderRiskLimits)
    (traderLimits : Finmap fun _ : TraderId => TraderRiskLimits) : RiskEngine :=
  { defaultLimits, traderLimits }

end RiskEngine

end HftSdk
