import HftSdk.Lib.Noninterference
import HftSdk.Risk.RiskView

/-!
# Traders are isolated from each other

One risk engine checks the orders of all traders, with limits that may be set at any time.
`trader_isolated`: the calls about other traders, their checks, fills, switches, limits and queries
(`is_killed`, `get_position`), may be left out of any run; everything a trader is told, and the state,
switch and limits that he ends with, stay the same. Only the calls for all traders at once (`kill_all`,
`unkill_all`, `setDefaultLimits`) concern him too. The counters of checked and of rejected orders are
those of all traders, and no part of what is kept apart.
-/

namespace HftSdk

/-- A call on the risk engine, or a change of its limits. -/
inductive RiskRequest
  | call (c : RiskCall)
  | setTraderLimits (traderId : TraderId) (limits : TraderRiskLimits)
  | setDefaultLimits (limits : TraderRiskLimits)

/-- The trader that a call is about; none for a call about all of them. -/
def RiskCall.trader : RiskCall → Option TraderId
  | .checkOrder order => some order.traderId
  | .onFill traderId _ _ _ _ => some traderId
  | .killTrader traderId => some traderId
  | .killAll => none
  | .unkillTrader traderId => some traderId
  | .unkillAll => none
  | .isKilled traderId => some traderId
  | .getPosition traderId _ => some traderId

def RiskRequest.trader : RiskRequest → Option TraderId
  | .call c => c.trader
  | .setTraderLimits traderId _ => some traderId
  | .setDefaultLimits _ => none

/-- The operation is about the trader, or about all of them. -/
def RiskRequest.Concerns (t : TraderId) (op : RiskRequest) : Prop :=
  op.trader = none ∨ op.trader = some t

instance (t : TraderId) : DecidablePred (RiskRequest.Concerns t) := fun op =>
  inferInstanceAs (Decidable (op.trader = none ∨ op.trader = some t))

/-! ## One call on the view -/

namespace RiskView

/-- The views show the same of a trader. -/
structure Same (t : TraderId) (v v' : RiskView) : Prop where
  states : v'.states t = v.states t
  globalKill : v'.globalKill = v.globalKill
  limits : v'.limits t = v.limits t

variable {t : TraderId} {v v' : RiskView}

theorem Same.refl (t : TraderId) (v : RiskView) : Same t v v := ⟨rfl, rfl, rfl⟩

theorem Same.update (h : Same t v v') (f : TraderRiskState → TraderRiskState) :
    Same t (v.update t f) (v'.update t f) where
  states := by
    unfold RiskView.update
    dsimp only
    rw [Function.update_self, Function.update_self, h.states]
  globalKill := h.globalKill
  limits := h.limits

theorem same_update_of_ne {t' : TraderId} (hne : t ≠ t') (v : RiskView)
    (f : TraderRiskState → TraderRiskState) : Same t v (v.update t' f) where
  states := Function.update_of_ne hne _ _
  globalKill := rfl
  limits := rfl

theorem Same.screen {o : Order} (h : Same o.traderId v v') : v'.screen o = v.screen o := by
  have hexceeds : v'.exceeds o ↔ v.exceeds o := by
    unfold exceeds
    rw [h.states, h.limits]
  unfold RiskView.screen killed
  rw [h.states, h.globalKill]
  simp only [hexceeds]

theorem Same.check {o : Order} (h : Same o.traderId v v') :
    (v'.check o).1 = (v.check o).1 ∧ Same o.traderId (v.check o).2 (v'.check o).2 := by
  have hwindow : v'.window o = v.window o := by
    unfold window
    rw [h.states, h.limits]
  have hrate : v'.rate o.traderId = v.rate o.traderId := by
    unfold rate
    rw [h.limits]
  unfold RiskView.check setTimestamps
  rw [h.screen, hwindow, hrate]
  split_ifs <;> refine ⟨rfl, ?_⟩ <;> dsimp only
  · exact h
  · exact h.update _
  · exact h.update _

theorem same_check_of_ne {o : Order} (hne : t ≠ o.traderId) (v : RiskView) :
    Same t v (v.check o).2 := by
  unfold RiskView.check setTimestamps
  split_ifs <;> dsimp only
  · exact .refl t v
  · exact same_update_of_ne hne v _
  · exact same_update_of_ne hne v _

theorem same_call_of_ne {c : RiskCall} {t' : TraderId} (hc : c.trader = some t') (hne : t' ≠ t)
    (v : RiskView) : Same t v (v.call c).2 := by
  unfold RiskView.call
  cases c with
  | checkOrder o =>
    obtain rfl := Option.some_inj.mp hc
    exact same_check_of_ne hne.symm v
  | onFill t'' s side qty p =>
    obtain rfl := Option.some_inj.mp hc
    dsimp only
    exact same_update_of_ne hne.symm v _
  | killTrader t'' | unkillTrader t'' =>
    obtain rfl := Option.some_inj.mp hc
    dsimp only
    exact same_update_of_ne hne.symm v _
  | isKilled | getPosition => exact .refl t v
  | killAll | unkillAll => cases hc

theorem Same.call (h : Same t v v') {c : RiskCall} (hc : c.trader = none ∨ c.trader = some t) :
    (v'.call c).1 = (v.call c).1 ∧ Same t (v.call c).2 (v'.call c).2 := by
  have hown : ∀ {t'}, c.trader = some t' → t' = t := fun ht =>
    Option.some_inj.mp (ht.symm.trans (hc.resolve_left (by simp [ht])))
  unfold RiskView.call
  cases c with
  | checkOrder o =>
    obtain rfl := hown rfl
    exact ⟨congrArg RiskResult.reason h.check.1, h.check.2⟩
  | onFill t' s side qty p =>
    obtain rfl := hown rfl
    dsimp only
    exact ⟨rfl, h.update _⟩
  | killTrader t' | unkillTrader t' =>
    obtain rfl := hown rfl
    dsimp only
    exact ⟨rfl, h.update _⟩
  | killAll => exact ⟨rfl, h.states, rfl, h.limits⟩
  | unkillAll =>
    refine ⟨rfl, ?_, rfl, h.limits⟩
    dsimp only
    rw [h.states]
  | isKilled t' =>
    obtain rfl := hown rfl
    refine ⟨?_, h⟩
    unfold killed
    dsimp only
    rw [h.states, h.globalKill]
  | getPosition t' s =>
    obtain rfl := hown rfl
    refine ⟨?_, h⟩
    dsimp only
    rw [h.states]

end RiskView

/-! ## Runs of the engine -/

/-- What an engine holds of one trader. -/
structure TraderView where
  state : TraderRiskState
  globalKill : Bool
  limits : Option TraderRiskLimits
  defaultLimits : TraderRiskLimits

namespace RiskEngine

def operate (e : RiskEngine) : RiskRequest → RiskResult × RiskEngine
  | .call c => e.call c
  | .setTraderLimits traderId limits => (.void, e.setTraderLimits traderId limits)
  | .setDefaultLimits limits => (.void, e.setDefaultLimits limits)

def traderView (t : TraderId) (e : RiskEngine) : TraderView where
  state := e.getState t
  globalKill := e.globalKill
  limits := e.traderLimits.lookup t
  defaultLimits := e.defaultLimits

/-- The limits that were set. -/
def settings (e : RiskEngine) : (Finmap fun _ : TraderId => TraderRiskLimits) × TraderRiskLimits :=
  (e.traderLimits, e.defaultLimits)

theorem checkPositionLimit_settings (e : RiskEngine) (t : TraderId) (o : Order) :
    (e.checkPositionLimit t o).2.settings = e.settings := by
  unfold checkPositionLimit
  dsimp only
  split_ifs <;> rfl

theorem checkRateLimit_settings (e : RiskEngine) (t : TraderId) (now : Timestamp) :
    (e.checkRateLimit t now).2.settings = e.settings := by
  unfold checkRateLimit
  dsimp only
  split_ifs <;> rfl

theorem checkOrder_settings (e : RiskEngine) (o : Order) :
    (e.checkOrder o).2.settings = e.settings := by
  let e₁ : RiskEngine := { e with ordersChecked := e.ordersChecked + 1 }
  have hpos : (e₁.checkPositionLimit o.traderId o).2.settings = e.settings :=
    checkPositionLimit_settings e₁ _ _
  have hrate := (checkRateLimit_settings (e₁.checkPositionLimit o.traderId o).2 o.traderId
    o.submitTime).trans hpos
  unfold checkOrder
  dsimp only
  split_ifs
  · rfl
  · rfl
  · rfl
  · exact hpos
  · exact hrate
  · exact hrate

theorem call_settings (e : RiskEngine) (c : RiskCall) : (e.call c).2.settings = e.settings := by
  cases c with
  | checkOrder o => exact checkOrder_settings e o
  | onFill t s side qty p => cases side <;> rfl
  | _ => rfl

theorem traderView_congr {t : TraderId} {e e' : RiskEngine} (h : RiskView.Same t e.view e'.view)
    (hlimits : e'.traderLimits.lookup t = e.traderLimits.lookup t)
    (hdefault : e'.defaultLimits = e.defaultLimits) : e.traderView t = e'.traderView t := by
  obtain ⟨hstates, hkill, -⟩ := h
  unfold traderView
  rw [hlimits, hdefault, ← show e'.getState t = e.getState t from hstates,
    ← show e'.globalKill = e.globalKill from hkill]

theorem same_of_traderView {t : TraderId} {e e' : RiskEngine} (h : e.traderView t = e'.traderView t) :
    RiskView.Same t e.view e'.view := by
  unfold traderView at h
  simp only [TraderView.mk.injEq] at h
  obtain ⟨hstate, hkill, hlimits, hdefault⟩ := h
  refine ⟨hstate.symm, hkill.symm, ?_⟩
  change e'.getLimits t = e.getLimits t
  unfold getLimits
  rw [hlimits, hdefault]

theorem unwinding_trader (t : TraderId) :
    Run.Unwinding operate (RiskRequest.Concerns t) (fun _ => True) (traderView t) where
  keeps _ _ h := h
  respects e op _ hop := by
    unfold RiskRequest.Concerns at hop
    rw [not_or] at hop
    obtain ⟨t', ht'⟩ := Option.ne_none_iff_exists'.mp hop.1
    have hne : t' ≠ t := fun h => hop.2 (ht'.trans (congrArg some h))
    cases op with
    | call c =>
      obtain ⟨hlimits, hdefault⟩ := Prod.mk.inj (e.call_settings c)
      have hsame := RiskView.same_call_of_ne ht' hne e.view
      rw [commutes_view e c] at hsame
      exact (traderView_congr hsame (congrArg _ hlimits) hdefault).symm
    | setTraderLimits t'' limits =>
      obtain rfl := Option.some_inj.mp ht'
      unfold operate traderView setTraderLimits
      dsimp only
      rw [Finmap.lookup_insert_of_ne _ hne.symm]
      rfl
    | setDefaultLimits limits => cases ht'
  consistent e e' op _ _ hview hop := by
    have hsame := same_of_traderView hview
    unfold traderView at hview
    simp only [TraderView.mk.injEq] at hview
    obtain ⟨hstate, hkill, hlimits, hdefault⟩ := hview
    cases op with
    | call c =>
      obtain ⟨hl, hd⟩ := Prod.mk.inj (e.call_settings c)
      obtain ⟨hl', hd'⟩ := Prod.mk.inj (e'.call_settings c)
      have hc := commutes_view e c
      have hc' := commutes_view e' c
      obtain ⟨hout, hnext⟩ := hsame.call hop
      rw [hc, hc'] at hout hnext
      refine ⟨hout.symm, traderView_congr hnext ?_ (hd'.trans (hdefault.symm.trans hd.symm))⟩
      exact (congrArg _ hl').trans (hlimits.symm.trans (congrArg _ hl).symm)
    | setTraderLimits t' limits =>
      have ht : t' = t := Option.some_inj.mp (hop.resolve_left nofun)
      refine ⟨rfl, ?_⟩
      unfold operate traderView setTraderLimits
      dsimp only
      rw [ht, Finmap.lookup_insert, Finmap.lookup_insert, hkill, hdefault]
      exact congrArg (fun s => (⟨s, e'.globalKill, some limits, e'.defaultLimits⟩ : TraderView)) hstate
    | setDefaultLimits limits =>
      refine ⟨rfl, ?_⟩
      unfold operate traderView setDefaultLimits
      dsimp only
      rw [hkill, hlimits]
      exact congrArg
        (fun s => (⟨s, e'.globalKill, e'.traderLimits.lookup t, limits⟩ : TraderView)) hstate

/-- **A trader does not see the others**: without the operations about other traders, he is told the
same and ends with the same state, switches and limits. -/
theorem trader_isolated (e : RiskEngine) (t : TraderId) (ops : List RiskRequest) :
    Run.observed operate (RiskRequest.Concerns t) e ops =
        Run.outputs operate e (ops.filter fun op => op.Concerns t) ∧
      (Run.final operate e ops).traderView t =
        (Run.final operate e (ops.filter fun op => op.Concerns t)).traderView t :=
  (unwinding_trader t).observed_eq trivial ops

end RiskEngine

end HftSdk
