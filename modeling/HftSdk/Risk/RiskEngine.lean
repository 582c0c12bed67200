import HftSdk.Common.Types
import HftSdk.Lib.Defaults
import Mathlib.Algebra.Order.Group.Unbundled.Int

/-!
# The risk engine

`risk/risk_engine.hpp` and `.cpp`. A check returns its reject reason, `RejectReason.none` when it
passes, together with the engine it leaves: `get_state` creates the state of a trader it has not
seen, and the rate limit keeps a window of timestamps. `check_self_trade` is left out: nothing calls
it.
-/

namespace HftSdk

abbrev DEFAULT_POSITION_LIMIT : Int := 10000
abbrev DEFAULT_ORDER_RATE_LIMIT : UInt32 := 1000
abbrev DEFAULT_RATE_LIMIT_WINDOW_MS : UInt32 := 1000

/-! ## Data -/

structure TraderRiskLimits where
  maxPositionPerSymbol : Int := DEFAULT_POSITION_LIMIT
  maxNetPosition : Int := DEFAULT_POSITION_LIMIT * 10
  maxOrderRate : UInt32 := DEFAULT_ORDER_RATE_LIMIT
  rateWindowMs : UInt32 := DEFAULT_RATE_LIMIT_WINDOW_MS
  selfTradePrevention : Bool := true

structure TraderRiskState where
  positions : Finmap fun _ : Symbol => Int := ∅
  orderTimestamps : List Timestamp := []
  netPosition : Int := 0
  killed : Bool := false

/-- Apply a signed quantity to a trader's position and net position. -/
def TraderRiskState.move (state : TraderRiskState) (symbol : Symbol) (qty : Int) : TraderRiskState :=
  { state with
    positions := state.positions.alter 0 symbol (· + qty)
    netPosition := state.netPosition + qty }

structure RiskEngine where
  defaultLimits : TraderRiskLimits := {}
  traderLimits : Finmap fun _ : TraderId => TraderRiskLimits := ∅
  traderStates : Finmap fun _ : TraderId => TraderRiskState := ∅
  globalKill : Bool := false
  ordersChecked : Nat := 0
  ordersRejected : Nat := 0

namespace RiskEngine

/-! ## Configuration and kill switch -/

def setTraderLimits (e : RiskEngine) (traderId : TraderId) (limits : TraderRiskLimits) : RiskEngine :=
  { e with traderLimits := e.traderLimits.insert traderId limits }

def setDefaultLimits (e : RiskEngine) (limits : TraderRiskLimits) : RiskEngine :=
  { e with defaultLimits := limits }

def getLimits (e : RiskEngine) (traderId : TraderId) : TraderRiskLimits :=
  (e.traderLimits.lookup traderId).getD e.defaultLimits

/-- `get_state`, as what is read through the reference. -/
def getState (e : RiskEngine) (traderId : TraderId) : TraderRiskState :=
  e.traderStates.valueAt {} traderId

/-- `get_state`, as what is written through the reference. -/
def updateState (e : RiskEngine) (traderId : TraderId) (f : TraderRiskState → TraderRiskState) :
    RiskEngine :=
  { e with traderStates := e.traderStates.alter {} traderId f }

def killTrader (e : RiskEngine) (traderId : TraderId) : RiskEngine :=
  e.updateState traderId fun state => { state with killed := true }

def killAll (e : RiskEngine) : RiskEngine := { e with globalKill := true }

def unkillTrader (e : RiskEngine) (traderId : TraderId) : RiskEngine :=
  e.updateState traderId fun state => { state with killed := false }

def unkillAll (e : RiskEngine) : RiskEngine :=
  { e with
    globalKill := false
    traderStates := e.traderStates.mapVals fun _ state => { state with killed := false } }

def isKilled (e : RiskEngine) (traderId : TraderId) : Bool :=
  if e.globalKill then true
  else
    match e.traderStates.lookup traderId with
    | none => false
    | some state => state.killed

/-! ## Positions -/

def getPosition (e : RiskEngine) (traderId : TraderId) (symbol : Symbol) : Int :=
  match e.traderStates.lookup traderId with
  | none => 0
  | some state => state.positions.valueAt 0 symbol

def onFill (e : RiskEngine) (traderId : TraderId) (symbol : Symbol) (side : Side) (qty : Int)
    (_price : Int) : RiskEngine :=
  match side with
  | .buy => e.updateState traderId fun state => state.move symbol qty
  | .sell => e.updateState traderId fun state => state.move symbol (-qty)

/-! ## Checks -/

def checkKillSwitch (e : RiskEngine) (traderId : TraderId) : RejectReason :=
  if e.globalKill then .killSwitchActive
  else if e.isKilled traderId then .killSwitchActive
  else .none

def checkPriceValidity (order : Order) : RejectReason :=
  if order.type = .limit ∧ order.price ≤ 0 then .invalidPrice else .none

def checkQuantityValidity (order : Order) : RejectReason :=
  if order.quantity ≤ 0 then .invalidQuantity else .none

/-- The position the order leads to from `pos` when it is filled. -/
def projected (order : Order) (pos : Int) : Int :=
  match order.side with
  | .buy => pos + order.quantity
  | .sell => pos - order.quantity

def checkPositionLimit (e : RiskEngine) (traderId : TraderId) (order : Order) :
    RejectReason × RiskEngine :=
  let limits := e.getLimits traderId
  let state := e.getState traderId
  let e := e.updateState traderId id
  let currentPos := state.positions.valueAt 0 order.symbol
  if limits.maxPositionPerSymbol < |projected order currentPos| then (.positionLimit, e)
  else if limits.maxNetPosition < |projected order state.netPosition| then (.positionLimit, e)
  else (.none, e)

/-- The timestamps that are still inside the window; the subtraction wraps around. -/
def inWindow (limits : TraderRiskLimits) (now : Timestamp) (ts : List Timestamp) : List Timestamp :=
  ts.dropWhile fun front => limits.rateWindowMs.toUInt64 * 1000000 < now - front

def checkRateLimit (e : RiskEngine) (traderId : TraderId) (now : Timestamp) :
    RejectReason × RiskEngine :=
  let limits := e.getLimits traderId
  let kept := inWindow limits now (e.getState traderId).orderTimestamps
  if limits.maxOrderRate.toNat ≤ kept.length then
    (.rateLimit, e.updateState traderId fun state => { state with orderTimestamps := kept })
  else
    (.none, e.updateState traderId fun state => { state with orderTimestamps := kept ++ [now] })

/-- Count a rejection. -/
def reject (e : RiskEngine) (r : RejectReason) : RejectReason × RiskEngine :=
  (r, { e with ordersRejected := e.ordersRejected + 1 })

def checkOrder (e : RiskEngine) (order : Order) : RejectReason × RiskEngine :=
  let e := { e with ordersChecked := e.ordersChecked + 1 }
  if e.checkKillSwitch order.traderId ≠ .none then e.reject (e.checkKillSwitch order.traderId)
  else if checkPriceValidity order ≠ .none then e.reject (checkPriceValidity order)
  else if checkQuantityValidity order ≠ .none then e.reject (checkQuantityValidity order)
  else
    let (r, e) := e.checkPositionLimit order.traderId order
    if r ≠ .none then e.reject r
    else
      let (r, e) := e.checkRateLimit order.traderId order.submitTime
      if r ≠ .none then e.reject r else (.none, e)

/-! ## What the operations do to positions, limits and switches -/

theorem getState_updateState (e : RiskEngine) (t t' : TraderId)
    (f : TraderRiskState → TraderRiskState) :
    (e.updateState t f).getState t' = if t' = t then f (e.getState t) else e.getState t' :=
  Finmap.valueAt_alter ..

theorem getPosition_eq (e : RiskEngine) (t : TraderId) (s : Symbol) :
    e.getPosition t s = (e.getState t).positions.valueAt 0 s := by
  unfold getPosition getState Finmap.valueAt
  cases e.traderStates.lookup t <;> simp

theorem isKilled_eq (e : RiskEngine) (t : TraderId) :
    e.isKilled t = (e.globalKill || (e.getState t).killed) := by
  unfold isKilled getState Finmap.valueAt
  cases e.globalKill <;> cases e.traderStates.lookup t <;> rfl

theorem getPosition_updateState {f : TraderRiskState → TraderRiskState}
    (hf : ∀ state, (f state).positions = state.positions) (e : RiskEngine) (t t' : TraderId)
    (s : Symbol) : (e.updateState t f).getPosition t' s = e.getPosition t' s := by
  rw [getPosition_eq, getPosition_eq, getState_updateState]
  split_ifs with h
  · rw [hf, h]
  · rfl

theorem getPosition_onFill (e : RiskEngine) (t : TraderId) (s : Symbol) (side : Side) (qty p : Int)
    (t' : TraderId) (s' : Symbol) :
    (e.onFill t s side qty p).getPosition t' s' =
      if t' = t ∧ s' = s then e.getPosition t s + side.signed qty else e.getPosition t' s' := by
  have hmove : ∀ m, (e.updateState t fun state => state.move s m).getPosition t' s' =
      if t' = t ∧ s' = s then e.getPosition t s + m else e.getPosition t' s' := by
    intro m
    rw [getPosition_eq, getState_updateState]
    by_cases ht : t' = t
    · rw [if_pos ht, TraderRiskState.move, Finmap.valueAt_alter, ← getPosition_eq, ← getPosition_eq]
      by_cases hs : s' = s <;> simp [ht, hs]
    · rw [if_neg ht, if_neg fun h => ht h.1, getPosition_eq]
  cases side
  · exact hmove qty
  · exact hmove (-qty)

@[simp] theorem getPosition_killTrader (e : RiskEngine) (t t' : TraderId) (s : Symbol) :
    (e.killTrader t).getPosition t' s = e.getPosition t' s := by
  apply getPosition_updateState
  exact fun _ => rfl

@[simp] theorem getPosition_unkillTrader (e : RiskEngine) (t t' : TraderId) (s : Symbol) :
    (e.unkillTrader t).getPosition t' s = e.getPosition t' s := by
  apply getPosition_updateState
  exact fun _ => rfl

@[simp] theorem getPosition_unkillAll (e : RiskEngine) (t : TraderId) (s : Symbol) :
    e.unkillAll.getPosition t s = e.getPosition t s := by
  unfold getPosition unkillAll
  dsimp only
  rw [Finmap.lookup_mapVals]
  cases e.traderStates.lookup t <;> rfl

@[simp] theorem getLimits_onFill (e : RiskEngine) (t : TraderId) (s : Symbol) (side : Side)
    (qty p : Int) (t' : TraderId) : (e.onFill t s side qty p).getLimits t' = e.getLimits t' := by
  cases side <;> rfl

theorem projected_eq (order : Order) (pos : Int) :
    projected order pos = pos + order.side.signed order.quantity := by
  unfold projected Side.signed
  cases order.side
  · rfl
  · exact Int.sub_eq_add_neg

/-- What an order must satisfy when it is checked. -/
structure Gate (e : RiskEngine) (order : Order) : Prop where
  alive : e.isKilled order.traderId = false
  price : order.type = .limit → 0 < order.price
  quantity : 0 < order.quantity
  position : |e.getPosition order.traderId order.symbol + order.side.signed order.quantity| ≤
    (e.getLimits order.traderId).maxPositionPerSymbol
  net : |(e.getState order.traderId).netPosition + order.side.signed order.quantity| ≤
    (e.getLimits order.traderId).maxNetPosition

instance (e : RiskEngine) (order : Order) : Decidable (e.Gate order) :=
  decidable_of_iff (e.isKilled order.traderId = false ∧ (order.type = .limit → 0 < order.price) ∧
    0 < order.quantity ∧
    |e.getPosition order.traderId order.symbol + order.side.signed order.quantity| ≤
      (e.getLimits order.traderId).maxPositionPerSymbol ∧
    |(e.getState order.traderId).netPosition + order.side.signed order.quantity| ≤
      (e.getLimits order.traderId).maxNetPosition)
    ⟨fun ⟨h1, h2, h3, h4, h5⟩ => ⟨h1, h2, h3, h4, h5⟩, fun ⟨h1, h2, h3, h4, h5⟩ => ⟨h1, h2, h3, h4, h5⟩⟩

/-- The engines agree on everything but the rate windows and the counters. -/
structure Agrees (e e' : RiskEngine) : Prop where
  position : ∀ t s, e'.getPosition t s = e.getPosition t s
  net : ∀ t, (e'.getState t).netPosition = (e.getState t).netPosition
  killed : ∀ t, e'.isKilled t = e.isKilled t
  limits : ∀ t, e'.getLimits t = e.getLimits t

theorem Agrees.refl (e : RiskEngine) : e.Agrees e :=
  ⟨fun _ _ => rfl, fun _ => rfl, fun _ => rfl, fun _ => rfl⟩

theorem Agrees.trans {e e' e'' : RiskEngine} (h : e.Agrees e') (h' : e'.Agrees e'') : e.Agrees e'' :=
  ⟨fun t s => (h'.position t s).trans (h.position t s), fun t => (h'.net t).trans (h.net t),
    fun t => (h'.killed t).trans (h.killed t), fun t => (h'.limits t).trans (h.limits t)⟩

theorem agrees_updateState {f : TraderRiskState → TraderRiskState}
    (hf : ∀ state, (f state).positions = state.positions ∧
      (f state).netPosition = state.netPosition ∧ (f state).killed = state.killed)
    (e : RiskEngine) (t : TraderId) : e.Agrees (e.updateState t f) := by
  refine ⟨fun t' s => getPosition_updateState (fun state => (hf state).1) e t t' s, fun t' => ?_,
    fun t' => ?_, fun _ => rfl⟩
  · rw [getState_updateState]
    split_ifs with h
    · rw [(hf _).2.1, h]
    · rfl
  · rw [isKilled_eq, isKilled_eq, getState_updateState]
    split_ifs with h
    · rw [(hf _).2.2, h]
      rfl
    · rfl

theorem agrees_counters (e : RiskEngine) (checked rejected : Nat) :
    e.Agrees { e with ordersChecked := checked, ordersRejected := rejected } :=
  ⟨fun _ _ => rfl, fun _ => rfl, fun _ => rfl, fun _ => rfl⟩

theorem checkPositionLimit_agrees (e : RiskEngine) (t : TraderId) (o : Order) :
    e.Agrees (e.checkPositionLimit t o).2 := by
  have h : e.Agrees (e.updateState t id) := agrees_updateState (fun _ => ⟨rfl, rfl, rfl⟩) e t
  unfold checkPositionLimit
  dsimp only
  split_ifs <;> exact h

theorem checkRateLimit_agrees (e : RiskEngine) (t : TraderId) (now : Timestamp) :
    e.Agrees (e.checkRateLimit t now).2 := by
  unfold checkRateLimit
  dsimp only
  split_ifs <;> refine agrees_updateState ?_ e t <;> exact fun _ => ⟨rfl, rfl, rfl⟩

theorem checkOrder_agrees (e : RiskEngine) (o : Order) : e.Agrees (e.checkOrder o).2 := by
  have hcount : e.Agrees { e with ordersChecked := e.ordersChecked + 1 } := agrees_counters e _ _
  have hpos := hcount.trans (checkPositionLimit_agrees _ o.traderId o)
  have hrate := hpos.trans (checkRateLimit_agrees _ o.traderId o.submitTime)
  unfold checkOrder reject
  dsimp only
  split_ifs
  · exact hcount.trans (agrees_counters _ _ _)
  · exact hcount.trans (agrees_counters _ _ _)
  · exact hcount.trans (agrees_counters _ _ _)
  · exact hpos.trans (agrees_counters _ _ _)
  · exact hrate.trans (agrees_counters _ _ _)
  · exact hrate

theorem checkKillSwitch_eq_none {e : RiskEngine} {t : TraderId} :
    e.checkKillSwitch t = .none ↔ e.isKilled t = false := by
  unfold checkKillSwitch
  rw [isKilled_eq]
  cases e.globalKill <;> cases (e.getState t).killed <;> simp

theorem checkPositionLimit_eq_none {e : RiskEngine} {t : TraderId} {o : Order} :
    (e.checkPositionLimit t o).1 = .none ↔
      |e.getPosition t o.symbol + o.side.signed o.quantity| ≤ (e.getLimits t).maxPositionPerSymbol ∧
        |(e.getState t).netPosition + o.side.signed o.quantity| ≤ (e.getLimits t).maxNetPosition := by
  unfold checkPositionLimit
  rw [getPosition_eq]
  dsimp only
  rw [projected_eq, projected_eq]
  split_ifs with h h' <;> simp only [false_iff, true_iff, not_and, not_le]
  · intro hle
    exact absurd hle (not_le.mpr h)
  · intro _
    exact h'
  · exact ⟨not_lt.mp h, not_lt.mp h'⟩

/-- **An accepted order has passed the gate.** -/
theorem gate_of_checkOrder {e : RiskEngine} {o : Order} (h : (e.checkOrder o).1 = .none) :
    e.Gate o := by
  unfold checkOrder reject at h
  dsimp only at h
  split_ifs at h with hkill hprice hqty hpos hrate
  · exact absurd h hkill
  · exact absurd h hprice
  · exact absurd h hqty
  · exact absurd h hpos
  · exact absurd h hrate
  · rw [not_not] at hkill hprice hqty hpos
    obtain ⟨hsym, hnet⟩ := checkPositionLimit_eq_none.mp hpos
    refine ⟨checkKillSwitch_eq_none.mp hkill, fun htype => ?_, ?_, hsym, hnet⟩
    · by_contra hp
      rw [checkPriceValidity, if_pos ⟨htype, not_lt.mp hp⟩] at hprice
      cases hprice
    · by_contra hq
      rw [checkQuantityValidity, if_pos (not_lt.mp hq)] at hqty
      cases hqty

end RiskEngine

end HftSdk
