import HftSdk.Common.MachineInt
import HftSdk.Risk.RiskEngine
import Mathlib.Algebra.BigOperators.Group.List.Basic
import Mathlib.Algebra.Order.Group.Abs
import Mathlib.Tactic.NormNum

/-!
# The position check on 64-bit integers

`Quantity` is an `int64_t`. Here `on_fill` and `check_position_limit` compute with `Int64`, whose
operations wrap around, `std::abs` of the least value included. Positions are right when the exact
sums fit, for wrapping is a ring homomorphism. A projected position may leave the range, though, and
come back within the limit (`WrapsInto`); `check_exact_iff` says exactly when the check is wrong.
-/

namespace HftSdk

namespace Machine

/-! ## Data -/

structure TraderRiskLimits where
  maxPositionPerSymbol : Int64 := 10000
  maxNetPosition : Int64 := 100000

structure TraderRiskState where
  positions : Finmap fun _ : Symbol => Int64 := ∅
  netPosition : Int64 := 0

structure RiskEngine where
  defaultLimits : TraderRiskLimits := {}
  traderLimits : Finmap fun _ : TraderId => TraderRiskLimits := ∅
  traderStates : Finmap fun _ : TraderId => TraderRiskState := ∅

/-- What `on_fill` takes. -/
structure Fill where
  traderId : TraderId
  symbol : Symbol := {}
  side : Side
  qty : Int64

/-- What the position check reads of an order. -/
structure Order where
  traderId : TraderId
  symbol : Symbol := {}
  side : Side
  quantity : Int64

/-- `std::abs`; the least value is its own negative. -/
def stdAbs (a : Int64) : Int64 := if a < 0 then -a else a

/-- The state after an addition, or a subtraction, of a quantity. -/
def TraderRiskState.move (state : TraderRiskState) (symbol : Symbol) (f : Int64 → Int64) :
    TraderRiskState where
  positions := state.positions.alter 0 symbol f
  netPosition := f state.netPosition

namespace RiskEngine

def getLimits (e : RiskEngine) (traderId : TraderId) : TraderRiskLimits :=
  (e.traderLimits.lookup traderId).getD e.defaultLimits

def getState (e : RiskEngine) (traderId : TraderId) : TraderRiskState :=
  e.traderStates.valueAt {} traderId

def updateState (e : RiskEngine) (traderId : TraderId) (f : TraderRiskState → TraderRiskState) :
    RiskEngine :=
  { e with traderStates := e.traderStates.alter {} traderId f }

def onFill (e : RiskEngine) (fill : Fill) : RiskEngine :=
  match fill.side with
  | .buy => e.updateState fill.traderId fun state => state.move fill.symbol (· + fill.qty)
  | .sell => e.updateState fill.traderId fun state => state.move fill.symbol (· - fill.qty)

/-- The position the order leads to from `pos` when it is filled. -/
def projected (order : Order) (pos : Int64) : Int64 :=
  match order.side with
  | .buy => pos + order.quantity
  | .sell => pos - order.quantity

def checkPositionLimit (e : RiskEngine) (order : Order) : RejectReason × RiskEngine :=
  let limits := e.getLimits order.traderId
  let state := e.getState order.traderId
  let e := e.updateState order.traderId id
  let currentPos := state.positions.valueAt 0 order.symbol
  if limits.maxPositionPerSymbol < stdAbs (projected order currentPos) then (.positionLimit, e)
  else if limits.maxNetPosition < stdAbs (projected order state.netPosition) then (.positionLimit, e)
  else (.none, e)

end RiskEngine

/-! ## Exact sums -/

/-- The exact quantity of a fill, with its sign. -/
def Fill.signed (fill : Fill) : Int := fill.side.signed fill.qty.toInt

/-- The exact position of a trader in a symbol. -/
def exactPosition (fills : List Fill) (t : TraderId) (s : Symbol) : Int :=
  ((fills.filter fun fill => fill.traderId = t ∧ fill.symbol = s).map Fill.signed).sum

/-- The exact net position of a trader. -/
def exactNet (fills : List Fill) (t : TraderId) : Int :=
  ((fills.filter fun fill => fill.traderId = t).map Fill.signed).sum

/-- The exact position the order leads to from `pos`. -/
def exactProjected (order : Order) (pos : Int) : Int := pos + order.side.signed order.quantity.toInt

/-- Out of the range, and back within the limit: as the least value, whose absolute value is negative,
or around it. -/
def WrapsInto (limit x : Int) : Prop := 2 ^ 63 ≤ |x| ∧ (|x| = 2 ^ 63 ∨ 2 ^ 64 - |x| ≤ limit)

instance (limit x : Int) : Decidable (WrapsInto limit x) := by
  unfold WrapsInto
  infer_instance

/-! ## Wrapping around -/

theorem ofInt_signed (side : Side) (q : Int64) (x : Int) :
    Int64.ofInt (x + side.signed q.toInt) =
      match side with
      | .buy => Int64.ofInt x + q
      | .sell => Int64.ofInt x - q := by
  cases side
  · rw [Side.signed, Int64.ofInt_add, Int64.ofInt_toInt]
  · rw [Side.signed, Int.add_neg_eq_sub, Int64.ofInt_sub, Int64.ofInt_toInt]

theorem toInt_stdAbs (a : Int64) :
    (stdAbs a).toInt = if a.toInt = -2 ^ 63 then -2 ^ 63 else |a.toInt| := by
  have hlo := a.le_toInt
  have hhi := a.toInt_lt
  unfold stdAbs
  by_cases hneg : a < 0
  · have hlt : a.toInt < 0 := by simpa using Int64.lt_iff_toInt_lt.mp hneg
    rw [if_pos hneg, Int64.toInt_neg, abs_of_neg hlt, Int.bmod_def]
    norm_num at hlo hhi ⊢
    split_ifs <;> omega
  · have hle : 0 ≤ a.toInt := by
      have := mt Int64.lt_iff_toInt_lt.mpr hneg
      simpa using this
    rw [if_neg hneg, abs_of_nonneg hle, if_neg (by omega)]

theorem stdAbs_le_iff {limit : Int64} (hlimit : 0 ≤ limit.toInt) {x : Int} (hlo : -2 ^ 64 < x)
    (hhi : x < 2 ^ 64) :
    ¬ limit < stdAbs (Int64.ofInt x) ↔ |x| ≤ limit.toInt ∨ WrapsInto limit.toInt x := by
  have hmax := limit.toInt_lt
  rw [Int64.lt_iff_toInt_lt, toInt_stdAbs, toInt_ofInt_cases hlo hhi, not_lt]
  unfold WrapsInto
  rcases lt_or_ge x (-2 ^ 63) with hunder | hlow
  · -- below the range: up by one turn, which makes it positive
    have habs : |x| = -x := abs_of_neg (by omega)
    rw [if_pos hunder, abs_of_pos (show 0 < x + 2 ^ 64 by omega), habs]
    omega
  · rw [if_neg (not_lt.mpr hlow)]
    rcases lt_or_ge x (2 ^ 63) with hhigh | hover
    · -- in the range, where only the least value is wrong
      rw [if_pos hhigh]
      rcases abs_cases x with ⟨habs, hx⟩ | ⟨habs, hx⟩ <;> rw [habs] <;> split_ifs <;> omega
    · -- above the range: down by one turn, which makes it negative
      have habs : |x| = x := abs_of_pos (by omega)
      rw [if_neg (not_lt.mpr hover), abs_of_neg (show x - 2 ^ 64 < 0 by omega), habs]
      split_ifs <;> omega

/-! ## Positions -/

namespace RiskEngine

theorem getState_updateState (e : RiskEngine) (t t' : TraderId)
    (f : TraderRiskState → TraderRiskState) :
    (e.updateState t f).getState t' = if t' = t then f (e.getState t) else e.getState t' :=
  Finmap.valueAt_alter ..

/-- An engine whose limits are set, before any fill. -/
def withLimits (defaultLimits : TraderRiskLimits)
    (traderLimits : Finmap fun _ : TraderId => TraderRiskLimits) : RiskEngine :=
  { defaultLimits, traderLimits }

/-- The state of every trader is the exact one, wrapped around. -/
def Wraps (e : RiskEngine) (fills : List Fill) : Prop :=
  ∀ t, (∀ s, (e.getState t).positions.valueAt 0 s = Int64.ofInt (exactPosition fills t s)) ∧
    (e.getState t).netPosition = Int64.ofInt (exactNet fills t)

theorem wraps_withLimits (defaultLimits : TraderRiskLimits)
    (traderLimits : Finmap fun _ : TraderId => TraderRiskLimits) :
    (withLimits defaultLimits traderLimits).Wraps [] := by
  intro t
  unfold withLimits getState
  rw [Finmap.valueAt_empty]
  refine ⟨fun s => ?_, rfl⟩
  rw [Finmap.valueAt_empty]
  rfl

end RiskEngine

theorem exactPosition_concat (fills : List Fill) (fill : Fill) (t : TraderId) (s : Symbol) :
    exactPosition (fills ++ [fill]) t s =
      if fill.traderId = t ∧ fill.symbol = s then exactPosition fills t s + fill.signed
      else exactPosition fills t s := by
  unfold exactPosition
  rw [List.filter_append, List.map_append, List.sum_append]
  by_cases h : fill.traderId = t ∧ fill.symbol = s
  · simp [h]
  · simp [h]

theorem exactNet_concat (fills : List Fill) (fill : Fill) (t : TraderId) :
    exactNet (fills ++ [fill]) t =
      if fill.traderId = t then exactNet fills t + fill.signed else exactNet fills t := by
  unfold exactNet
  rw [List.filter_append, List.map_append, List.sum_append]
  by_cases h : fill.traderId = t
  · simp [h]
  · simp [h]

namespace RiskEngine

theorem Wraps.onFill {e : RiskEngine} {fills : List Fill} (h : e.Wraps fills) (fill : Fill) :
    (e.onFill fill).Wraps (fills ++ [fill]) := by
  have hmove : ∀ f : Int64 → Int64, (∀ x, f (Int64.ofInt x) = Int64.ofInt (x + fill.signed)) →
      (e.updateState fill.traderId fun state => state.move fill.symbol f).Wraps (fills ++ [fill]) := by
    intro f hf t
    obtain ⟨hpos, hnet⟩ := h t
    rw [getState_updateState, exactNet_concat]
    simp only [exactPosition_concat]
    by_cases ht : t = fill.traderId
    · subst ht
      simp only [if_true, true_and, TraderRiskState.move]
      refine ⟨fun s => ?_, ?_⟩
      · rw [Finmap.valueAt_alter]
        by_cases hs : s = fill.symbol
        · rw [if_pos hs, if_pos hs.symm, hpos, hf, hs]
        · rw [if_neg hs, if_neg (Ne.symm hs), hpos]
      · rw [hnet, hf]
    · rw [if_neg ht, if_neg (Ne.symm ht)]
      refine ⟨fun s => ?_, hnet⟩
      rw [if_neg fun h => ht h.1.symm, hpos]
  unfold RiskEngine.onFill
  cases hside : fill.side
  · refine hmove _ fun x => ?_
    rw [Fill.signed, hside, ofInt_signed]
  · refine hmove _ fun x => ?_
    rw [Fill.signed, hside, ofInt_signed]

/-- **After any fills** the state is the exact one, wrapped around. -/
theorem wraps_run (defaultLimits : TraderRiskLimits)
    (traderLimits : Finmap fun _ : TraderId => TraderRiskLimits) (fills : List Fill) :
    (fills.foldl onFill (withLimits defaultLimits traderLimits)).Wraps fills := by
  induction fills using List.reverseRecOn with
  | nil => exact wraps_withLimits defaultLimits traderLimits
  | append_singleton fills fill ih =>
    rw [List.foldl_append, List.foldl_cons, List.foldl_nil]
    exact ih.onFill fill

theorem getLimits_run (e : RiskEngine) (fills : List Fill) (t : TraderId) :
    (fills.foldl onFill e).getLimits t = e.getLimits t := by
  induction fills generalizing e with
  | nil => rfl
  | cons fill fills ih =>
    rw [List.foldl_cons, ih]
    unfold onFill
    cases fill.side <;> rfl

/-! ## The check -/

theorem projected_ofInt (order : Order) (pos : Int) :
    projected order (Int64.ofInt pos) = Int64.ofInt (exactProjected order pos) := by
  unfold projected exactProjected
  rw [ofInt_signed]

theorem exactProjected_bounds {order : Order} (hq : 1 ≤ order.quantity) {pos : Int}
    (hpos : Fits pos) :
    -2 ^ 64 < exactProjected order pos ∧ exactProjected order pos < 2 ^ 64 := by
  have hone : 1 ≤ order.quantity.toInt := by simpa using Int64.le_iff_toInt_le.mp hq
  have hmax := order.quantity.toInt_lt
  obtain ⟨hlo, hhi⟩ := hpos
  unfold exactProjected
  cases order.side <;> simp only [Side.signed] <;> omega

theorem checkPositionLimit_eq_none {e : RiskEngine} {fills : List Fill} (h : e.Wraps fills)
    {order : Order} (hq : 1 ≤ order.quantity)
    (hpos : Fits (exactPosition fills order.traderId order.symbol))
    (hnet : Fits (exactNet fills order.traderId))
    (hposLimit : 0 ≤ (e.getLimits order.traderId).maxPositionPerSymbol.toInt)
    (hnetLimit : 0 ≤ (e.getLimits order.traderId).maxNetPosition.toInt) :
    let limits := e.getLimits order.traderId
    let pos := exactProjected order (exactPosition fills order.traderId order.symbol)
    let net := exactProjected order (exactNet fills order.traderId)
    (e.checkPositionLimit order).1 = .none ↔
      (|pos| ≤ limits.maxPositionPerSymbol.toInt ∨ WrapsInto limits.maxPositionPerSymbol.toInt pos) ∧
        (|net| ≤ limits.maxNetPosition.toInt ∨ WrapsInto limits.maxNetPosition.toInt net) := by
  intro limits pos net
  obtain ⟨hposLo, hposHi⟩ := exactProjected_bounds hq hpos
  obtain ⟨hnetLo, hnetHi⟩ := exactProjected_bounds hq hnet
  obtain ⟨hstored, hstoredNet⟩ := h order.traderId
  rw [← stdAbs_le_iff hposLimit hposLo hposHi, ← stdAbs_le_iff hnetLimit hnetLo hnetHi]
  unfold checkPositionLimit
  dsimp only
  rw [hstored, hstoredNet, projected_ofInt, projected_ofInt]
  split_ifs with hexceeds hexceedsNet
  · exact ⟨False.elim, fun h => absurd hexceeds h.1⟩
  · exact ⟨False.elim, fun h => absurd hexceedsNet h.2⟩
  · exact ⟨fun _ => ⟨hexceeds, hexceedsNet⟩, fun _ => rfl⟩

theorem fits_of_abs_le {limit : Int64} {x : Int} (h : |x| ≤ limit.toInt) :
    Fits x ∧ ¬ WrapsInto limit.toInt x := by
  have hmax := limit.toInt_lt
  obtain ⟨hlo, hhi⟩ := abs_le.mp h
  refine ⟨⟨by omega, by omega⟩, fun hw => ?_⟩
  have := hw.1
  omega

/-- **The check is exact** on 64-bit integers, and accepts no order whose projected positions do not
fit, if and only if it does not accept by wrapping around: unless both projected positions are within
their limits or wrap into them, and one does wrap. -/
theorem check_exact_iff (defaultLimits : TraderRiskLimits)
    (traderLimits : Finmap fun _ : TraderId => TraderRiskLimits) (fills : List Fill) (order : Order)
    (hq : 1 ≤ order.quantity) (hpos : Fits (exactPosition fills order.traderId order.symbol))
    (hnet : Fits (exactNet fills order.traderId))
    (hposLimit : 0 ≤ ((withLimits defaultLimits traderLimits).getLimits
      order.traderId).maxPositionPerSymbol.toInt)
    (hnetLimit : 0 ≤ ((withLimits defaultLimits traderLimits).getLimits
      order.traderId).maxNetPosition.toInt) :
    let e := fills.foldl onFill (withLimits defaultLimits traderLimits)
    let posLimit := (e.getLimits order.traderId).maxPositionPerSymbol.toInt
    let netLimit := (e.getLimits order.traderId).maxNetPosition.toInt
    let pos := exactProjected order (exactPosition fills order.traderId order.symbol)
    let net := exactProjected order (exactNet fills order.traderId)
    (((e.checkPositionLimit order).1 = .none ↔ |pos| ≤ posLimit ∧ |net| ≤ netLimit) ∧
        ((e.checkPositionLimit order).1 = .none → Fits pos ∧ Fits net)) ↔
      ¬ ((|pos| ≤ posLimit ∨ WrapsInto posLimit pos) ∧ (|net| ≤ netLimit ∨ WrapsInto netLimit net) ∧
        (WrapsInto posLimit pos ∨ WrapsInto netLimit net)) := by
  intro e posLimit netLimit pos net
  have hlimits : e.getLimits order.traderId =
      (withLimits defaultLimits traderLimits).getLimits order.traderId := getLimits_run ..
  have haccept : (e.checkPositionLimit order).1 = .none ↔
      (|pos| ≤ posLimit ∨ WrapsInto posLimit pos) ∧ (|net| ≤ netLimit ∨ WrapsInto netLimit net) :=
    checkPositionLimit_eq_none (wraps_run defaultLimits traderLimits fills) hq hpos hnet
      (hlimits ▸ hposLimit) (hlimits ▸ hnetLimit)
  rw [haccept]
  constructor
  · rintro ⟨hexact, -⟩ ⟨hp, hn, hwraps⟩
    obtain ⟨hpin, hnin⟩ := hexact.mp ⟨hp, hn⟩
    rcases hwraps with hw | hw
    · exact (fits_of_abs_le hpin).2 hw
    · exact (fits_of_abs_le hnin).2 hw
  · intro hno
    have hin : ((|pos| ≤ posLimit ∨ WrapsInto posLimit pos) ∧
        (|net| ≤ netLimit ∨ WrapsInto netLimit net)) → |pos| ≤ posLimit ∧ |net| ≤ netLimit := by
      rintro ⟨hp, hn⟩
      refine ⟨hp.resolve_right fun hw => hno ⟨hp, hn, Or.inl hw⟩, ?_⟩
      exact hn.resolve_right fun hw => hno ⟨hp, hn, Or.inr hw⟩
    refine ⟨⟨hin, fun h => ⟨Or.inl h.1, Or.inl h.2⟩⟩, fun h => ?_⟩
    exact ⟨(fits_of_abs_le (hin h).1).1, (fits_of_abs_le (hin h).2).1⟩

/-- Long 5, an order to buy 3 more is within the default limits. -/
theorem check_exact_buy :
    (((([{ traderId := 1, side := .buy, qty := 5 }] : List Fill).foldl onFill
        (withLimits {} ∅)).checkPositionLimit { traderId := 1, side := .buy, quantity := 3 }).1 = .none) :=
  ((check_exact_iff {} ∅ [{ traderId := 1, side := .buy, qty := 5 }]
    { traderId := 1, side := .buy, quantity := 3 } (by decide) (by decide) (by decide) (by decide)
    (by decide)).mpr (by decide)).1.mpr (by decide)

/-- Short 1, an order to sell the greatest quantity there is projects the least position, whose
absolute value is negative: it is accepted under a limit of 10. -/
theorem wrapped_projection_accepted :
    ¬ ∀ (defaultLimits : TraderRiskLimits)
        (traderLimits : Finmap fun _ : TraderId => TraderRiskLimits) (fills : List Fill)
        (order : Order),
      1 ≤ order.quantity → Fits (exactPosition fills order.traderId order.symbol) →
      Fits (exactNet fills order.traderId) →
      0 ≤ ((withLimits defaultLimits traderLimits).getLimits
        order.traderId).maxPositionPerSymbol.toInt →
      0 ≤ ((withLimits defaultLimits traderLimits).getLimits order.traderId).maxNetPosition.toInt →
      let e := fills.foldl onFill (withLimits defaultLimits traderLimits)
      let pos := exactProjected order (exactPosition fills order.traderId order.symbol)
      let net := exactProjected order (exactNet fills order.traderId)
      ((e.checkPositionLimit order).1 = .none ↔
          |pos| ≤ (e.getLimits order.traderId).maxPositionPerSymbol.toInt ∧
            |net| ≤ (e.getLimits order.traderId).maxNetPosition.toInt) ∧
        ((e.checkPositionLimit order).1 = .none → Fits pos ∧ Fits net) := by
  intro h
  have hwrong := h { maxPositionPerSymbol := 10, maxNetPosition := 10 } ∅
    [{ traderId := 1, side := .sell, qty := 1 }]
    { traderId := 1, side := .sell, quantity := 9223372036854775807 } (by decide) (by decide)
    (by decide) (by decide) (by decide)
  exact absurd (hwrong.1.mp (by decide)) (by decide)

end RiskEngine

/-! ## The exact engine -/

/-- The exact engine after the fills. -/
def exactRun (e : HftSdk.RiskEngine) (fills : List Fill) : HftSdk.RiskEngine :=
  fills.foldl (fun e fill => e.onFill fill.traderId fill.symbol fill.side fill.qty.toInt 0) e

theorem getState_onFill (e : HftSdk.RiskEngine) (t : TraderId) (s : Symbol) (side : Side) (q p : Int)
    (t' : TraderId) : (e.onFill t s side q p).getState t' =
      if t' = t then (e.getState t).move s (side.signed q) else e.getState t' := by
  cases side
  · exact HftSdk.RiskEngine.getState_updateState ..
  · exact HftSdk.RiskEngine.getState_updateState ..

theorem exactRun_state (defaultLimits : HftSdk.TraderRiskLimits)
    (traderLimits : Finmap fun _ : TraderId => HftSdk.TraderRiskLimits) (fills : List Fill)
    (t : TraderId) :
    let e := exactRun { defaultLimits, traderLimits } fills
    (∀ s, e.getPosition t s = exactPosition fills t s) ∧
      (e.getState t).netPosition = exactNet fills t := by
  unfold exactRun
  induction fills using List.reverseRecOn with
  | nil => exact ⟨fun _ => rfl, rfl⟩
  | append_singleton fills fill ih =>
    obtain ⟨hpos, hnet⟩ := ih
    rw [List.foldl_append, List.foldl_cons, List.foldl_nil]
    constructor
    · intro s
      rw [HftSdk.RiskEngine.getPosition_onFill, exactPosition_concat]
      by_cases h : t = fill.traderId ∧ s = fill.symbol
      · obtain ⟨rfl, rfl⟩ := h
        rw [if_pos ⟨rfl, rfl⟩, if_pos ⟨rfl, rfl⟩, hpos]
        rfl
      · rw [if_neg h, if_neg fun h' => h ⟨h'.1.symm, h'.2.symm⟩, hpos]
    · rw [getState_onFill, exactNet_concat]
      by_cases h : t = fill.traderId
      · subst h
        rw [if_pos rfl, if_pos rfl, HftSdk.TraderRiskState.move, hnet]
        rfl
      · rw [if_neg h, if_neg (Ne.symm h), hnet]

/-- The order, of an exact quantity. -/
def Order.exact (order : Order) : HftSdk.Order where
  traderId := order.traderId
  symbol := order.symbol
  side := order.side
  quantity := order.quantity.toInt

theorem exactRun_check (defaultLimits : HftSdk.TraderRiskLimits)
    (traderLimits : Finmap fun _ : TraderId => HftSdk.TraderRiskLimits) (fills : List Fill)
    (order : Order) :
    let e := exactRun { defaultLimits, traderLimits } fills
    (e.checkPositionLimit order.traderId order.exact).1 = .none ↔
      |exactProjected order (exactPosition fills order.traderId order.symbol)| ≤
          (e.getLimits order.traderId).maxPositionPerSymbol ∧
        |exactProjected order (exactNet fills order.traderId)| ≤
          (e.getLimits order.traderId).maxNetPosition := by
  intro e
  obtain ⟨hpos, hnet⟩ := exactRun_state defaultLimits traderLimits fills order.traderId
  rw [HftSdk.RiskEngine.checkPositionLimit_eq_none, hpos, hnet]
  rfl

end Machine

end HftSdk
