import HftSdk.Risk.RiskEngine
import Mathlib.Algebra.Order.Group.Abs

/-!
# What the position limit bounds

An order is checked against the position at the moment of the check; what is accepted is not
reserved. A run interleaves checks with executions of accepted orders, in any order and in parts.
`run_bounded` says what the check does bound: a position leaves its limit by no more than the
quantity executed against orders that a later accepted order of the same trader, symbol and side
had superseded.
-/

namespace HftSdk

/-! ## Runs of checks and fills -/

abbrev RiskKey := TraderId × Symbol × Side

/-- An accepted order and how much of it has been executed. -/
structure Accepted where
  key : RiskKey
  quantity : Int
  executed : Int := 0

def Accepted.of (order : Order) : Accepted where
  key := (order.traderId, order.symbol, order.side)
  quantity := order.quantity

/-- A risk engine in use, with the orders it accepted, newest first. `stale` is the quantity executed,
since the last accepted order of a trader, symbol and side, against orders accepted before it. -/
structure RiskRun where
  engine : RiskEngine
  accepted : List Accepted := []
  stale : RiskKey → Int := fun _ => 0

inductive RiskOp
  | check (order : Order)
  /-- Execute a quantity of the accepted order at this place of the list. -/
  | fill (i : Nat) (qty price : Int)

namespace RiskRun

/-- A fresh engine with these limits. -/
def start (defaultLimits : TraderRiskLimits)
    (traderLimits : Finmap fun _ : TraderId => TraderRiskLimits) : RiskRun where
  engine := { defaultLimits, traderLimits }

/-- The stale quantities after executing a part of `a`, when `newer` were accepted after it. -/
def staleAfter (stale : RiskKey → Int) (newer : List Accepted) (a : Accepted) (qty : Int) :
    RiskKey → Int :=
  if ∃ b ∈ newer, b.key = a.key then Function.update stale a.key (stale a.key + qty) else stale

/-- One call. A fill must be of an accepted order, positive, and within what is left of it. -/
def step (r : RiskRun) : RiskOp → Option RiskRun
  | .check order =>
    let (reason, engine) := r.engine.checkOrder order
    if reason = .none then
      some
        { engine
          accepted := .of order :: r.accepted
          stale := Function.update r.stale (Accepted.of order).key 0 }
    else some { r with engine }
  | .fill i qty price =>
    match r.accepted[i]? with
    | none => none
    | some a =>
      if 0 < qty ∧ a.executed + qty ≤ a.quantity then
        some
          { engine := r.engine.onFill a.key.1 a.key.2.1 a.key.2.2 qty price
            accepted := r.accepted.set i { a with executed := a.executed + qty }
            stale := staleAfter r.stale (r.accepted.take i) a qty }
      else none

def run (r : RiskRun) (ops : List RiskOp) : Option RiskRun := ops.foldlM step r

/-! ## The invariant -/

/-- What is left of the order accepted last under a key. -/
def openOf (k : RiskKey) (l : List Accepted) : Int :=
  match l.find? fun a => a.key = k with
  | none => 0
  | some a => a.quantity - a.executed

theorem openOf_cons (k : RiskKey) (a : Accepted) (l : List Accepted) :
    openOf k (a :: l) = if a.key = k then a.quantity - a.executed else openOf k l := by
  unfold openOf
  rw [List.find?_cons]
  by_cases h : a.key = k <;> simp [h]

theorem openOf_execute (k : RiskKey) (pre post : List Accepted) (a : Accepted) (qty : Int) :
    openOf k (pre ++ { a with executed := a.executed + qty } :: post) =
      if k = a.key ∧ ¬ ∃ b ∈ pre, b.key = a.key then openOf k (pre ++ a :: post) - qty
      else openOf k (pre ++ a :: post) := by
  induction pre with
  | nil =>
    simp only [List.nil_append, openOf_cons]
    by_cases hk : a.key = k
    · simp [hk]
      omega
    · simp [hk, Ne.symm hk]
  | cons b pre ih =>
    rw [List.cons_append, List.cons_append, openOf_cons, openOf_cons, ih]
    by_cases hb : b.key = k
    · by_cases hk : k = a.key <;> simp [hb, hk]
    · by_cases hk : k = a.key
      · simp only [hk ▸ hb, if_false, hk, List.exists_mem_cons_iff, false_or]
      · simp [hb, hk]

/-- On either side of the market, the position together with what may still be executed of the last
accepted order stays within the limit, up to the stale quantity. -/
structure Inv (r : RiskRun) : Prop where
  executed : ∀ a ∈ r.accepted, a.executed ≤ a.quantity
  bound : ∀ t s d, d.signed (r.engine.getPosition t s) + openOf (t, s, d) r.accepted ≤
    max (r.engine.getLimits t).maxPositionPerSymbol 0 + r.stale (t, s, d)

theorem Inv.openOf_nonneg {r : RiskRun} (h : r.Inv) (k : RiskKey) : 0 ≤ openOf k r.accepted := by
  unfold openOf
  cases hf : r.accepted.find? fun a => a.key = k with
  | none => exact le_rfl
  | some a => exact Int.sub_nonneg.mpr (h.executed a (List.mem_of_find?_eq_some hf))

theorem inv_start (defaultLimits : TraderRiskLimits)
    (traderLimits : Finmap fun _ : TraderId => TraderRiskLimits) :
    (start defaultLimits traderLimits).Inv where
  executed _ h := absurd h List.not_mem_nil
  bound t s d := by
    have hzero : (start defaultLimits traderLimits).engine.getPosition t s = 0 := rfl
    rw [hzero, Side.signed_zero]
    simp [openOf, start]

theorem Inv.accept {r : RiskRun} (h : r.Inv) {o : Order} (hg : r.engine.Gate o) {e : RiskEngine}
    (he : r.engine.Agrees e) :
    ({ engine := e
       accepted := .of o :: r.accepted
       stale := Function.update r.stale (Accepted.of o).key 0 } : RiskRun).Inv := by
  refine ⟨List.forall_mem_cons.mpr ⟨hg.quantity.le, h.executed⟩, ?_⟩
  intro t s d
  dsimp only
  rw [he.position, he.limits, openOf_cons]
  by_cases hk : (Accepted.of o).key = (t, s, d)
  · rw [if_pos hk, ← hk, Function.update_self]
    obtain ⟨rfl, rfl, rfl⟩ : o.traderId = t ∧ o.symbol = s ∧ o.side = d := by
      simpa [Accepted.of] using hk
    have hroom : o.side.signed (r.engine.getPosition o.traderId o.symbol) + o.quantity ≤
        |r.engine.getPosition o.traderId o.symbol + o.side.signed o.quantity| := by
      cases o.side
      · exact le_abs_self _
      · refine le_trans (le_of_eq ?_) (neg_le_abs _)
        simp only [Side.signed]
        omega
    have := hg.position
    change _ + (o.quantity - 0) ≤ _
    omega
  · rw [if_neg hk, Function.update_of_ne (Ne.symm hk)]
    exact h.bound t s d

theorem Inv.execute {r : RiskRun} (h : r.Inv) {pre post : List Accepted} {a : Accepted}
    (hl : r.accepted = pre ++ a :: post) {qty : Int} (hqty : 0 < qty)
    (hle : a.executed + qty ≤ a.quantity) (price : Int) :
    ({ engine := r.engine.onFill a.key.1 a.key.2.1 a.key.2.2 qty price
       accepted := pre ++ { a with executed := a.executed + qty } :: post
       stale := staleAfter r.stale pre a qty } : RiskRun).Inv := by
  constructor
  · intro b hb
    rcases List.mem_append.mp hb with hb | hb
    · exact h.executed b (hl ▸ List.mem_append_left _ hb)
    · rcases List.mem_cons.mp hb with rfl | hb
      · exact hle
      · exact h.executed b (hl ▸ by simp [hb])
  · intro t s d
    have hb := h.bound t s d
    rw [hl] at hb
    dsimp only
    rw [RiskEngine.getPosition_onFill, RiskEngine.getLimits_onFill, openOf_execute, staleAfter]
    generalize a.key = key
    obtain ⟨t', s', d'⟩ := key
    dsimp only
    by_cases hts : t = t' ∧ s = s'
    · obtain ⟨rfl, rfl⟩ := hts
      rw [if_pos ⟨rfl, rfl⟩, Side.signed_add]
      by_cases hd : d = d'
      · -- the side of the order: its open part shrinks or the stale quantity grows
        subst hd
        have hsq : d.signed (d.signed qty) = qty := by cases d <;> simp [Side.signed]
        rw [hsq]
        by_cases hnewer : ∃ b ∈ pre, b.key = (t, s, d)
        · rw [if_neg (by simp [hnewer]), if_pos hnewer, Function.update_self]
          omega
        · rw [if_pos ⟨rfl, hnewer⟩, if_neg hnewer]
          omega
      · -- the other side gains room
        have hsq : d.signed (d'.signed qty) = -qty := by
          cases d <;> cases d' <;> simp_all [Side.signed]
        have hne : (t, s, d) ≠ (t, s, d') := by simpa using hd
        rw [hsq, if_neg fun hc => hne hc.1]
        split_ifs
        · rw [Function.update_of_ne hne]
          omega
        · omega
    · have hne : (t, s, d) ≠ (t', s', d') := fun hc => hts (by simp_all)
      rw [if_neg hts, if_neg fun hc => hne hc.1]
      split_ifs
      · rwa [Function.update_of_ne hne]
      · exact hb

theorem Inv.step {r r' : RiskRun} (h : r.Inv) {op : RiskOp} (hstep : r.step op = some r') :
    r'.Inv := by
  cases op with
  | check o =>
    have hagrees := r.engine.checkOrder_agrees o
    rw [RiskRun.step] at hstep
    dsimp only at hstep
    split_ifs at hstep with hok
    · obtain rfl := Option.some_inj.mp hstep
      exact h.accept (RiskEngine.gate_of_checkOrder hok) hagrees
    · obtain rfl := Option.some_inj.mp hstep
      refine ⟨h.executed, ?_⟩
      intro t s d
      rw [hagrees.position, hagrees.limits]
      exact h.bound t s d
  | fill i qty price =>
    rw [RiskRun.step] at hstep
    cases ha : r.accepted[i]? with
    | none => simp [ha] at hstep
    | some a =>
      obtain ⟨hi, hget⟩ := List.getElem?_eq_some_iff.mp ha
      have hl : r.accepted = r.accepted.take i ++ a :: r.accepted.drop (i + 1) := by
        rw [← hget, List.cons_getElem_drop_succ, List.take_append_drop]
      have hset : r.accepted.set i { a with executed := a.executed + qty } =
          r.accepted.take i ++ { a with executed := a.executed + qty } ::
            r.accepted.drop (i + 1) := by
        rw [List.set_eq_take_append_cons_drop, if_pos hi]
      simp only [ha] at hstep
      split_ifs at hstep with hok
      obtain rfl := Option.some_inj.mp hstep
      rw [hset]
      exact h.execute hl hok.1 hok.2 price

theorem step_getLimits {r r' : RiskRun} {op : RiskOp} (hstep : r.step op = some r') (t : TraderId) :
    r'.engine.getLimits t = r.engine.getLimits t := by
  cases op with
  | check o =>
    have hagrees := r.engine.checkOrder_agrees o
    rw [RiskRun.step] at hstep
    dsimp only at hstep
    split_ifs at hstep <;> obtain rfl := Option.some_inj.mp hstep <;> exact hagrees.limits t
  | fill i qty price =>
    rw [RiskRun.step] at hstep
    cases ha : r.accepted[i]? with
    | none => simp [ha] at hstep
    | some a =>
      simp only [ha] at hstep
      split_ifs at hstep
      obtain rfl := Option.some_inj.mp hstep
      exact RiskEngine.getLimits_onFill _ _ _ _ _ price _

theorem run_inv {r r' : RiskRun} {ops : List RiskOp} (h : r.Inv) (hrun : r.run ops = some r') :
    r'.Inv ∧ ∀ t, r'.engine.getLimits t = r.engine.getLimits t := by
  induction ops generalizing r with
  | nil =>
    obtain rfl := Option.some_inj.mp hrun
    exact ⟨h, fun _ => rfl⟩
  | cons op ops ih =>
    rw [run, List.foldlM_cons] at hrun
    obtain ⟨r₁, hstep, hrun⟩ := Option.bind_eq_some_iff.mp hrun
    obtain ⟨hinv, hlim⟩ := ih (h.step hstep) hrun
    exact ⟨hinv, fun t => (hlim t).trans (step_getLimits hstep t)⟩

/-- **What the limit bounds**: a position is outside its limit by at most the stale quantity of the
side it is on, and inside it when no stale order was executed. -/
theorem run_bounded {defaultLimits : TraderRiskLimits}
    {traderLimits : Finmap fun _ : TraderId => TraderRiskLimits} {ops : List RiskOp} {r : RiskRun}
    (hrun : (start defaultLimits traderLimits).run ops = some r) (t : TraderId) (s : Symbol) :
    let limit := max ((start defaultLimits traderLimits).engine.getLimits t).maxPositionPerSymbol 0
    r.engine.getPosition t s ≤ limit + r.stale (t, s, .buy) ∧
      -(limit + r.stale (t, s, .sell)) ≤ r.engine.getPosition t s ∧
      (r.stale (t, s, .buy) = 0 → r.stale (t, s, .sell) = 0 →
        |r.engine.getPosition t s| ≤ limit) := by
  obtain ⟨hinv, hlim⟩ := run_inv (inv_start defaultLimits traderLimits) hrun
  intro limit
  have hbuy := hinv.bound t s .buy
  have hsell := hinv.bound t s .sell
  have hob := hinv.openOf_nonneg (t, s, .buy)
  have hos := hinv.openOf_nonneg (t, s, .sell)
  rw [hlim] at hbuy hsell
  simp only [Side.signed] at hbuy hsell
  refine ⟨by omega, by omega, fun hb hs => abs_le.mpr ⟨by omega, by omega⟩⟩

/-- An order of 6 and one of 4, executed in turn and in part. -/
theorem run_bounded_in_turn : ∃ r, (start { maxPositionPerSymbol := 10 } ∅).run
      [.check { id := 1, traderId := 1, price := 5, quantity := 6 }, .fill 0 6 5,
        .check { id := 2, traderId := 1, price := 5, quantity := 4 }, .fill 0 3 5] = some r ∧
    |r.engine.getPosition 1 {}| ≤ 10 := by
  obtain ⟨r, hr⟩ := Option.isSome_iff_exists.mp (show ((start { maxPositionPerSymbol := 10 } ∅).run
      [.check { id := 1, traderId := 1, price := 5, quantity := 6 }, .fill 0 6 5,
        .check { id := 2, traderId := 1, price := 5, quantity := 4 }, .fill 0 3 5]).isSome by decide)
  have hstale : ∀ d, r.stale (1, {}, d) = 0 := by
    intro d
    have hmap := congrArg (Option.map fun r : RiskRun => r.stale (1, {}, d)) hr
    rw [Option.map_some] at hmap
    refine (Option.some_inj.mp (hmap.symm.trans ?_))
    cases d <;> decide
  exact ⟨r, hr, (run_bounded hr 1 {}).2.2 (hstale .buy) (hstale .sell)⟩

/-- Two orders of 10 are accepted one after the other under a limit of 10, and both are executed. -/
theorem two_accepted_orders_exceed_limit :
    ¬ ∀ (defaultLimits : TraderRiskLimits)
        (traderLimits : Finmap fun _ : TraderId => TraderRiskLimits) (ops : List RiskOp) (r : RiskRun),
      (start defaultLimits traderLimits).run ops = some r → ∀ t s,
        |r.engine.getPosition t s| ≤ (r.engine.getLimits t).maxPositionPerSymbol := by
  intro h
  have hrun : ((start { maxPositionPerSymbol := 10 } ∅).run
      [.check { id := 1, traderId := 1, price := 5, quantity := 10 },
        .check { id := 2, traderId := 1, price := 5, quantity := 10 }, .fill 0 10 5,
        .fill 1 10 5]).map (fun r => (r.engine.getPosition 1 {},
          (r.engine.getLimits 1).maxPositionPerSymbol)) = some (20, 10) := by decide
  obtain ⟨r, hr, hval⟩ := Option.map_eq_some_iff.mp hrun
  obtain ⟨hpos, hlim⟩ := Prod.mk.inj hval
  have := h _ _ _ r hr 1 {}
  rw [hpos, hlim] at this
  exact absurd this (by decide)

end RiskRun

end HftSdk
