import HftSdk.Orderbook.OpenBook

/-!
# What a book does not look at

Of prices a book looks at the order they stand in, of order ids at whether they are equal, and of
traders and client order ids at nothing. So it makes no difference to it which prices, ids and names
they are: a run with other ones (`Relabelling`), for instance with every price in a smaller unit, is
the same run under the other names (`answers_relabelled`).
-/

namespace HftSdk

open Sweep PriorityList

/-- Other prices in the same order, other ids that are distinct where the old ones are, and any other
traders and client order ids. -/
structure Relabelling where
  price : Int → Int
  orderId : OrderId → OrderId
  traderId : TraderId → TraderId
  clOrdId : CharBuf 20 → CharBuf 20
  lt_iff : ∀ p q, price p < price q ↔ p < q
  injective : Function.Injective orderId

namespace Relabelling

variable (r : Relabelling)

def order (o : Order) : Order :=
  { o with
    id := r.orderId o.id
    traderId := r.traderId o.traderId
    price := r.price o.price
    clOrdId := r.clOrdId o.clOrdId }

def replaceRequest (req : ReplaceRequest) : ReplaceRequest :=
  { req with
    orderId := r.orderId req.orderId
    traderId := r.traderId req.traderId
    newPrice := r.price req.newPrice
    clOrdId := r.clOrdId req.clOrdId }

def op : BookOp → BookOp
  | .add o ts => .add (r.order o) ts
  | .cancel id ts => .cancel (r.orderId id) ts
  | .replace req ts => .replace (r.replaceRequest req) ts

def openOrder (x : OpenOrder) : OpenOrder where
  id := r.orderId x.id
  traderId := r.traderId x.traderId
  price := r.price x.price
  openQty := x.openQty
  clOrdId := r.clOrdId x.clOrdId

def openOrders (c : OpenOrders) : OpenOrders := fun s => (c s).map r.openOrder

def deal (d : Deal) : Deal :=
  { d with
    restingId := r.orderId d.restingId
    restingTrader := r.traderId d.restingTrader
    incomingId := r.orderId d.incomingId
    incomingTrader := r.traderId d.incomingTrader
    price := r.price d.price }

def answer (a : BookAnswer) : BookAnswer := { a with deals := a.deals.map r.deal }

/-! ## Comparisons -/

theorem better_price (s : Side) (p q : Int) : s.better (r.price p) (r.price q) ↔ s.better p q := by
  cases s
  · exact r.lt_iff q p
  · exact r.lt_iff p q

theorem beyondLimit_order (o : Order) (p : Int) :
    beyondLimit (r.order o) (r.price p) = beyondLimit o p := by
  unfold beyondLimit order
  cases o.side <;> simp [r.lt_iff]

theorem sideOf_openOrders (c : OpenOrders) (id : OrderId) :
    (r.openOrders c).sideOf (r.orderId id) = c.sideOf id := by
  have hsame : ∀ s, (∃ x ∈ r.openOrders c s, x.id = r.orderId id) ↔ ∃ x ∈ c s, x.id = id := by
    intro s
    constructor
    · rintro ⟨y, hy, hid⟩
      obtain ⟨x, hx, rfl⟩ := List.mem_map.mp hy
      exact ⟨x, hx, r.injective hid⟩
    · rintro ⟨x, hx, rfl⟩
      exact ⟨r.openOrder x, List.mem_map_of_mem hx, rfl⟩
  unfold OpenOrders.sideOf
  simp only [hsame]

theorem goodFor_order (o : Order) (l : List OpenOrder) :
    goodFor (r.order o) (l.map r.openOrder) = (goodFor o l).map r.openOrder := by
  have hsame : (fun x : OpenOrder => !beyondLimit (r.order o) x.price) ∘ r.openOrder =
      fun x => !beyondLimit o x.price := funext fun x => congrArg _ (r.beyondLimit_order o x.price)
  rw [goodFor, goodFor, List.filter_map, hsame]

theorem badFor_order (o : Order) (l : List OpenOrder) :
    badFor (r.order o) (l.map r.openOrder) = (badFor o l).map r.openOrder := by
  have hsame : (fun x : OpenOrder => beyondLimit (r.order o) x.price) ∘ r.openOrder =
      fun x => beyondLimit o x.price := funext fun x => r.beyondLimit_order o x.price
  rw [badFor, badFor, List.filter_map, hsame]

/-! ## The operations -/

theorem erase_openOrders (c : OpenOrders) (id : OrderId) :
    (r.openOrders c).erase (r.orderId id) = r.openOrders (c.erase id) := by
  have hsame : (fun x : OpenOrder => decide (x.id ≠ r.orderId id)) ∘ r.openOrder =
      fun x => decide (x.id ≠ id) := by
    funext x
    exact decide_eq_decide.mpr r.injective.ne_iff
  funext s
  unfold OpenOrders.erase openOrders
  rw [List.filter_map, hsame]

theorem insert_openOrders (c : OpenOrders) (s : Side) (x : OpenOrder) :
    (r.openOrders c).insert s (r.openOrder x) = r.openOrders (c.insert s x) := by
  have hworse : ∀ y : OpenOrder, decide (s.better (r.price x.price) (r.openOrder y).price) =
      decide (s.better x.price y.price) := fun y =>
    decide_eq_decide.mpr (r.better_price s x.price y.price)
  funext s'
  unfold OpenOrders.insert
  rcases s.eq_or_eq_opp s' with hs | hs
  · rw [hs, Function.update_self]
    unfold openOrders
    rw [Function.update_self]
    exact (map_place (v := fun y : OpenOrder => s.better (r.price x.price) y.price) hworse x _).symm
  · rw [hs, Function.update_of_ne s.opp_ne]
    unfold openOrders
    rw [Function.update_of_ne s.opp_ne]

section Submit
variable (c : OpenOrders) (o : Order)

theorem demand_order : (r.openOrders c).demand (r.order o) = c.demand o := by
  have hliquidity : (r.openOrders c).liquidity (r.order o) = c.liquidity o := by
    unfold OpenOrders.liquidity total
    rw [show r.openOrders c (r.order o).side.opp = (c o.side.opp).map r.openOrder from rfl,
      goodFor_order, List.map_map]
    rfl
  unfold OpenOrders.demand
  rw [hliquidity]
  rfl

theorem fillsOf_order : (r.openOrders c).fillsOf (r.order o) =
    (c.fillsOf o).map (Prod.map r.openOrder id) := by
  unfold OpenOrders.fillsOf
  rw [demand_order, show r.openOrders c (r.order o).side.opp = (c o.side.opp).map r.openOrder from rfl,
    goodFor_order]
  exact fills_map OpenOrder.openQty (f := r.openOrder) (fun _ => rfl) _ _

theorem remainder_order : (r.openOrders c).remainder (r.order o) = c.remainder o := by
  unfold OpenOrders.remainder
  rw [fillsOf_order, taken_map]
  rfl

theorem sweep_order : (r.openOrders c).sweep (r.order o) = r.openOrders (c.sweep o) := by
  have hside : sweepSide (r.order o) (c.demand o) ((c o.side.opp).map r.openOrder) =
      (sweepSide o (c.demand o) (c o.side.opp)).map r.openOrder := by
    unfold sweepSide
    rw [goodFor_order, badFor_order, List.map_append]
    exact congrArg (· ++ _) (residue_map (fun _ => rfl) (fun _ _ => rfl) _ _)
  funext s
  unfold OpenOrders.sweep
  rw [demand_order]
  change Function.update (r.openOrders c) o.side.opp
    (sweepSide (r.order o) (c.demand o) ((c o.side.opp).map r.openOrder)) s = _
  unfold openOrders
  rw [hside]
  rcases (o.side.eq_or_eq_opp s).symm with rfl | rfl
  · rw [Function.update_self, Function.update_self]
  · rw [Function.update_of_ne o.side.opp_ne.symm, Function.update_of_ne o.side.opp_ne.symm]

theorem submit_order : (r.openOrders c).submit (r.order o) =
    (r.answer (c.submit o).1, r.openOrders (c.submit o).2) := by
  have hrests : (r.openOrders c).Rests (r.order o) ↔ c.Rests o := by
    unfold OpenOrders.Rests
    rw [remainder_order]
    rfl
  have hdeals : ((c.fillsOf o).map (Prod.map r.openOrder id)).map (OpenOrders.dealOf (r.order o)) =
      ((c.fillsOf o).map (OpenOrders.dealOf o)).map r.deal := by
    rw [List.map_map, List.map_map]
    rfl
  unfold OpenOrders.submit
  rw [show (r.order o).id = r.orderId o.id from rfl, sideOf_openOrders]
  by_cases hdup : (c.sideOf o.id).isSome
  · rw [if_pos hdup, if_pos hdup]
    rfl
  · rw [if_neg hdup, if_neg hdup, remainder_order, fillsOf_order, hdeals, sweep_order]
    simp only [hrests]
    refine Prod.ext rfl ?_
    dsimp only
    split_ifs
    · exact r.insert_openOrders (c.sweep o) o.side (OpenOrders.ofOrder o (c.remainder o))
    · rfl

end Submit

theorem step_op (c : OpenOrders) (op : BookOp) :
    (r.openOrders c).step (r.op op) = (r.answer (c.step op).1, r.openOrders (c.step op).2) := by
  cases op with
  | add o ts => exact r.submit_order c o
  | cancel id ts =>
    unfold op OpenOrders.step OpenOrders.cancel
    dsimp only
    rw [sideOf_openOrders, erase_openOrders]
    split_ifs <;> rfl
  | replace req ts =>
    unfold op OpenOrders.step OpenOrders.replace
    dsimp only
    rw [show (r.replaceRequest req).orderId = r.orderId req.orderId from rfl, sideOf_openOrders,
      erase_openOrders]
    cases c.sideOf req.orderId with
    | none => rfl
    | some s => exact r.submit_order (c.erase req.orderId) (L3OrderBook.replacement req s ts)

/-- Prices in a hundredth of the unit, ids one higher, and no traders. -/
def hundredths : Relabelling where
  price p := 100 * p
  orderId id := id + 1
  traderId _ := 0
  clOrdId := id
  lt_iff p q := by omega
  injective _ _ h := (UInt64.add_left_inj 1).mp h

end Relabelling

namespace L3OrderBook

/-- **Prices, ids and names are only names**: under other ones a book answers every call as before, and
shows the same open orders. -/
theorem answers_relabelled (r : Relabelling) (symbol : Symbol) (ops : List BookOp) :
    Run.outputs answerStep (create symbol) (ops.map r.op) =
        (Run.outputs answerStep (create symbol) ops).map r.answer ∧
      ((create symbol).run (ops.map r.op)).openOrders =
        r.openOrders ((create symbol).run ops).openOrders := by
  obtain ⟨hanswers, hopen⟩ := outputs_answerStep symbol ops
  obtain ⟨hanswers', hopen'⟩ := outputs_answerStep symbol (ops.map r.op)
  obtain ⟨houtputs, hfinal⟩ := Run.outputs_map r.step_op .empty ops
  rw [hanswers, hanswers', hopen, hopen']
  exact ⟨houtputs, hfinal⟩

/-- A bid that a sell takes part of, in hundredths of the unit. -/
theorem answers_relabelled_hundredths :
    let ops : List BookOp := [.add { id := 1, traderId := 1, price := 10, quantity := 5 } 0,
      .add { id := 2, traderId := 2, side := .sell, price := 9, quantity := 3 } 1]
    Run.outputs answerStep (create {}) (ops.map Relabelling.hundredths.op) =
        (Run.outputs answerStep (create {}) ops).map Relabelling.hundredths.answer ∧
      ((create {}).run (ops.map Relabelling.hundredths.op)).openOrders =
        Relabelling.hundredths.openOrders ((create {}).run ops).openOrders :=
  answers_relabelled _ _ _

end L3OrderBook

end HftSdk
