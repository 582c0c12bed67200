import HftSdk.Orderbook.OpenOrders
import HftSdk.Orderbook.Reports
import HftSdk.Orderbook.Mirror
import HftSdk.Lib.Run

/-!
# The book as two lists

What a book is for, said without levels, nodes, index, displayed quantities, filled quantities, stamps
and numbers: two lists of open orders, best first, and what each call does to them and answers.
`outputs_answerStep` says that this is all there is to a book: over every run it makes the same deals
and gives the same answers as the two lists do, and shows the same open orders. So whatever a book
did before, its open orders decide what it will do (`answers_of_openOrders`).
-/

namespace HftSdk

open Sweep PriorityList

/-! ## The specification -/

/-- Who trades with whom: a trade without its number, symbol and time. -/
structure Deal where
  restingId : OrderId
  restingTrader : TraderId
  incomingId : OrderId
  incomingTrader : TraderId
  aggressorSide : Side
  price : Int
  qty : Int
deriving DecidableEq

def Trade.deal (t : Trade) : Deal :=
  ⟨t.restingId, t.restingTrader, t.incomingId, t.incomingTrader, t.aggressorSide, t.price, t.qty⟩

/-- What a call answers, but for what its report repeats of the order or tells of its past. -/
structure BookAnswer where
  deals : List Deal := []
  status : OrderStatus
  leavesQty : Int := 0
  rejectReason : RejectReason := .none
deriving DecidableEq

namespace OpenOrders

/-- The side on which an order with this id rests. -/
def sideOf (c : OpenOrders) (id : OrderId) : Option Side :=
  [Side.buy, Side.sell].find? fun s => ∃ x ∈ c s, x.id = id

def erase (c : OpenOrders) (id : OrderId) : OpenOrders := fun s => (c s).filter fun x => x.id ≠ id

/-- Put an order behind everything that is at least as good. -/
def insert (c : OpenOrders) (s : Side) (x : OpenOrder) : OpenOrders :=
  Function.update c s (place (fun y => s.better x.price y.price) x (c s))

def liquidity (c : OpenOrders) (o : Order) : Int :=
  total OpenOrder.openQty (goodFor o (c o.side.opp))

def demand (c : OpenOrders) (o : Order) : Int :=
  if o.tif = .fok ∧ c.liquidity o < o.quantity then 0 else o.quantity

def fillsOf (c : OpenOrders) (o : Order) : List (OpenOrder × Int) :=
  fills OpenOrder.openQty (c.demand o) (goodFor o (c o.side.opp))

def remainder (c : OpenOrders) (o : Order) : Int := o.quantity - taken (c.fillsOf o)

def Rests (c : OpenOrders) (o : Order) : Prop :=
  0 < c.remainder o ∧ o.type = .limit ∧ (o.tif = .day ∨ o.tif = .gtc)

instance (c : OpenOrders) (o : Order) : Decidable (c.Rests o) :=
  inferInstanceAs (Decidable (_ ∧ _ ∧ (_ ∨ _)))

/-- The other side is used up from its front. -/
def sweep (c : OpenOrders) (o : Order) : OpenOrders :=
  Function.update c o.side.opp (sweepSide o (c.demand o) (c o.side.opp))

def dealOf (o : Order) (x : OpenOrder × Int) : Deal :=
  ⟨x.1.id, x.1.traderId, o.id, o.traderId, o.side, x.1.price, x.2⟩

/-- The order as it rests with what is left of it. -/
def ofOrder (o : Order) (rem : Int) : OpenOrder := ⟨o.id, o.traderId, o.price, rem, o.clOrdId⟩

def submit (c : OpenOrders) (o : Order) : BookAnswer × OpenOrders :=
  if (c.sideOf o.id).isSome then ({ status := .rejected, rejectReason := .duplicateOrderId }, c)
  else
    let (status, _, leavesQty, rejectReason) := L3OrderBook.reported o (c.remainder o)
    ({ deals := (c.fillsOf o).map (dealOf o), status, leavesQty, rejectReason },
      if c.Rests o then (c.sweep o).insert o.side (ofOrder o (c.remainder o)) else c.sweep o)

def cancel (c : OpenOrders) (id : OrderId) : BookAnswer × OpenOrders :=
  if (c.sideOf id).isSome then ({ status := .canceled }, c.erase id) else ({ status := .rejected }, c)

def replace (c : OpenOrders) (req : ReplaceRequest) (ts : Timestamp) : BookAnswer × OpenOrders :=
  match c.sideOf req.orderId with
  | none => ({ status := .rejected }, c)
  | some s => (c.erase req.orderId).submit (L3OrderBook.replacement req s ts)

def step (c : OpenOrders) : BookOp → BookAnswer × OpenOrders
  | .add o _ => c.submit o
  | .cancel id _ => c.cancel id
  | .replace req ts => c.replace req ts

def empty : OpenOrders := fun _ => []

/-! ## Ids on the lists -/

variable {c : OpenOrders}

theorem sideOf_eq_none_iff {id : OrderId} : c.sideOf id = none ↔ ∀ s, ∀ x ∈ c s, x.id ≠ id := by
  unfold sideOf
  rw [List.find?_eq_none]
  constructor
  · intro h s x hx hid
    exact h s (by cases s <;> simp) (decide_eq_true ⟨x, hx, hid⟩)
  · intro h s _ hs
    obtain ⟨x, hx, hid⟩ := of_decide_eq_true hs
    exact h s x hx hid

theorem Sound.sideOf_eq (h : c.Sound) {s : Side} {x : OpenOrder} (hx : x ∈ c s) :
    c.sideOf x.id = some s := by
  unfold sideOf
  cases s with
  | buy => exact List.find?_cons_of_pos (decide_eq_true ⟨x, hx, rfl⟩)
  | sell =>
    have hbuy : ¬ ∃ y ∈ c .buy, y.id = x.id := fun ⟨y, hy, hid⟩ => h.disjoint y hy x hx hid
    rw [List.find?_cons_of_neg (by simpa using hbuy)]
    exact List.find?_cons_of_pos (decide_eq_true ⟨x, hx, rfl⟩)

@[simp] theorem erase_erase (c : OpenOrders) (id : OrderId) : (c.erase id).erase id = c.erase id := by
  funext s
  simp [erase]

theorem Sound.erase (h : c.Sound) (id : OrderId) : (c.erase id).Sound where
  pos s x hx := h.pos s x (List.mem_of_mem_filter hx)
  sorted s := (h.sorted s).filter _
  nodup s := (h.nodup s).sublist (List.filter_sublist.map _)
  disjoint x hx y hy := h.disjoint x (List.mem_of_mem_filter hx) y (List.mem_of_mem_filter hy)
  uncrossed x hx y hy := h.uncrossed x (List.mem_of_mem_filter hx) y (List.mem_of_mem_filter hy)

end OpenOrders

/-! ## The ladder -/

namespace Ladder

variable {L : Ladder}

theorem sideOf_openOrders_eq_none {id : OrderId} : L.openOrders.sideOf id = none ↔ ¬ L.Has id := by
  rw [OpenOrders.sideOf_eq_none_iff]
  constructor
  · rintro h ⟨q, hq, rfl⟩
    obtain ⟨s, hq⟩ := mem_all.mp hq
    exact h s (OpenOrder.of q) (List.mem_map_of_mem hq) rfl
  · rintro h s x hx rfl
    obtain ⟨q, hq, rfl⟩ := List.mem_map.mp hx
    exact h ⟨q, mem_all.mpr ⟨s, hq⟩, rfl⟩

theorem Inv.sideOf_openOrders (h : L.Inv) {q : Quote} (hq : q ∈ L.all) :
    L.openOrders.sideOf q.order.id = some q.order.side :=
  h.sound_openOrders.sideOf_eq (x := OpenOrder.of q) (List.mem_map_of_mem (h.side_eq hq))

theorem liquidity_openOrders (L : Ladder) (o : Order) : L.openOrders.liquidity o = L.liquidity o := by
  unfold OpenOrders.liquidity liquidity openOrders
  rw [← map_tradable, total, total, List.map_map]
  rfl

theorem demand_openOrders (L : Ladder) (o : Order) : L.openOrders.demand o = L.demand o := by
  unfold OpenOrders.demand demand
  rw [liquidity_openOrders]

theorem fillsOf_openOrders (L : Ladder) (o : Order) :
    L.openOrders.fillsOf o = (L.fillsOf o).map (Prod.map OpenOrder.of id) := by
  rw [map_fillsOf, OpenOrders.fillsOf, demand_openOrders]

theorem remainder_openOrders (L : Ladder) (o : Order) :
    L.openOrders.remainder o = L.remainder o := by
  unfold OpenOrders.remainder remainder
  rw [fillsOf_openOrders, taken_map]

theorem rests_openOrders (L : Ladder) (o : Order) : L.openOrders.Rests o ↔ L.Rests o := by
  unfold OpenOrders.Rests Rests
  rw [remainder_openOrders]

theorem sweep_openOrders (L : Ladder) (o : Order) :
    (L.afterMatch o).openOrders = L.openOrders.sweep o := by
  rw [openOrders_afterMatch, OpenOrders.sweep, demand_openOrders]

theorem openOrders_rest (L : Ladder) (o : Order) (rem : Int) (ts : Timestamp) :
    (L.rest o rem ts).openOrders = L.openOrders.insert o.side (OpenOrders.ofOrder o rem) := by
  have hnew : OpenOrder.of (newQuote o rem ts L.stamp) = OpenOrders.ofOrder o rem := by
    unfold OpenOrder.of newQuote Quote.openQty L3Order.openQty OpenOrders.ofOrder
    dsimp only
    rw [Int.add_zero]
  rw [← hnew]
  funext s
  unfold OpenOrders.insert openOrders Ladder.rest
  rcases o.side.eq_or_eq_opp s with rfl | rfl
  · rw [Function.update_self, set_side]
    exact map_place (v := fun y : OpenOrder => o.side.better o.price y.price) (fun _ => rfl) _ _
  · rw [Function.update_of_ne o.side.opp_ne, set_side_opp]

theorem openOrders_cancel (L : Ladder) (id : OrderId) :
    (L.cancel id).openOrders = L.openOrders.erase id := by
  funext s
  unfold openOrders cancel OpenOrders.erase
  rw [List.filter_map]
  rfl

theorem erase_openOrders {id : OrderId} (h : ¬ L.Has id) : L.openOrders.erase id = L.openOrders := by
  rw [← openOrders_cancel, cancel_of_not_has h]

end Ladder

/-! ## The book -/

/-- The answer in a result. -/
def BookResult.answer (r : BookResult) : BookAnswer where
  deals := r.trades.map Trade.deal
  status := r.rpt.status
  leavesQty := r.rpt.leavesQty
  rejectReason := r.rpt.rejectReason

namespace L3OrderBook

/-- A call, answered. -/
def answerStep (b : L3OrderBook) (op : BookOp) : BookAnswer × L3OrderBook :=
  ((b.step op).answer, (b.step op).book)

theorem RepInv.submit_openOrders {b : L3OrderBook} (h : b.RepInv) (o : Order) (ts : Timestamp) :
    b.openOrders.submit o = ((b.addOrder o ts).answer, (b.addOrder o ts).book.openOrders) := by
  rw [OpenOrders.submit, b.openOrders_eq, (b.addOrder o ts).book.openOrders_eq,
    (h.addOrder o ts).ladder, Ladder.add]
  by_cases hid : b.ladder.Has o.id
  · obtain ⟨q, hq, hqid⟩ := id hid
    have hsome : (b.ladder.openOrders.sideOf o.id).isSome := by
      rw [← hqid, h.inv.sideOf_openOrders hq]
      rfl
    rw [if_pos hsome, if_pos hid, h.addOrder_of_has hid]
    rfl
  · have hnone : ¬ (b.ladder.openOrders.sideOf o.id).isSome := by
      rw [Ladder.sideOf_openOrders_eq_none.mpr hid]
      exact Bool.false_ne_true
    obtain ⟨htrades, -, hrpt, -⟩ := h.outcome hid ts
    have hdeals : (b.addOrder o ts).trades.map Trade.deal =
        (b.ladder.openOrders.fillsOf o).map (OpenOrders.dealOf o) := by
      rw [htrades, Ladder.fillsOf_openOrders, List.map_map]
      exact BookCore.map_fillTrades (fun _ _ => rfl) _ _
    rw [if_neg hnone, if_neg hid, Ladder.remainder_openOrders, ← hrpt]
    refine Prod.ext ?_ ?_
    · unfold BookResult.answer
      rw [hdeals]
    · simp only [Ladder.rests_openOrders]
      by_cases hr : b.ladder.Rests o
      · rw [if_pos hr, if_pos hr, Ladder.openOrders_rest, Ladder.sweep_openOrders]
      · rw [if_neg hr, if_neg hr, Ladder.sweep_openOrders]

/-- **A call on the book is the call on the lists.** -/
theorem RepInv.step_openOrders {b : L3OrderBook} (h : b.RepInv) (op : BookOp) :
    b.openOrders.step op = ((b.answerStep op).1, (b.answerStep op).2.openOrders) := by
  cases op with
  | add o ts => exact h.submit_openOrders o ts
  | cancel id ts =>
    have hladder := (h.cancelOrder {} id ts).ladder
    unfold OpenOrders.step OpenOrders.cancel answerStep L3OrderBook.step
    dsimp only
    rw [(b.cancelOrder id ts).book.openOrders_eq, hladder, Ladder.openOrders_cancel, b.openOrders_eq]
    by_cases hid : b.ladder.Has id
    · obtain ⟨q, hq, rfl⟩ := hid
      rw [h.inv.sideOf_openOrders hq, h.cancelOrder_eq hq]
      rfl
    · rw [Ladder.sideOf_openOrders_eq_none.mpr hid, h.cancelOrder_of_not_has hid,
        Ladder.erase_openOrders hid]
      rfl
  | replace req ts =>
    unfold OpenOrders.step OpenOrders.replace answerStep L3OrderBook.step
    dsimp only
    by_cases hid : b.ladder.Has req.orderId
    · obtain ⟨q, hq, hid⟩ := hid
      have hc := h.cancelOrder {} req.orderId ts
      obtain ⟨hbook, htrades, hrpt⟩ := h.replaceOrder_eq hq hid ts
      have hside : b.openOrders.sideOf req.orderId = some q.order.side := by
        rw [b.openOrders_eq, ← hid, h.inv.sideOf_openOrders hq]
      have herase : b.openOrders.erase req.orderId =
          (b.cancelOrder req.orderId ts).book.openOrders := by
        rw [openOrders_eq, openOrders_eq, hc.ladder, Ladder.openOrders_cancel]
      rw [hside, hbook, BookResult.answer, htrades, hrpt]
      dsimp only
      rw [herase, hc.repInv.submit_openOrders _ ts]
      rfl
    · rw [h.replaceOrder_of_not_has hid, b.openOrders_eq, Ladder.sideOf_openOrders_eq_none.mpr hid]
      rfl

theorem RepInv.outputs_openOrders {b : L3OrderBook} (h : b.RepInv) (ops : List BookOp) :
    Run.outputs OpenOrders.step b.openOrders ops = Run.outputs answerStep b ops ∧
      Run.final OpenOrders.step b.openOrders ops = (b.run ops).openOrders :=
  Run.outputs_view (I := RepInv) (fun _ op h => (h.step op).2) (fun _ op h => h.step_openOrders op)
    h ops

/-- **The open orders decide**: two books that show the same ones answer alike ever after. -/
theorem RepInv.answers_of_openOrders {b b' : L3OrderBook} (h : b.RepInv) (h' : b'.RepInv)
    (heq : b'.openOrders = b.openOrders) (ops : List BookOp) :
    Run.outputs answerStep b' ops = Run.outputs answerStep b ops ∧
      (b'.run ops).openOrders = (b.run ops).openOrders := by
  obtain ⟨hanswers, hfinal⟩ := h.outputs_openOrders ops
  obtain ⟨hanswers', hfinal'⟩ := h'.outputs_openOrders ops
  rw [heq] at hanswers' hfinal'
  exact ⟨hanswers'.symm.trans hanswers, hfinal'.symm.trans hfinal⟩

/-- **A book is two lists**: over every run it answers each call as the lists do, and shows the
orders that stand on them. -/
theorem outputs_answerStep (symbol : Symbol) (ops : List BookOp) :
    Run.outputs answerStep (create symbol) ops = Run.outputs OpenOrders.step .empty ops ∧
      ((create symbol).run ops).openOrders = Run.final OpenOrders.step .empty ops := by
  obtain ⟨hanswers, hfinal⟩ := (repInv_create symbol).outputs_openOrders ops
  have hempty : (create symbol).openOrders = .empty := by
    funext s
    cases s <;> rfl
  rw [hempty] at hanswers hfinal
  exact ⟨hanswers.symm, hfinal.symm⟩

/-- Two bids of one price, of which a sell takes the older one and a part of the other. -/
example : Run.final OpenOrders.step .empty
    [.add { id := 1, price := 10, quantity := 5 } 0, .add { id := 2, price := 10, quantity := 5 } 1,
      .add { id := 3, side := .sell, price := 9, quantity := 7 } 2] .buy =
    [{ id := 2, traderId := 0, price := 10, openQty := 3, clOrdId := default }] := by decide

end L3OrderBook

end HftSdk
