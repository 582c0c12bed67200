import HftSdk.Orderbook.OpenOrders
import HftSdk.Orderbook.Reports
import HftSdk.Orderbook.Mirror

/-!
# Best execution

What an incoming order pays. `addOrder_cheapest`: no way of taking the same quantity from the orders
on the other side, limits or not, costs a buyer less or brings a seller more than what `add_order`
does. `run_slices`: an order that does not rest may be submitted in slices, one after the other. They
trade as one order of the whole size would, with the same orders at the same prices for the same
quantities, and leave the same book.
-/

namespace HftSdk

open Sweep

/-! ## Weighing the trades of an order -/

theorem Side.signed_mul (s : Side) (p m : Int) : s.signed (p * m) = s.signed p * m := by
  cases s
  · rfl
  · exact Int.neg_mul_eq_neg_mul p m

theorem Side.signed_sum (s : Side) (l : List Int) : s.signed l.sum = (l.map s.signed).sum := by
  induction l with
  | nil => exact s.signed_zero
  | cons m l ih => rw [List.sum_cons, s.signed_add, ih, List.map_cons, List.sum_cons]

/-- The quantities of trades, weighed by resting order and price. -/
def weighTrades (w : OrderId → Int → Int) (trades : List Trade) : Int :=
  (trades.map fun t => w t.restingId t.price * t.qty).sum

theorem weighTrades_append (w : OrderId → Int → Int) (trades trades' : List Trade) :
    weighTrades w (trades ++ trades') = weighTrades w trades + weighTrades w trades' := by
  rw [weighTrades, List.map_append, List.sum_append, weighTrades, weighTrades]

theorem weighTrades_fillTrades (w : OrderId → Int → Int) (c : BookCore) (L : Ladder) (o : Order)
    (ts : Timestamp) : weighTrades w (c.fillTrades o ts (L.fillsOf o)) =
      weighted (fun x => w x.id x.price)
        (fills OpenOrder.openQty (L.demand o) (goodFor o (L.openOrders o.side.opp))) := by
  unfold weighTrades
  rw [← Ladder.map_fillsOf, weighted_map,
    BookCore.map_fillTrades (k := fun x => w x.1.order.id x.1.price * x.2) fun _ _ => rfl]
  rfl

/-! ## The cheapest way -/

theorem OpenOrders.Sound.signed_sorted {c : OpenOrders} (h : c.Sound) (s : Side) :
    (c s.opp).Pairwise fun x y => s.signed x.price ≤ s.signed y.price := by
  refine (h.sorted s.opp).imp fun {x y} hxy => ?_
  cases s <;> simp only [Side.opp, Side.better, Side.signed] at hxy ⊢ <;> omega

namespace L3OrderBook

theorem RepInv.weighTrades_addOrder {b : L3OrderBook} (h : b.RepInv) (o : Order) (ts : Timestamp)
    (w : OrderId → Int → Int) :
    weighTrades w (b.addOrder o ts).trades = weighted (fun x => w x.id x.price)
      (fills OpenOrder.openQty ((b.addOrder o ts).trades.map Trade.qty).sum
        (b.openOrders o.side.opp)) := by
  by_cases hid : b.ladder.Has o.id
  · have htrades : (b.addOrder o ts).trades = [] := by
      rw [h.addOrder_of_has hid]
      rfl
    rw [htrades, List.map_nil, List.sum_nil, fills_of_nonpos _ le_rfl]
    rfl
  · have hqty := b.fillTrades_qty o ts (b.ladder.fillsOf o)
    rw [(h.outcome hid ts).trades, weighTrades_fillTrades, hqty, b.openOrders_eq,
      ← taken_map (f := OpenOrder.of), Ladder.map_fillsOf]
    have hside := h.inv.sound_openOrders.good_append_bad o
    have hsweep := fills_taken_append (h.inv.sound_openOrders.goodFor_pos o) (b.ladder.demand o)
      (badFor o (b.ladder.openOrders o.side.opp))
    rw [hside] at hsweep
    rw [hsweep]

/-- **An order trades at the best prices there are**: whoever takes as much from the other side, and
no more from an order than is open, pays no less for it, or sells for no more. -/
theorem addOrder_cheapest (symbol : Symbol) (ops : List BookOp) (o : Order) (ts : Timestamp)
    (alloc : OrderId → Int)
    (halloc : ∀ x ∈ ((create symbol).run ops).openOrders o.side.opp,
      0 ≤ alloc x.id ∧ alloc x.id ≤ x.openQty)
    (htotal : ((((create symbol).run ops).openOrders o.side.opp).map fun x => alloc x.id).sum =
      ((((create symbol).run ops).addOrder o ts).trades.map Trade.qty).sum) :
    o.side.signed ((((create symbol).run ops).addOrder o ts).trades.map fun t => t.price * t.qty).sum ≤
      o.side.signed
        ((((create symbol).run ops).openOrders o.side.opp).map fun x => x.price * alloc x.id).sum := by
  have h := ((repInv_create symbol).run ops).2
  generalize (create symbol).run ops = b at h halloc htotal
  have hpos := h.sound_openOrders.pos o.side.opp
  have hsorted := h.sound_openOrders.signed_sorted o.side
  have hdemand : 0 ≤ ((b.addOrder o ts).trades.map Trade.qty).sum := by
    rw [← htotal]
    exact List.sum_nonneg fun m hm => by
      obtain ⟨x, hx, rfl⟩ := List.mem_map.mp hm
      exact (halloc x hx).1
  -- the demand that the trades met is met by the sweep
  have htaken : taken (fills OpenOrder.openQty ((b.addOrder o ts).trades.map Trade.qty).sum
      (b.openOrders o.side.opp)) = ((b.addOrder o ts).trades.map Trade.qty).sum := by
    have hweigh := h.weighTrades_addOrder o ts fun _ _ => 1
    simp only [weighTrades, weighted, Int.one_mul] at hweigh
    exact hweigh.symm
  have hcost := weighted_fills_le OpenOrder.reduce_openQty hpos hsorted hdemand halloc
    (htotal.trans htaken.symm)
  have hweigh := h.weighTrades_addOrder o ts fun _ p => o.side.signed p
  rw [← hweigh] at hcost
  rw [o.side.signed_sum, o.side.signed_sum, List.map_map, List.map_map]
  simpa only [weighTrades, Function.comp_def, o.side.signed_mul] using hcost

/-- Two sells on the book, and a buy that takes the cheaper one and a part of the other. -/
theorem addOrder_cheapest_buy :
    Side.buy.signed ((((create {}).run
        [.add { id := 1, side := .sell, price := 12, quantity := 5 } 0,
          .add { id := 2, side := .sell, price := 10, quantity := 5 } 1]).addOrder
        { id := 3, side := .buy, type := .market, quantity := 7 } 2).trades.map fun t =>
          t.price * t.qty).sum ≤
      Side.buy.signed ((((create {}).run
        [.add { id := 1, side := .sell, price := 12, quantity := 5 } 0,
          .add { id := 2, side := .sell, price := 10, quantity := 5 } 1]).openOrders .sell).map fun x =>
          x.price * if x.id = 1 then 5 else 2).sum :=
  addOrder_cheapest {} _ { id := 3, side := .buy, type := .market, quantity := 7 } 2
    (fun id => if id = 1 then 5 else 2) (by decide) (by decide)

end L3OrderBook

/-! ## Slices -/

/-- A part of an order: its own id, size and time. -/
structure Slice where
  id : OrderId
  qty : Int
  ts : Timestamp

/-- An order of this size under this id. -/
def Order.part (o : Order) (id : OrderId) (qty : Int) : Order := { o with id, quantity := qty }

/-- The submission of an order in slices. -/
def slices (o : Order) (parts : List Slice) : List BookOp :=
  parts.map fun x => .add (o.part x.id x.qty) x.ts

theorem goodFor_sweepSide (o : Order) (qty : Int) {l : List OpenOrder}
    (hpos : ∀ x ∈ goodFor o l, 0 < x.openQty) :
    goodFor o (sweepSide o qty l) =
      residue OpenOrder.openQty OpenOrder.reduce qty (goodFor o l) := by
  have hgood : ∀ x ∈ residue OpenOrder.openQty OpenOrder.reduce qty (goodFor o l),
      (!beyondLimit o x.price) = true := by
    intro x hx
    rcases mem_residue OpenOrder.reduce_openQty hpos hx with hx | ⟨y, hy, m, -, -, rfl⟩
    · exact (List.mem_filter.mp hx).2
    · exact (List.mem_filter.mp hy).2
  have hbad : goodFor o (badFor o l) = [] := by
    unfold goodFor badFor
    rw [List.filter_filter, List.filter_eq_nil_iff]
    simp
  rw [sweepSide, goodFor, List.filter_append, List.filter_eq_self.mpr hgood]
  exact (congrArg _ hbad).trans (List.append_nil _)

theorem badFor_sweepSide (o : Order) (qty : Int) {l : List OpenOrder}
    (hpos : ∀ x ∈ goodFor o l, 0 < x.openQty) : badFor o (sweepSide o qty l) = badFor o l := by
  have hgood : badFor o (residue OpenOrder.openQty OpenOrder.reduce qty (goodFor o l)) = [] := by
    unfold badFor
    rw [List.filter_eq_nil_iff]
    intro x hx
    rcases mem_residue OpenOrder.reduce_openQty hpos hx with hx | ⟨y, hy, m, -, -, rfl⟩
    · simpa using (List.mem_filter.mp hx).2
    · simpa [OpenOrder.reduce] using (List.mem_filter.mp hy).2
  have hbad : badFor o (badFor o l) = badFor o l := by
    unfold badFor
    rw [List.filter_filter]
    simp
  rw [sweepSide, badFor, List.filter_append]
  exact (congrArg₂ _ hgood hbad).trans (List.nil_append _)

namespace L3OrderBook

/-- The trades of a sequence of calls. -/
def tradesOf (b : L3OrderBook) (ops : List BookOp) : List Trade :=
  (b.results ops).flatMap BookResult.trades

/-- An order that neither rests nor is all or nothing sweeps the other side, and that is all. -/
structure Sweeps (b : L3OrderBook) (o : Order) (qty : Int) (b' : L3OrderBook) (trades : List Trade) :
    Prop where
  orders : b'.openOrders =
    Function.update b.openOrders o.side.opp (sweepSide o qty (b.openOrders o.side.opp))
  weigh : ∀ w, weighTrades w trades = weighted (fun x => w x.id x.price)
    (fills OpenOrder.openQty qty (goodFor o (b.openOrders o.side.opp)))

/-- The order is canceled, not rested, when it is not filled, and takes what it can get. -/
def TakeOnly (o : Order) : Prop := (o.type = .market ∨ o.tif = .ioc) ∧ o.tif ≠ .fok

instance (o : Order) : Decidable (TakeOnly o) := inferInstanceAs (Decidable ((_ ∨ _) ∧ _))

theorem RepInv.addOrder_sweeps {b : L3OrderBook} (h : b.RepInv) {o : Order} (ho : TakeOnly o)
    {id : OrderId} (hid : ¬ b.ladder.Has id) (qty : Int) (ts : Timestamp) :
    b.Sweeps o qty (b.addOrder (o.part id qty) ts).book (b.addOrder (o.part id qty) ts).trades ∧
      (b.addOrder (o.part id qty) ts).book.ladder = b.ladder.afterMatch (o.part id qty) := by
  have hdemand : b.ladder.demand (o.part id qty) = qty := if_neg fun hfok => ho.2 hfok.1
  have hnot : ¬ b.ladder.Rests (o.part id qty) := by
    rintro ⟨-, hlim, htif⟩
    rcases ho.1 with hmarket | hioc
    · exact OrderType.noConfusion (hlim.symm.trans hmarket)
    · rcases htif with hday | hgtc
      · exact TimeInForce.noConfusion (hioc.symm.trans hday)
      · exact TimeInForce.noConfusion (hioc.symm.trans hgtc)
  have hladder : (b.addOrder (o.part id qty) ts).book.ladder =
      b.ladder.afterMatch (o.part id qty) := by
    have hnew : ¬ b.ladder.Has (o.part id qty).id := hid
    rw [(h.addOrder _ ts).ladder, Ladder.add, if_neg hnew, if_neg hnot]
  refine ⟨⟨?_, fun w => ?_⟩, hladder⟩
  · rw [openOrders_eq, hladder, Ladder.openOrders_afterMatch, hdemand, openOrders_eq]
    rfl
  · rw [(h.outcome hid ts).trades, weighTrades_fillTrades, hdemand, openOrders_eq]
    rfl

theorem RepInv.run_sweeps {b : L3OrderBook} (h : b.RepInv) {o : Order} (ho : TakeOnly o)
    (parts : List Slice) (hparts : ∀ x ∈ parts, 0 ≤ x.qty ∧ ¬ b.ladder.Has x.id) :
    b.Sweeps o (parts.map Slice.qty).sum (b.run (slices o parts)) (b.tradesOf (slices o parts)) := by
  induction parts generalizing b with
  | nil =>
    refine ⟨?_, fun w => ?_⟩
    · have hside := h.sound_openOrders.good_append_bad o
      rw [List.map_nil, List.sum_nil, sweepSide, residue_of_nonpos _ _ le_rfl, hside,
        Function.update_eq_self]
      rfl
    · rw [List.map_nil, List.sum_nil, fills_of_nonpos _ le_rfl]
      rfl
  | cons x parts ih =>
    rw [List.forall_mem_cons] at hparts
    obtain ⟨⟨hqty, hid⟩, hrest⟩ := hparts
    obtain ⟨⟨horders, hweigh⟩, hladder⟩ := h.addOrder_sweeps ho hid x.qty x.ts
    have hnext := (h.addOrder (o.part x.id x.qty) x.ts).repInv
    have hsum : 0 ≤ (parts.map Slice.qty).sum := List.sum_nonneg fun m hm => by
      obtain ⟨y, hy, rfl⟩ := List.mem_map.mp hm
      exact (hrest y hy).1
    obtain ⟨hihorders, hihweigh⟩ := ih hnext fun y hy => ⟨(hrest y hy).1, by
      rw [hladder]
      exact h.inv.not_has_afterMatch (hrest y hy).2⟩
    have hpos := h.sound_openOrders.goodFor_pos o
    rw [horders, Function.update_self] at hihorders hihweigh
    refine ⟨?_, fun w => ?_⟩
    · refine hihorders.trans ?_
      rw [Function.update_idem, List.map_cons, List.sum_cons, sweepSide, goodFor_sweepSide o _ hpos,
        badFor_sweepSide o _ hpos, sweepSide,
        residue_add OpenOrder.reduce_openQty OpenOrder.reduce_reduce hpos hqty hsum]
    · have htrades : b.tradesOf (slices o (x :: parts)) =
          (b.addOrder (o.part x.id x.qty) x.ts).trades ++
            (b.addOrder (o.part x.id x.qty) x.ts).book.tradesOf (slices o parts) := rfl
      rw [htrades, weighTrades_append, hweigh, hihweigh, goodFor_sweepSide o _ hpos, List.map_cons,
        List.sum_cons, weighted_fills_add OpenOrder.reduce_openQty (fun _ _ => rfl) hpos hqty hsum]

/-- **Slicing an order changes nothing**: submitted in parts, one after the other, a market or
immediate-or-cancel order trades with the same orders, at the same prices and for the same
quantities, as in one piece, and the open orders it leaves are the same. -/
theorem run_slices (symbol : Symbol) (ops : List BookOp) (o : Order) (ho : TakeOnly o)
    (parts : List Slice) (whole : Slice) (hwhole : whole.qty = (parts.map Slice.qty).sum)
    (hparts : ∀ x ∈ whole :: parts, 0 ≤ x.qty ∧ x.id ∉ ((create symbol).run ops).orderIndex) :
    (((create symbol).run ops).run (slices o parts)).openOrders =
        (((create symbol).run ops).run (slices o [whole])).openOrders ∧
      ∀ w, weighTrades w (((create symbol).run ops).tradesOf (slices o parts)) =
        weighTrades w (((create symbol).run ops).tradesOf (slices o [whole])) := by
  have h := ((repInv_create symbol).run ops).2
  generalize (create symbol).run ops = b at h hparts
  simp only [h.mem_index, List.forall_mem_cons] at hparts
  have hmany := h.run_sweeps ho parts hparts.2
  have hone := h.run_sweeps ho [whole] (by simpa using hparts.1)
  have hsum : ([whole].map Slice.qty).sum = (parts.map Slice.qty).sum := by
    rw [← hwhole]
    exact Int.add_zero _
  rw [hsum] at hone
  exact ⟨hmany.orders.trans hone.orders.symm, fun w => (hmany.weigh w).trans (hone.weigh w).symm⟩

/-- Two slices of a market order against a bid of 10. -/
theorem run_slices_market :
    (((create {}).run [.add { id := 1, price := 10, quantity := 10 } 0]).run
        (slices { side := .sell, type := .market } [⟨2, 3, 1⟩, ⟨3, 4, 2⟩])).openOrders =
      (((create {}).run [.add { id := 1, price := 10, quantity := 10 } 0]).run
        (slices { side := .sell, type := .market } [⟨4, 7, 1⟩])).openOrders ∧
      ∀ w, weighTrades w (((create {}).run [.add { id := 1, price := 10, quantity := 10 } 0]).tradesOf
          (slices { side := .sell, type := .market } [⟨2, 3, 1⟩, ⟨3, 4, 2⟩])) =
        weighTrades w (((create {}).run [.add { id := 1, price := 10, quantity := 10 } 0]).tradesOf
          (slices { side := .sell, type := .market } [⟨4, 7, 1⟩])) :=
  run_slices {} _ _ (by decide) _ ⟨4, 7, 1⟩ rfl (by decide)

end L3OrderBook

end HftSdk
