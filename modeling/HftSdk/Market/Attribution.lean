import HftSdk.Market.RestingOrders
import HftSdk.Market.TradeEngine
import HftSdk.Lib.Run

/-!
# Who is credited with the lightweight book's trades

The trades of `matchIncoming` go to a trade engine. They name the two orders and not the two traders:
`resting_trader` and `incoming_trader` stay 0, so that both legs of every trade are booked to trader 0
and cancel out. What the orders of a trader executed shows in its net quantity only where it comes to
nothing as well.
-/

namespace HftSdk

open Sweep

namespace OrderBook

/-- A book with the trade engine that its trades go to, the orders submitted so far and their
trades. -/
structure Account where
  book : OrderBook
  engine : TradeEngine := {}
  orders : List BookOrder := []
  trades : List Trade := []

/-- An order is matched, and its remainder is added if the caller wants it to `rest`; or an order is
canceled. -/
inductive AccountOp
  | submit (order : BookOrder) (tsNs : Timestamp) (rest : Bool)
  | cancel (id : OrderId)

/-! ## What was executed -/

/-- The quantity executed on an order. -/
def executed (trades : List Trade) (o : BookOrder) : Int :=
  ((trades.filter fun t => t.restingId = o.id ∨ t.incomingId = o.id).map Trade.qty).sum

/-- The quantity executed on the orders of a trader on one side. -/
def executedOn (orders : List BookOrder) (trades : List Trade) (trader : TraderId) (s : Side) : Int :=
  ((orders.filter fun o => o.trader = trader ∧ o.side = s).map (executed trades)).sum

/-- What was bought less what was sold. -/
def netExecuted (orders : List BookOrder) (trades : List Trade) (trader : TraderId) : Int :=
  executedOn orders trades trader .buy - executedOn orders trades trader .sell

/-- The contribution of one order. -/
def contribution (trader : TraderId) (o : BookOrder) (q : Int) : Int :=
  if o.trader = trader then o.side.signed q else 0

theorem contribution_add (trader : TraderId) (o : BookOrder) (q r : Int) :
    contribution trader o (q + r) = contribution trader o q + contribution trader o r := by
  unfold contribution
  split_ifs
  · exact Side.signed_add _ _ _
  · rfl

@[simp] theorem contribution_zero (trader : TraderId) (o : BookOrder) :
    contribution trader o 0 = 0 := by
  unfold contribution
  split_ifs
  · exact Side.signed_zero _
  · rfl

theorem netExecuted_eq (orders : List BookOrder) (trades : List Trade) (trader : TraderId) :
    netExecuted orders trades trader =
      (orders.map fun o => contribution trader o (executed trades o)).sum := by
  unfold netExecuted executedOn
  induction orders with
  | nil => rfl
  | cons o orders ih =>
    rw [List.map_cons, List.sum_cons, ← ih, List.filter_cons, List.filter_cons]
    unfold contribution
    by_cases ht : o.trader = trader
    · cases hs : o.side with
      | buy =>
        simp [ht, Side.signed]
        omega
      | sell =>
        simp [ht, Side.signed]
        omega
    · simp [ht]

theorem executed_append (trades trades' : List Trade) (o : BookOrder) :
    executed (trades ++ trades') o = executed trades o + executed trades' o := by
  unfold executed
  rw [List.filter_append, List.map_append, List.sum_append]

theorem netExecuted_append (orders : List BookOrder) (trades trades' : List Trade)
    (trader : TraderId) : netExecuted orders (trades ++ trades') trader =
      netExecuted orders trades trader + netExecuted orders trades' trader := by
  rw [netExecuted_eq, netExecuted_eq, netExecuted_eq]
  induction orders with
  | nil => rfl
  | cons o orders ih =>
    rw [List.map_cons, List.map_cons, List.map_cons, List.sum_cons, List.sum_cons, List.sum_cons, ih,
      executed_append, contribution_add]
    omega

theorem executed_eq_zero {trades : List Trade} {o : BookOrder}
    (h : ∀ t ∈ trades, t.restingId ≠ o.id ∧ t.incomingId ≠ o.id) : executed trades o = 0 := by
  unfold executed
  rw [List.filter_eq_nil_iff.mpr fun t ht => by simp [h t ht]]
  rfl

theorem netExecuted_concat {orders : List BookOrder} {trades : List Trade} {o : BookOrder}
    (h : ∀ t ∈ trades, t.restingId ≠ o.id ∧ t.incomingId ≠ o.id) (trader : TraderId) :
    netExecuted (orders ++ [o]) trades trader = netExecuted orders trades trader := by
  rw [netExecuted_eq, netExecuted_eq, List.map_append, List.sum_append, List.map_singleton,
    List.sum_singleton, executed_eq_zero h, contribution_zero, Int.add_zero]

/-! ### One trade -/

theorem sum_of_id {orders : List BookOrder} (hids : (orders.map BookOrder.id).Nodup) {o : BookOrder}
    (ho : o ∈ orders) (trader : TraderId) (q : Int) :
    (orders.map fun o' => contribution trader o' (if o'.id = o.id then q else 0)).sum =
      contribution trader o q := by
  induction orders with
  | nil => cases ho
  | cons o' orders ih =>
    rw [List.map_cons, List.nodup_cons] at hids
    rw [List.map_cons, List.sum_cons]
    rcases List.mem_cons.mp ho with rfl | ho
    · have hrest : (orders.map fun o' => contribution trader o' (if o'.id = o.id then q else 0)) =
          orders.map fun _ => 0 := by
        apply List.map_congr_left
        intro o' ho'
        rw [if_neg fun hid => hids.1 (List.mem_map.mpr ⟨o', ho', hid⟩), contribution_zero]
      rw [hrest, if_pos rfl, List.sum_map_zero, Int.add_zero]
    · have hne : o'.id ≠ o.id := fun hid => hids.1 (List.mem_map.mpr ⟨o, ho, hid.symm⟩)
      rw [ih hids.2 ho, if_neg hne, contribution_zero, Int.zero_add]

theorem netExecuted_singleton {orders : List BookOrder} (hids : (orders.map BookOrder.id).Nodup)
    {resting incoming : BookOrder} (hr : resting ∈ orders) (hi : incoming ∈ orders)
    (hne : resting.id ≠ incoming.id) {t : Trade} (htr : t.restingId = resting.id)
    (hti : t.incomingId = incoming.id) (trader : TraderId) :
    netExecuted orders [t] trader =
      contribution trader resting t.qty + contribution trader incoming t.qty := by
  have hsplit : ∀ o, executed [t] o =
      (if o.id = resting.id then t.qty else 0) + (if o.id = incoming.id then t.qty else 0) := by
    intro o
    unfold executed
    by_cases h : o.id = resting.id
    · simp [htr, h, hne]
    · by_cases h' : o.id = incoming.id
      · simp [hti, h', hne.symm]
      · simp [htr, hti, Ne.symm h, Ne.symm h', h, h']
  rw [netExecuted_eq, ← sum_of_id hids hr, ← sum_of_id hids hi, ← List.sum_map_add]
  simp only [hsplit, contribution_add]

/-- The trader of a resting order. -/
def traderAt (x : Int × ListNode BookOrder) : TraderId := x.2.val.trader

theorem netExecuted_fills {orders : List BookOrder} (hids : (orders.map BookOrder.id).Nodup)
    {incoming : BookOrder} (hi : incoming ∈ orders) (symbol : Symbol) (tsNs : Timestamp)
    {fs : List ((Int × ListNode BookOrder) × Int)}
    (hfs : ∀ f ∈ fs, ∃ o ∈ orders, o.id = f.1.2.val.id ∧ o.trader = traderAt f.1 ∧
      o.side = incoming.side.opp ∧ o.id ≠ incoming.id) (trader : TraderId) :
    netExecuted orders (fs.map (fillTrade symbol incoming tsNs)) trader =
      incoming.side.signed
        ((if trader = incoming.trader then taken fs else 0) - given traderAt trader fs) := by
  induction fs with
  | nil =>
    rw [List.map_nil, netExecuted_eq, taken_nil, given_nil, ite_self, Int.sub_zero, Side.signed_zero]
    exact (congrArg List.sum (List.map_congr_left fun o _ => contribution_zero trader o)).trans
      List.sum_map_zero
  | cons f fs ih =>
    rw [List.forall_mem_cons] at hfs
    obtain ⟨o, ho, hid, htrader, hside, hne⟩ := hfs.1
    have hone := netExecuted_singleton (t := fillTrade symbol incoming tsNs f) hids ho hi hne hid.symm
      rfl trader
    have hqty : (fillTrade symbol incoming tsNs f).qty = f.2 := rfl
    rw [List.map_cons, ← List.singleton_append, netExecuted_append, ih hfs.2, hone, hqty, taken_cons,
      given_cons]
    unfold contribution
    rw [htrader, hside, Side.signed_opp]
    simp only [eq_comm (a := incoming.trader)]
    cases incoming.side <;> simp only [Side.signed] <;> split_ifs <;> omega

/-! ## Runs -/

namespace Account

def create (symbol : Symbol) : Account := { book := { symbol_ := symbol } }

def step (a : Account) : AccountOp → Account
  | .submit order tsNs rest =>
    let r := a.book.matchIncoming order tsNs
    { book :=
        if rest ∧ 0 < r.1.2 then r.2.addOrder { order with qty := r.1.2 } else r.2
      engine := r.1.1.foldl TradeEngine.processTrade a.engine
      orders := a.orders ++ [order]
      trades := a.trades ++ r.1.1 }
  | .cancel id => { a with book := (a.book.cancelOrder id).2 }

/-- An order for a positive quantity under an id of its own; or a cancel. -/
def Valid (a : Account) : AccountOp → Prop
  | .submit order _ _ => 0 < order.qty ∧ order.id ∉ a.orders.map BookOrder.id
  | .cancel _ => True

instance (a : Account) : ∀ op, Decidable (a.Valid op)
  | .submit _ _ _ => inferInstanceAs (Decidable (_ ∧ _))
  | .cancel _ => isTrue trivial

/-- **The property**: net quantities are what the orders of the traders executed. -/
def Attributed (a : Account) : Prop :=
  ∀ trader, a.engine.netQty trader a.book.symbol_ = netExecuted a.orders a.trades trader

/-- **The condition**: an order reaches orders of its own trader only. -/
def ReachesOwn (a : Account) : AccountOp → Prop
  | .submit order _ _ =>
    ∀ x ∈ reached qtyAt order.qty (a.book.tradable order), traderAt x = order.trader
  | .cancel _ => True

instance (a : Account) : ∀ op, Decidable (a.ReachesOwn op)
  | .submit _ _ _ => inferInstanceAs (Decidable (∀ x ∈ _, _))
  | .cancel _ => isTrue trivial

/-! ### The invariant -/

/-- A resting order is a submitted one, with something left. -/
structure Owned (a : Account) (s : Side) (x : Int × ListNode BookOrder) : Prop where
  pos : 0 < qtyAt x
  order : ∃ o ∈ a.orders, o.id = x.2.val.id ∧ o.trader = traderAt x ∧ o.side = s

structure Inv (a : Account) : Prop where
  ids : (a.orders.map BookOrder.id).Nodup
  owned : ∀ s, ∀ x ∈ a.book.flat s, a.Owned s x
  named : ∀ t ∈ a.trades,
    t.restingId ∈ a.orders.map BookOrder.id ∧ t.incomingId ∈ a.orders.map BookOrder.id
  flat : ∀ trader symbol, a.engine.netQty trader symbol = 0

theorem inv_create (symbol : Symbol) : (create symbol).Inv where
  ids := List.nodup_nil
  owned := by
    intro s x hx
    cases s <;> cases hx
  named := fun _ ht => absurd ht List.not_mem_nil
  flat := fun _ _ => rfl

variable {a : Account}

theorem Owned.mono {s : Side} {x : Int × ListNode BookOrder} (h : a.Owned s x) {a' : Account}
    (hsub : a.orders ⊆ a'.orders) : a'.Owned s x := by
  obtain ⟨o, ho, h'⟩ := h.order
  exact ⟨h.pos, o, hsub ho, h'⟩

theorem tradable_subset (ob : OrderBook) (order : BookOrder) {x : Int × ListNode BookOrder}
    (hx : x ∈ ob.tradable order) : x ∈ ob.flat order.side.opp := by
  rw [flat_opp_eq]
  exact List.mem_append_left _ hx

theorem tradeQty_fillTrade (symbol : Symbol) (order : BookOrder) (tsNs : Timestamp)
    (f : (Int × ListNode BookOrder) × Int) (trader : TraderId) (symbol' : Symbol) :
    TradeEngine.tradeQty trader symbol' (fillTrade symbol order tsNs f) = 0 := by
  unfold TradeEngine.tradeQty fillTrade tradeWith
  dsimp only
  split_ifs
  · rw [Side.signed_opp, Int.add_right_neg]
  · rfl

theorem netQty_fillTrades (e : TradeEngine) (symbol : Symbol) (order : BookOrder) (tsNs : Timestamp)
    (fs : List ((Int × ListNode BookOrder) × Int)) (trader : TraderId) (symbol' : Symbol) :
    ((fs.map (fillTrade symbol order tsNs)).foldl TradeEngine.processTrade e).netQty trader symbol' =
      e.netQty trader symbol' := by
  have hzero : (fs.map (fillTrade symbol order tsNs)).map (TradeEngine.tradeQty trader symbol') =
      fs.map fun _ => 0 := by
    rw [List.map_map]
    exact List.map_congr_left fun f _ => tradeQty_fillTrade _ _ _ _ _ _
  rw [TradeEngine.netQty_foldl, hzero, List.sum_map_zero, Int.add_zero]

namespace Inv

variable (h : a.Inv)
include h

theorem fill_owned {order : BookOrder} {f : (Int × ListNode BookOrder) × Int}
    (hf : f ∈ fills qtyAt order.qty (a.book.tradable order)) :
    a.Owned order.side.opp f.1 ∧ 0 < f.2 := by
  have hpos : ∀ x ∈ a.book.tradable order, 0 < qtyAt x := fun x hx =>
    (h.owned _ x (tradable_subset _ _ hx)).pos
  obtain ⟨hmem, hfpos, -⟩ := fill_bounds qtyAt_reduceAt hpos hf
  exact ⟨h.owned _ _ (tradable_subset _ _ hmem), hfpos⟩

theorem owned_match (order : BookOrder) (tsNs : Timestamp) {s : Side}
    {x : Int × ListNode BookOrder} (hx : x ∈ (a.book.matchIncoming order tsNs).2.flat s) :
    a.Owned s x := by
  obtain ⟨-, hopp, hown, -⟩ := matchIncoming_eq order tsNs a.book
  rcases Side.eq_or_eq_opp order.side s with rfl | rfl
  · rw [hown] at hx
    exact h.owned _ x hx
  · rw [hopp] at hx
    have hpos : ∀ x ∈ a.book.tradable order, 0 < qtyAt x := fun x hx =>
      (h.owned _ x (tradable_subset _ _ hx)).pos
    rcases List.mem_append.mp hx with hx | hx
    · rcases mem_residue qtyAt_reduceAt hpos hx with hx | ⟨y, hy, m, -, hm, rfl⟩
      · exact h.owned _ x (tradable_subset _ _ hx)
      · have howned := h.owned _ y (tradable_subset _ _ hy)
        exact ⟨by rw [qtyAt_reduceAt]; omega, howned.order⟩
    · exact h.owned _ x (flat_opp_eq order a.book ▸ List.mem_append_right _ hx)

theorem submit {order : BookOrder} (hid : order.id ∉ a.orders.map BookOrder.id) (tsNs : Timestamp)
    (rest : Bool) : (a.step (.submit order tsNs rest)).Inv := by
  have hmatch := (matchIncoming_eq order tsNs a.book).1
  have hgrow : a.orders ⊆ a.orders ++ [order] := List.subset_append_left _ _
  refine ⟨?_, ?_, ?_, ?_⟩
  · show ((a.orders ++ [order]).map BookOrder.id).Nodup
    rw [List.map_append]
    exact List.Nodup.append h.ids (List.nodup_singleton _) (by simpa using hid)
  · intro s x hx
    unfold Account.step at hx ⊢
    dsimp only at hx ⊢
    split_ifs at hx with hrest
    · -- the remainder rests as well
      rcases Side.eq_or_eq_opp order.side s with rfl | rfl
      · rcases List.mem_cons.mp ((flat_addOrder_perm _ _).mem_iff.mp hx) with rfl | hx
        · exact ⟨hrest.2, order, List.mem_append_right _ List.mem_cons_self, rfl, rfl, rfl⟩
        · exact (h.owned_match order tsNs hx).mono hgrow
      · rw [flat_addOrder_opp] at hx
        exact (h.owned_match order tsNs hx).mono hgrow
    · exact (h.owned_match order tsNs hx).mono hgrow
  · intro t ht
    have hold : ∀ id ∈ a.orders.map BookOrder.id, id ∈ (a.orders ++ [order]).map BookOrder.id :=
      fun id hid => List.map_subset _ hgrow hid
    rcases List.mem_append.mp ht with ht | ht
    · exact ⟨hold _ (h.named t ht).1, hold _ (h.named t ht).2⟩
    · rw [hmatch] at ht
      obtain ⟨f, hf, rfl⟩ := List.mem_map.mp ht
      obtain ⟨o, ho, hoid, -⟩ := (h.fill_owned hf).1.order
      exact ⟨hold _ (List.mem_map.mpr ⟨o, ho, hoid⟩),
        List.mem_map.mpr ⟨order, List.mem_append_right _ List.mem_cons_self, rfl⟩⟩
  · intro trader symbol
    show ((a.book.matchIncoming order tsNs).1.1.foldl _ a.engine).netQty trader symbol = 0
    rw [hmatch, netQty_fillTrades, h.flat]

theorem cancel (id : OrderId) : (a.step (.cancel id)).Inv := by
  refine ⟨h.ids, fun s x hx => ?_, h.named, h.flat⟩
  have hold : x ∈ a.book.flat s := by
    cases hl : a.book.order_index_.lookup id with
    | none => exact (cancelOrder_of_none hl) ▸ hx
    | some loc => exact List.mem_of_mem_filter (flat_cancelOrder hl s ▸ hx)
  exact (h.owned s x hold).mono (List.Subset.refl _)

theorem step {op : AccountOp} (hop : a.Valid op) : (a.step op).Inv := by
  cases op with
  | submit order tsNs rest => exact h.submit hop.2 tsNs rest
  | cancel id => exact h.cancel id

/-! ### One step -/

theorem attributed_iff : a.Attributed ↔ ∀ trader, netExecuted a.orders a.trades trader = 0 := by
  unfold Attributed
  simp only [h.flat, eq_comm (a := (0 : Int))]

theorem netExecuted_submit {order : BookOrder} (hid : order.id ∉ a.orders.map BookOrder.id)
    (tsNs : Timestamp) (rest : Bool) (trader : TraderId) :
    let a' := a.step (.submit order tsNs rest)
    let fs := fills qtyAt order.qty (a.book.tradable order)
    netExecuted a'.orders a'.trades trader = netExecuted a.orders a.trades trader +
      order.side.signed
        ((if trader = order.trader then taken fs else 0) - given traderAt trader fs) := by
  have hids := (h.submit hid tsNs rest).ids
  have hmatch := (matchIncoming_eq order tsNs a.book).1
  show netExecuted (a.orders ++ [order]) (a.trades ++ (a.book.matchIncoming order tsNs).1.1) trader = _
  rw [hmatch, netExecuted_append, netExecuted_concat]
  · congr 1
    apply netExecuted_fills hids (List.mem_append_right _ List.mem_cons_self)
    intro f hf
    obtain ⟨o, ho, hoid, htrader, hside⟩ := (h.fill_owned hf).1.order
    exact ⟨o, List.mem_append_left _ ho, hoid, htrader, hside,
      fun heq => hid (List.mem_map.mpr ⟨o, ho, heq⟩)⟩
  · intro t ht
    exact ⟨fun heq => hid (heq ▸ (h.named t ht).1), fun heq => hid (heq ▸ (h.named t ht).2)⟩

theorem attributed_step_iff (hattr : a.Attributed) {op : AccountOp} (hop : a.Valid op) :
    (a.step op).Attributed ↔ a.ReachesOwn op := by
  rw [h.attributed_iff] at hattr
  cases op with
  | cancel id =>
    exact iff_of_true ((h.cancel id).attributed_iff.mpr hattr) trivial
  | submit order tsNs rest =>
    have hfpos : ∀ f ∈ fills qtyAt order.qty (a.book.tradable order), 0 < f.2 := fun f hf =>
      (h.fill_owned hf).2
    rw [(h.submit hop.2 tsNs rest).attributed_iff, ReachesOwn, ← map_fst_fills, List.forall_mem_map,
      ← given_eq_taken hfpos]
    refine forall_congr' fun trader => ?_
    rw [h.netExecuted_submit hop.2, hattr, Int.zero_add]
    cases order.side <;> simp only [Side.signed] <;> omega

end Inv

/-- **Net quantities along a run** are what the traders' orders executed exactly when every order
reaches resting orders of its own trader only. -/
theorem run_attributed_iff (symbol : Symbol) (ops : List AccountOp)
    (hvalid : Run.Along step Valid (create symbol) ops) :
    (create symbol).Attributed ∧
        Run.Along step (fun a op => (a.step op).Attributed) (create symbol) ops ↔
      Run.Along step ReachesOwn (create symbol) ops := by
  have hinit : (create symbol).Attributed := fun _ => rfl
  have hboth : Run.Along step (fun a op => a.Valid op ∧ (a.step op).Attributed) (create symbol) ops ↔
      Run.Along step (fun a op => a.Valid op ∧ a.ReachesOwn op) (create symbol) ops := by
    apply Run.along_congr (I := fun a => a.Inv ∧ a.Attributed)
    · intro a op ha
      exact and_congr_right fun hop => ha.1.attributed_step_iff ha.2 hop
    · intro a op ha hop
      exact ⟨ha.1.step hop.1, (ha.1.attributed_step_iff ha.2 hop.1).mpr hop.2⟩
    · exact ⟨inv_create symbol, hinit⟩
  rw [Run.along_and, Run.along_and] at hboth
  rw [and_iff_right hinit]
  exact ⟨fun h => (hboth.mp ⟨hvalid, h⟩).2, fun h => (hboth.mpr ⟨hvalid, h⟩).2⟩

/-- Trader 7 sells 5, buys 3 of them back, and cancels the rest. -/
theorem run_attributed_own :
    let ask : BookOrder :=
      { id := 1, trader := 7, qty := 5, price := 10, side := .sell, type := .limit, tsNs := 0 }
    let bid : BookOrder :=
      { id := 2, trader := 7, qty := 3, price := 11, side := .buy, type := .limit, tsNs := 0 }
    Run.Along step (fun a op => (a.step op).Attributed) (create {})
      [.submit ask 0 true, .submit bid 0 true, .cancel 1] :=
  ((run_attributed_iff {} _ (by decide)).mpr (by decide)).2

/-- Trader 1 sells 5 and trader 2 buys them. -/
def sale : List AccountOp :=
  [.submit { id := 1, trader := 1, qty := 5, price := 10, side := .sell, type := .limit, tsNs := 0 }
      0 true,
    .submit { id := 2, trader := 2, qty := 5, price := 10, side := .buy, type := .limit, tsNs := 0 }
      0 true]

/-- **The buyer's net quantity is 0**, not 5. -/
theorem sale_not_attributed :
    let a := sale.foldl step (create {})
    Run.Along step Valid (create {}) sale ∧ a.engine.netQty 2 {} = 0 ∧
      netExecuted a.orders a.trades 2 = 5 ∧ ¬ a.Attributed := by
  have hqty : (sale.foldl step (create {})).engine.netQty 2 {} = 0 := by decide
  have hexec : netExecuted (sale.foldl step (create {})).orders (sale.foldl step (create {})).trades 2 =
      5 := by decide
  refine ⟨by decide, hqty, hexec, fun h => ?_⟩
  have hnet := (h 2).symm.trans hqty
  rw [hexec] at hnet
  exact absurd hnet (by decide)

end Account

end OrderBook

end HftSdk
