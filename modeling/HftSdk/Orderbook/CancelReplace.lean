import HftSdk.Orderbook.Reports

/-!
# Cancel-replace

`replace_order` is a cancel that has taken effect and a submission under the same id on the same
side, with price, quantity and owner from the request. `replaceOrder_atomic_iff` says exactly when
the two are one step that changes the price and the quantity only. They are not for a negative
quantity, which is neither refused nor traded nor rested, and the owner of what rests is whoever
sent the request.
-/

namespace HftSdk

open Sweep PriorityList

/-! ## What an operation leaves alone -/

namespace Ladder

variable {L : Ladder}

/-- The quotes of a side with other ids than these, in priority order. -/
def others (L : Ladder) (ids : List OrderId) (s : Side) : List Quote :=
  (L.side s).filter fun q => q.order.id ∉ ids

/-- The quotes with this id. -/
def under (L : Ladder) (id : OrderId) : List Quote := L.all.filter fun q => q.order.id = id

theorem mem_under {id : OrderId} {q : Quote} : q ∈ L.under id ↔ q ∈ L.all ∧ q.order.id = id := by
  rw [under, List.mem_filter, decide_eq_true_eq]

theorem under_eq_nil {id : OrderId} : L.under id = [] ↔ ¬ L.Has id := by
  rw [under, List.filter_eq_nil_iff]
  simp [Has]

theorem others_cancel {id : OrderId} {ids : List OrderId} (hid : id ∈ ids) (s : Side) :
    (L.cancel id).others ids s = L.others ids s := by
  unfold others cancel
  rw [List.filter_filter]
  refine List.filter_congr fun q _ => ?_
  rw [← Bool.decide_and, decide_eq_decide]
  refine ⟨And.left, fun h => ⟨h, ?_⟩⟩
  rintro rfl
  exact h hid

theorem Inv.others_afterMatch (h : L.Inv) {o : Order} {ids : List OrderId}
    (hfills : ∀ x ∈ L.fillsOf o, x.1.order.id ∈ ids) (s : Side) :
    (L.afterMatch o).others ids s = L.others ids s := by
  unfold others
  rcases (o.side.eq_or_eq_opp s).symm with rfl | rfl
  · rw [Ladder.afterMatch, set_side, List.filter_append]
    conv_rhs => rw [← h.tradable_append o, List.filter_append]
    congr 1
    exact filter_residue (fun q m => by rw [Quote.fill, L3Order.fill_id]) fun x hx =>
      decide_eq_false (not_not.mpr (hfills x hx))
  · rw [Ladder.afterMatch, set_opp_side]

theorem Inv.others_rest (h : L.Inv) {o : Order} {ids : List OrderId} (hid : o.id ∈ ids)
    (remaining : Int) (ts : Timestamp) (s : Side) :
    (L.rest o remaining ts).others ids s = L.others ids s := by
  unfold others
  rcases o.side.eq_or_eq_opp s with rfl | rfl
  · rw [Ladder.rest, set_side]
    refine filter_place (decide_eq_false (not_not.mpr hid)) ((h.ordered _).imp fun hqr hr => ?_)
    -- what is as good as the new price has nothing worse than it in front
    rw [Bool.not_eq_true', decide_eq_false_iff_not] at hr ⊢
    intro hq
    rcases hqr with hqr | ⟨hp, -⟩
    · exact hr (IsTrans.trans _ _ _ hq hqr)
    · exact hr (hp ▸ hq)
  · rw [Ladder.rest, set_side_opp]

theorem Inv.others_add (h : L.Inv) {o : Order} {ids : List OrderId} (hid : o.id ∈ ids)
    (hfills : ∀ x ∈ L.fillsOf o, x.1.order.id ∈ ids) (ts : Timestamp) (s : Side) :
    (L.add o ts).others ids s = L.others ids s := by
  unfold Ladder.add
  split_ifs
  · rfl
  · rw [(h.afterMatch o).others_rest hid, h.others_afterMatch hfills]
  · exact h.others_afterMatch hfills s

theorem Inv.under_add (h : L.Inv) {o : Order} (hid : ¬ L.Has o.id) (ts : Timestamp) :
    (L.add o ts).under o.id =
      if L.Rests o then [newQuote o (L.remainder o) ts L.stamp] else [] := by
  have hnone : (L.afterMatch o).under o.id = [] := under_eq_nil.mpr (h.not_has_afterMatch hid)
  rw [Ladder.add, if_neg hid]
  split_ifs with hrests
  · have hperm := (rest_perm (L.afterMatch o) o (L.remainder o) ts).filter fun q => q.order.id = o.id
    have hnew : (newQuote o (L.remainder o) ts (L.afterMatch o).stamp).order.id = o.id := rfl
    rw [List.filter_cons, if_pos (decide_eq_true hnew)] at hperm
    apply List.perm_singleton.mp
    rw [show List.filter _ (L.afterMatch o).all = [] from hnone] at hperm
    exact hperm
  · exact hnone

theorem Inv.remainder_nonneg_iff (h : L.Inv) (o : Order) : 0 ≤ L.remainder o ↔ 0 ≤ o.quantity := by
  rcases le_or_gt o.quantity 0 with hle | hpos
  · rw [(h.remainder_of_nonpos hle).2]
  · have htaken := h.taken_eq hpos.le
    rw [remainder]
    split_ifs at htaken <;> omega

theorem Inv.rests_iff (h : L.Inv) {o : Order} (htype : o.type = .limit) (htif : o.tif = .day) :
    L.Rests o ↔ L.liquidity o < o.quantity := by
  rw [← h.remainder_pos_iff]
  exact ⟨And.left, fun hrem => ⟨hrem, htype, Or.inl htif⟩⟩

end Ladder

namespace L3OrderBook

/-! ## A submission under a new id -/

variable {b : L3OrderBook} {o : Order}

theorem RepInv.mem_trades (h : b.RepInv) (hid : ¬ b.ladder.Has o.id) {ts : Timestamp} {t : Trade}
    (ht : t ∈ (b.addOrder o ts).trades) : t.incomingId = o.id ∧ beyondLimit o t.price = false := by
  rw [(h.outcome hid ts).trades] at ht
  obtain ⟨hin, -, x, hx, hprice⟩ := BookCore.mem_fillTrades ht
  have hwithin := (List.mem_filter.mp (h.inv.fillsOf_bounds hx).1).2
  rw [hprice]
  exact ⟨hin, by simpa using hwithin⟩

theorem RepInv.under_addOrder (h : b.RepInv) (hid : ¬ b.ladder.Has o.id) (ts : Timestamp) :
    (b.addOrder o ts).book.ladder.under o.id =
      if b.ladder.Rests o then [Ladder.newQuote o (b.ladder.remainder o) ts b.ladder.stamp]
      else [] := by
  rw [(h.addOrder o ts).ladder]
  exact h.inv.under_add hid ts

theorem RepInv.status_of_day (h : b.RepInv) (hid : ¬ b.ladder.Has o.id) (htif : o.tif = .day)
    (ts : Timestamp) : (b.addOrder o ts).rpt.status ≠ .rejected := by
  intro hrejected
  have hstatus := (congrArg Prod.fst (h.outcome hid ts).rpt).symm.trans hrejected
  have hfok := ((reported_rejected_iff _ _).mp hstatus).2.2
  simp [htif] at hfok

theorem RepInv.accounted_iff (h : b.RepInv) (hid : ¬ b.ladder.Has o.id) (htype : o.type = .limit)
    (htif : o.tif = .day) (ts : Timestamp) :
    (((b.addOrder o ts).trades.filter fun t => t.incomingId = o.id).map Trade.qty).sum +
        (((b.addOrder o ts).book.ladder.under o.id).map Quote.openQty).sum = o.quantity ↔
      0 ≤ o.quantity := by
  have hown : ∀ t ∈ (b.addOrder o ts).trades, decide (t.incomingId = o.id) = true := fun t ht =>
    decide_eq_true (h.mem_trades hid ht).1
  rw [List.filter_eq_self.mpr hown, (h.outcome hid ts).traded, h.under_addOrder hid,
    ← h.inv.remainder_nonneg_iff]
  simp only [h.inv.rests_iff htype htif, ← h.inv.remainder_pos_iff]
  split_ifs with hrem
  · have hopen : (Ladder.newQuote o (b.ladder.remainder o) ts b.ladder.stamp).openQty =
        b.ladder.remainder o := Int.add_zero _
    rw [List.map_singleton, List.sum_singleton, hopen]
    omega
  · rw [List.map_nil, List.sum_nil]
    omega

theorem RepInv.others_addOrder (h : b.RepInv) (hid : ¬ b.ladder.Has o.id) (ts : Timestamp)
    (s : Side) :
    (b.addOrder o ts).book.ladder.others (o.id :: (b.addOrder o ts).trades.map Trade.restingId) s =
      b.ladder.others (o.id :: (b.addOrder o ts).trades.map Trade.restingId) s := by
  rw [(h.outcome hid ts).trades, BookCore.map_fillTrades (k := fun x => x.1.order.id) fun _ _ => rfl,
    (h.addOrder o ts).ladder]
  exact h.inv.others_add List.mem_cons_self
    (fun x hx => List.mem_cons_of_mem _
      (List.mem_map_of_mem (f := fun x : Quote × Int => x.1.order.id) hx)) ts s

/-! ## Atomic replacement -/

/-- A price at which an order may trade under its limit. -/
def withinLimit : Side → Int → Int → Prop
  | .buy, limit, price => price ≤ limit
  | .sell, limit, price => limit ≤ price

theorem not_beyondLimit_iff (ho : o.type = .limit) (p : Int) :
    beyondLimit o p = false ↔ withinLimit o.side o.price p := by
  cases hs : o.side <;> simp [beyondLimit, ho, hs, withinLimit]

/-- The request was honoured in full, for an order that rested: `r` is what the call came to. -/
structure Replaced (b : L3OrderBook) (req : ReplaceRequest) (old : L3Order) (r : BookResult) :
    Prop where
  /-- The new quantity was traded or rests. -/
  accounted : ((r.trades.filter fun t => t.incomingId = req.orderId).map Trade.qty).sum +
    ((r.book.ladder.under req.orderId).map Quote.openQty).sum = req.newQty
  /-- It was traded at prices within the new limit. -/
  prices : ∀ t ∈ r.trades, t.incomingId = req.orderId → withinLimit old.side req.newPrice t.price
  /-- It rests as at most one order. -/
  one : (r.book.ladder.under req.orderId).length ≤ 1
  /-- It rests at the new price, on the same side and with the same owner. -/
  kept : ∀ q ∈ r.book.ladder.under req.orderId, q.price = req.newPrice ∧
    q.order.price = req.newPrice ∧ q.order.side = old.side ∧ q.order.traderId = old.traderId
  /-- Orders that were not traded against stay as they are and where they are. -/
  others : ∀ s, r.book.ladder.others (req.orderId :: r.trades.map Trade.restingId) s =
    b.ladder.others (req.orderId :: r.trades.map Trade.restingId) s

/-- All or nothing: the request is refused, or it is honoured in full. -/
def Atomic (b : L3OrderBook) (req : ReplaceRequest) (ts : Timestamp) : Prop :=
  let r := b.replaceOrder req ts
  r.rpt.status = .rejected ∧ r.book = b ∨
    ∃ q ∈ b.ladder.under req.orderId, b.Replaced req q.order r

theorem RepInv.replaced_iff (h : b.RepInv) {q : Quote} (hq : q ∈ b.ladder.all)
    {req : ReplaceRequest} (hid : q.order.id = req.orderId) (ts : Timestamp) :
    (b.replaceOrder req ts).rpt.status ≠ .rejected ∧
      (b.Replaced req q.order (b.replaceOrder req ts) ↔ 0 ≤ req.newQty ∧
        (req.traderId = q.order.traderId ∨
          req.newQty ≤ b.tradableQty (replacement req q.order.side ts))) := by
  obtain ⟨hbook, htrades, hrpt⟩ := h.replaceOrder_eq hq hid ts
  have hcancel := h.cancelOrder {} req.orderId ts
  have hladder := hcancel.ladder
  have h' := hcancel.repInv
  -- the submission, on the book that the cancel leaves
  obtain ⟨o, ho⟩ : ∃ o, o = replacement req q.order.side ts := ⟨_, rfl⟩
  rw [← ho] at hbook htrades hrpt ⊢
  generalize (b.cancelOrder req.orderId ts).book = b' at hbook htrades hrpt hladder h'
  obtain ⟨hoid, hside, hprice, hqty, htype, htif, howner⟩ : o.id = req.orderId ∧
      o.side = q.order.side ∧ o.price = req.newPrice ∧ o.quantity = req.newQty ∧
      o.type = .limit ∧ o.tif = .day ∧ o.traderId = req.traderId := by
    rw [ho]
    exact ⟨rfl, rfl, rfl, rfl, rfl, rfl, rfl⟩
  have hnot : ¬ b'.ladder.Has o.id := by
    rw [hladder, hoid]
    exact Ladder.not_has_cancel _ _
  have hrests : b'.ladder.Rests o ↔ b.tradableQty o < req.newQty := by
    rw [h'.inv.rests_iff htype htif, hladder, ← hid, h.inv.liquidity_cancel hq hside, hqty,
      tradableQty_eq]
  have hunder := h'.under_addOrder hnot ts
  rw [← hbook, hoid] at hunder
  have haccounted := h'.accounted_iff hnot htype htif ts
  rw [← hbook, ← htrades, hoid, hqty] at haccounted
  refine ⟨hrpt ▸ h'.status_of_day hnot htif ts, ?_⟩
  constructor
  · intro hr
    refine ⟨haccounted.mp hr.accounted, or_iff_not_imp_right.mpr fun hlt => ?_⟩
    have hkept := hr.kept
    rw [hunder, if_pos (hrests.mpr (not_le.mp hlt))] at hkept
    exact howner.symm.trans (hkept _ List.mem_cons_self).2.2.2
  · rintro ⟨hnonneg, htrader⟩
    constructor
    case accounted => exact haccounted.mpr hnonneg
    case prices =>
      intro t ht _
      rw [htrades] at ht
      rw [← hside, ← hprice]
      exact (not_beyondLimit_iff htype _).mp (h'.mem_trades hnot ht).2
    case one =>
      rw [hunder]
      split_ifs <;> simp
    case kept =>
      intro r hr
      rw [hunder] at hr
      split_ifs at hr with hrest
      · obtain rfl := List.mem_singleton.mp hr
        exact ⟨hprice, hprice, hside,
          howner.trans (htrader.resolve_right (not_le.mpr (hrests.mp hrest)))⟩
      · cases hr
    case others =>
      intro s
      rw [hbook, htrades, ← hoid, h'.others_addOrder hnot, hladder, hoid,
        Ladder.others_cancel List.mem_cons_self]

/-- **When a replacement is atomic**: nothing rests under the id, or the new quantity is not
negative, and the request is the owner's or leaves nothing to rest. -/
theorem replaceOrder_atomic_iff (h : b.Reachable) (req : ReplaceRequest) (ts : Timestamp) :
    b.Atomic req ts ↔ ∀ q ∈ b.ladder.under req.orderId, 0 ≤ req.newQty ∧
      (req.traderId = q.order.traderId ∨
        req.newQty ≤ b.tradableQty (replacement req q.order.side ts)) := by
  have h := h.repInv
  by_cases hid : b.ladder.Has req.orderId
  · obtain ⟨q, hq, hid⟩ := hid
    obtain ⟨hstatus, hiff⟩ := h.replaced_iff hq hid ts
    have hmem := Ladder.mem_under.mpr ⟨hq, hid⟩
    have hunique : ∀ r ∈ b.ladder.under req.orderId, r = q := by
      intro r hr
      obtain ⟨hr, hrid⟩ := Ladder.mem_under.mp hr
      exact h.inv.eq_of_id hr hq (hrid.trans hid.symm)
    constructor
    · rintro (⟨hrejected, -⟩ | ⟨r, hr, hreplaced⟩)
      · exact absurd hrejected hstatus
      · intro r' hr'
        rw [hunique r hr] at hreplaced
        rw [hunique r' hr']
        exact hiff.mp hreplaced
    · intro hcond
      exact Or.inr ⟨q, hmem, hiff.mpr (hcond q hmem)⟩
  · refine iff_of_true (Or.inl ?_) fun q hq => ?_
    · rw [h.replaceOrder_of_not_has hid]
      exact ⟨rfl, rfl⟩
    · rw [Ladder.under_eq_nil.mpr hid] at hq
      cases hq

theorem replaceOrder_atomic_owner :
    ((create {}).run [.add { id := 1, traderId := 1, price := 100, quantity := 10 } 0]).Atomic
      { orderId := 1, traderId := 1, newPrice := 101, newQty := 5 } 1 :=
  (replaceOrder_atomic_iff ⟨{}, _, rfl⟩ _ 1).mpr (by decide)

/-- Asked to replace an order by one for -5, the book drops it and reports a new one that does not
exist; asked by trader 2, it hands the order of trader 1 over to trader 2. -/
theorem replaced_negative_and_foreign :
    let b := (create {}).run [.add { id := 1, traderId := 1, price := 100, quantity := 10 } 0]
    ¬ b.Atomic { orderId := 1, traderId := 1, newPrice := 100, newQty := -5 } 1 ∧
      ¬ b.Atomic { orderId := 1, traderId := 2, newPrice := 101, newQty := 10 } 1 := by
  constructor
  · rintro (⟨hrejected, -⟩ | ⟨q, -, hr⟩)
    · exact absurd hrejected (by decide)
    · exact absurd hr.accounted (by decide)
  · rintro (⟨hrejected, -⟩ | ⟨q, hq, hr⟩)
    · exact absurd hrejected (by decide)
    · have howner := fun r hr' => (hr.kept r hr').2.2.2
      clear hr
      revert q
      decide

end L3OrderBook

end HftSdk
