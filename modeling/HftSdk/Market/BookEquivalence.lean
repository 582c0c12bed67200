import HftSdk.Market.OrderBook
import HftSdk.Orderbook.Levels
import HftSdk.Orderbook.MachineBook
import HftSdk.Lib.MapRelation
import HftSdk.Lib.Run

/-!
# The two books

The lightweight book, driven by `matchIncoming` and, for what is left of a limit order, `addOrder`,
does what the L3 book does on orders that may rest and on market orders: the levels, queues and
indexes stay the same up to what only the L3 book records. The lightweight book knows no
time-in-force, so that a fill-or-kill market order is treated alike only when it can be filled, and
the scan of the L3 book, a sum of 64-bit integers, finds that out.
-/

namespace HftSdk

open SortedMap
open List (Forall₂)

/-! ## Related books -/

/-- The list nodes of one order in the two books: nothing of it is hidden. -/
structure SameOrder (n : ListNode L3Order) (n' : ListNode BookOrder) : Prop where
  addr : n'.addr = n.addr
  id : n'.val.id = n.val.id
  qty : n'.val.qty = n.val.visibleQty
  hidden : n.val.hiddenQty = 0

abbrev SameQueue : OrderQueue → OrderBook.Queue → Prop := Forall₂ SameOrder

abbrev SameLevels : List (Int × OrderQueue) → List (Int × OrderBook.Queue) → Prop :=
  Related id SameQueue

/-- **The two books hold the same orders** in the same places. -/
structure SameBook (b : L3OrderBook) (ob : OrderBook) : Prop where
  bids : SameLevels b.bids.entries ob.bids_.entries
  asks : SameLevels b.asks.entries ob.asks_.entries
  index : ob.order_index_ = b.orderIndex
  nextAddr : ob.nextAddr = b.nextAddr

theorem SameOrder.openQty {n : ListNode L3Order} {n' : ListNode BookOrder} (h : SameOrder n n') :
    n.val.openQty = n'.val.qty := by
  rw [L3Order.openQty, h.hidden, h.qty, Int.add_zero]

/-- The order as the lightweight book takes it. -/
def Order.bookOrder (o : Order) (ts : Timestamp) : BookOrder where
  id := o.id
  trader := o.traderId
  qty := o.quantity
  price := o.price
  side := o.side
  type := o.type
  tsNs := ts

/-- What both books record of a trade. -/
def Trade.key (t : Trade) : OrderId × OrderId × Int × Int × Side :=
  (t.restingId, t.incomingId, t.price, t.qty, t.aggressorSide)

/-! ## Matching -/

/-- Two loops that come to the same. -/
structure SameSweep {ρ ρ' : Type} (R : ρ → ρ' → Prop) (r : Matched ρ) (r' : OrderBook.Swept ρ') :
    Prop where
  left : R r.left r'.left
  index : r'.index = r.core.orderIndex
  remaining : r'.remaining = r.remaining
  trades : r'.trades.map Trade.key = r.trades.map Trade.key

theorem stopsAt_bookOrder (o : Order) (ts : Timestamp) (p : Int) :
    OrderBook.stopsAt (o.bookOrder ts) p = beyondLimit o p := by
  unfold OrderBook.stopsAt beyondLimit Order.bookOrder
  cases o.side <;> exact Bool.and_comm _ _

theorem L3Order.fill_displayed {o : L3Order} {m : Int} (hh : o.hiddenQty = 0)
    (hm : m ≤ o.visibleQty) :
    (o.fill m).visibleQty = o.visibleQty - m ∧ (o.fill m).hiddenQty = 0 := by
  unfold fill replenish reduce
  rw [if_pos hm, if_neg (by simp [hh])]
  exact ⟨rfl, hh⟩

theorem SameOrder.fill {n : ListNode L3Order} {n' : ListNode BookOrder} (h : SameOrder n n')
    {m : Int} (hm : m ≤ n.val.openQty) :
    SameOrder ⟨n.addr, n.val.fill m⟩ ⟨n'.addr, { n'.val with qty := n'.val.qty - m }⟩ := by
  obtain ⟨hv, hh⟩ := L3Order.fill_displayed h.hidden (m := m) (by rw [h.openQty] at hm; rwa [← h.qty])
  refine ⟨h.addr, ?_, ?_, hh⟩
  · rw [L3Order.fill_id]
    exact h.id
  · rw [hv]
    exact congrArg (· - m) h.qty

theorem matchQueue_same (incoming : Order) (symbol : Symbol) (ts : Timestamp) (p : Int)
    {queue : OrderQueue} {queue' : OrderBook.Queue} (h : SameQueue queue queue') (c : BookCore)
    (demand : Int) :
    SameSweep SameQueue (matchQueue incoming ts p queue c demand)
      (OrderBook.matchQueue symbol (incoming.bookOrder ts) ts p queue' c.orderIndex demand) := by
  induction h generalizing c demand with
  | nil => exact ⟨.nil, rfl, rfl, rfl⟩
  | @cons n n' queue queue' hn hqueue ih =>
    unfold matchQueue OrderBook.matchQueue
    by_cases hd : 0 < demand
    · rw [if_pos hd, if_pos hd, hn.openQty]
      have hm : min demand n'.val.qty ≤ n.val.openQty := by
        rw [hn.openQty]
        exact min_le_right _ _
      have hn' := hn.fill hm
      have hopen := hn'.openQty
      have hid : (n.val.fill (min demand n'.val.qty)).id = n'.val.id := hn'.id.symm
      have hkey : (c.tradeWith incoming p n.val (min demand n'.val.qty) ts).key =
          (OrderBook.tradeWith symbol (incoming.bookOrder ts) p n'.val (min demand n'.val.qty)
            ts).key := by
        unfold BookCore.tradeWith OrderBook.tradeWith Trade.key
        rw [hn.id]
        rfl
      dsimp only at hopen ⊢
      rw [hopen]
      by_cases hfull : n'.val.qty - min demand n'.val.qty = 0
      · rw [if_pos hfull, if_pos hfull]
        have hidx : ((c.recordTrade p (min demand n'.val.qty)).dropFilled
            (n.val.fill (min demand n'.val.qty))).orderIndex = c.orderIndex.erase n'.val.id := by
          rw [BookCore.dropFilled_orderIndex, hid]
          rfl
        obtain ⟨hl, hi, hr, ht⟩ := ih _ (demand - min demand n'.val.qty)
        rw [hidx] at hl hi hr ht
        refine ⟨hl, hi, hr, ?_⟩
        rw [List.map_cons, List.map_cons, ht, hkey]
      · -- a front that is not used up has met the demand
        have hmet : demand - min demand n'.val.qty ≤ 0 := by omega
        rw [if_neg hfull, if_neg hfull, matchQueue_of_nonpos _ _ _ _ _ hmet]
        exact ⟨.cons hn' hqueue, rfl, rfl, by rw [List.map_cons, List.map_cons, hkey]⟩
    · rw [if_neg hd, if_neg hd]
      exact ⟨.cons hn hqueue, rfl, rfl, rfl⟩

theorem matchLevels_same (incoming : Order) (symbol : Symbol) (ts : Timestamp)
    {levels : List (Int × OrderQueue)} {levels' : List (Int × OrderBook.Queue)}
    (h : SameLevels levels levels') (c : BookCore) (demand : Int) :
    SameSweep SameLevels (matchLevels incoming ts levels c demand)
      (OrderBook.matchLevels symbol (incoming.bookOrder ts) ts levels' c.orderIndex demand) := by
  unfold SameLevels Related at h
  induction h generalizing c demand with
  | nil => exact ⟨.nil, rfl, rfl, rfl⟩
  | @cons e e' levels levels' he hlevels ih =>
    obtain ⟨p, queue⟩ := e
    obtain ⟨p', queue'⟩ := e'
    obtain ⟨rfl, hqueue⟩ : p' = p ∧ SameQueue queue queue' := he
    unfold matchLevels OrderBook.matchLevels
    rw [stopsAt_bookOrder]
    have hsame : SameLevels ((p', queue) :: levels) ((p', queue') :: levels') :=
      .cons ⟨rfl, hqueue⟩ hlevels
    split_ifs with hd hb
    · exact ⟨hsame, rfl, rfl, rfl⟩
    · obtain ⟨hl, hi, hr, ht⟩ := matchQueue_same incoming symbol ts p' hqueue c demand
      have hmet : (matchQueue incoming ts p' queue c demand).left ≠ [] →
          ¬ 0 < (matchQueue incoming ts p' queue c demand).remaining := mt matchQueue_exhausted
      revert hl hi hr ht hmet
      generalize matchQueue incoming ts p' queue c demand = q,
        OrderBook.matchQueue symbol (incoming.bookOrder ts) ts p' queue' c.orderIndex demand = q'
      intro hl hi hr ht hmet
      dsimp only
      by_cases hempty : q.left = []
      · have hempty' : q'.left = [] := by
          rw [hempty] at hl
          exact List.forall₂_nil_left_iff.mp hl
        obtain ⟨ihl, ihi, ihr, iht⟩ := ih q.core q.remaining
        rw [hempty, hempty', hi, hr]
        refine ⟨ihl, ihi, ihr, ?_⟩
        change (q'.trades ++ _).map _ = (q.trades ++ _).map _
        rw [List.map_append, List.map_append, ht, iht]
      · have hempty' : q'.left ≠ [] := by
          intro h'
          rw [h'] at hl
          exact hempty (List.forall₂_nil_right_iff.mp hl)
        rw [if_neg (by simpa using hempty), if_neg (by simpa using hempty'),
          matchLevels_of_nonpos _ _ _ _ (not_lt.mp (hmet hempty))]
        refine ⟨.cons ⟨rfl, hl⟩ hlevels, hi, hr, ?_⟩
        rw [List.append_nil]
        exact ht
    · exact ⟨hsame, rfl, rfl, rfl⟩

/-! ## The operations -/

namespace SameBook

variable {b : L3OrderBook} {ob : OrderBook}

theorem sameQueue_numberQueue {queue : OrderQueue} {queue' : OrderBook.Queue}
    (h : SameQueue queue queue') : SameQueue (numberQueue queue) queue' := by
  unfold SameQueue numberQueue at *
  rw [List.forall₂_iff_get] at h ⊢
  refine ⟨List.length_mapIdx.trans h.1, ?_⟩
  intro i hi hi'
  obtain ⟨haddr, hid, hqty, hhid⟩ := h.2 i (by simpa using hi) hi'
  simp only [List.get_eq_getElem, List.getElem_mapIdx] at *
  exact ⟨haddr, hid, hqty, hhid⟩

theorem matchAgainst {lt : Int → Int → Prop} {m : SortedMap lt OrderQueue}
    {m' : SortedMap lt OrderBook.Queue} (h : SameLevels m.entries m'.entries) (o : Order)
    (symbol : Symbol) (c : BookCore) (ts : Timestamp) :
    SameSweep (fun l l' => SameLevels l.entries l'.entries) (HftSdk.matchAgainst m o c o.quantity ts)
      (OrderBook.matchSide symbol m' c.orderIndex (o.bookOrder ts) ts) := by
  obtain ⟨hl, hi, hr, ht⟩ := matchLevels_same o symbol ts h c o.quantity
  exact ⟨hl, hi, hr, ht⟩

theorem matchIncoming (h : SameBook b ob) {o : Order} (ts : Timestamp)
    (hfill : ¬ (o.tif = .fok ∧ fokAvailable o (b.levels o.side.opp).entries 0 < o.quantity)) :
    let r := b.matchIncoming o ts
    let r' := ob.matchIncoming (o.bookOrder ts) ts
    r'.1.1.map Trade.key = r.1.trades.map Trade.key ∧ r'.1.2 = r.1.remainingQty ∧
      SameBook r.2 r'.2 := by
  have haddr : ∀ {lt : Int → Int → Prop} (m : SortedMap lt OrderQueue),
      (HftSdk.matchAgainst m o b.toBookCore o.quantity ts).core.nextAddr = b.nextAddr := by
    intro lt m
    change (matchLevels o ts m.entries b.toBookCore o.quantity).core.nextAddr = _
    rw [(matchLevels_isSweep o ts m.entries b.toBookCore o.quantity).state,
      BookCore.settle_nextAddr]
  rw [L3OrderBook.matchIncoming_eq, if_neg hfill]
  unfold OrderBook.matchIncoming
  rw [show (o.bookOrder ts).side = o.side from rfl]
  cases o.side with
  | buy =>
    have hs := matchAgainst h.asks o ob.symbol_ b.toBookCore ts
    rw [← h.index] at hs
    exact ⟨hs.trades, hs.remaining, h.bids, hs.left, hs.index, h.nextAddr.trans (haddr _).symm⟩
  | sell =>
    have hs := matchAgainst h.bids o ob.symbol_ b.toBookCore ts
    rw [← h.index] at hs
    exact ⟨hs.trades, hs.remaining, hs.left, h.asks, hs.index, h.nextAddr.trans (haddr _).symm⟩

theorem addOrder (h : SameBook b ob) (o : Order) (remaining : Int) (ts : Timestamp) :
    SameBook (b.addRestingOrder o remaining ts)
      (ob.addOrder { o.bookOrder ts with qty := remaining }) := by
  have hpush : ∀ {s : Side} {m : SortedMap s.better OrderQueue}
      {m' : SortedMap s.better OrderBook.Queue}, SameLevels m.entries m'.entries →
      SameLevels
        (m.push o.price fun pos => ⟨b.nextAddr,
          { (Ladder.newQuote o remaining ts b.nextAddr).order with
            queuePos := .ofNat pos }⟩).entries
        (m'.push o.price fun _ => ⟨ob.nextAddr, { o.bookOrder ts with qty := remaining }⟩).entries :=
    fun hm => Related.push (fun _ _ => Iff.rfl) hm o.price fun _ => ⟨h.nextAddr, rfl, rfl, rfl⟩
  have hindex : ∀ {s}, o.side = s → ob.order_index_.insert o.id ⟨s, o.price, ob.nextAddr⟩ =
      (b.toBookCore.recordRest o).orderIndex := by
    rintro _ rfl
    rw [h.index, h.nextAddr]
    rfl
  have hnext : ob.nextAddr + 1 = b.nextAddr + 1 := by rw [h.nextAddr]
  rw [L3OrderBook.addRestingOrder_eq]
  unfold OrderBook.addOrder
  rw [show ({ o.bookOrder ts with qty := remaining } : BookOrder).side = o.side from rfl]
  cases hs : o.side with
  | buy =>
    exact ⟨hpush h.bids, h.asks, hindex hs, hnext⟩
  | sell =>
    exact ⟨h.bids, hpush h.asks, hindex hs, hnext⟩

theorem eraseNode {s : Side} {m : PriceLevels s} {m' : SortedMap s.better OrderBook.Queue}
    (h : SameLevels m.entries m'.entries) (p : Int) (it : Nat) :
    SameLevels (HftSdk.eraseNode m p it).entries (OrderBook.eraseFrom m' p it).entries := by
  have hl := Related.lookup Function.injective_id h p
  rw [id_eq] at hl
  rw [eraseNode_eq]
  unfold OrderBook.eraseFrom
  revert hl
  generalize m.lookup p = queue, m'.lookup p = queue'
  intro hl
  cases hl with
  | none => exact h
  | @some queue queue' hqueue =>
    have hunlink := forall₂_unlink (fun n n' (hn : SameOrder n n') => hn.addr) hqueue it
    have hempty : (ListNode.unlink it queue').isEmpty = (ListNode.unlink it queue).isEmpty := by
      rw [Bool.eq_iff_iff, List.isEmpty_iff_length_eq_zero, List.isEmpty_iff_length_eq_zero,
        hunlink.length_eq]
    dsimp only
    rw [hempty]
    split_ifs
    · exact Related.erase Function.injective_id h p
    · exact Related.assign Function.injective_id h p (sameQueue_numberQueue hunlink)

theorem cancelOrder (h : SameBook b ob) (id : OrderId) (ts : Timestamp) :
    ((b.cancelOrder id ts).rpt.status = .canceled ↔ (ob.cancelOrder id).1 = true) ∧
      SameBook (b.cancelOrder id ts).book (ob.cancelOrder id).2 := by
  unfold L3OrderBook.cancelOrder OrderBook.cancelOrder
  rw [h.index]
  cases b.orderIndex.lookup id with
  | none => exact ⟨by simp, h⟩
  | some loc =>
    refine ⟨by simp, ?_⟩
    obtain ⟨side, p, it⟩ := loc
    cases side with
    | buy => exact ⟨eraseNode h.bids p it, h.asks, rfl, h.nextAddr⟩
    | sell => exact ⟨h.bids, eraseNode h.asks p it, rfl, h.nextAddr⟩

end SameBook

/-! ## Submitting -/

/-- How a caller submits an order to the lightweight book: what a limit order does not trade is
added. -/
def OrderBook.submit (ob : OrderBook) (incoming : BookOrder) (ts : Timestamp) :
    (List Trade × Int) × OrderBook :=
  let r := ob.matchIncoming incoming ts
  if incoming.type = .limit ∧ 0 < r.1.2 then (r.1, r.2.addOrder { incoming with qty := r.1.2 })
  else r

/-- An order that may rest when it is a limit order. -/
def Order.Plain (o : Order) : Prop :=
  o.type = .limit ∧ (o.tif = .day ∨ o.tif = .gtc) ∨ o.type = .market

instance (o : Order) : Decidable o.Plain :=
  inferInstanceAs (Decidable (_ ∨ _))

theorem handleRemainder_leavesQty (b : L3OrderBook) {o : Order} (hplain : o.Plain)
    (rpt : ExecutionReport) (res : MatchResult) (ts : Timestamp) :
    (b.handleRemainder (L3OrderBook.matchedReport rpt o res) o res ts).1.leavesQty =
      res.remainingQty := by
  have hm := (L3OrderBook.matchedReport_eq rpt o res).2.1
  unfold L3OrderBook.handleRemainder
  by_cases hrem : 0 < res.remainingQty ∧ o.type = .limit
  · rw [if_pos hrem]
    rcases hplain with ⟨-, hday | hgtc⟩ | hmarket
    · rw [hday]
      exact hm
    · rw [hgtc]
      exact hm
    · rw [hmarket] at hrem
      exact absurd hrem.2 (by decide)
  · rw [if_neg hrem]
    exact hm

/-- **Submitting** a plain order that is not killed comes to the same in both books. -/
theorem SameBook.submit {b : L3OrderBook} {ob : OrderBook} (h : SameBook b ob) {o : Order}
    (hplain : o.Plain) (hid : o.id ∉ b.orderIndex) (ts : Timestamp)
    (hfill : ¬ (o.tif = .fok ∧ fokAvailable o (b.levels o.side.opp).entries 0 < o.quantity)) :
    let r := b.addOrder o ts
    let r' := ob.submit (o.bookOrder ts) ts
    r'.1.1.map Trade.key = r.trades.map Trade.key ∧ r'.1.2 = r.rpt.leavesQty ∧
      SameBook r.book r'.2 := by
  obtain ⟨hrpt, hbook, htrades⟩ := L3OrderBook.addOrder_of_not_mem hid ts
  obtain ⟨ht, hr, hs⟩ := h.matchIncoming ts hfill
  dsimp only
  rw [hrpt, hbook, htrades, handleRemainder_leavesQty _ hplain, L3OrderBook.handleRemainder_book]
  unfold OrderBook.submit
  rw [show (o.bookOrder ts).type = o.type from rfl]
  dsimp only
  by_cases hrest : o.type = .limit ∧ 0 < (ob.matchIncoming (o.bookOrder ts) ts).1.2
  · have htif : o.tif = .day ∨ o.tif = .gtc := by
      rcases hplain with hp | hp
      · exact hp.2
      · rw [hrest.1] at hp
        exact absurd hp (by decide)
    rw [if_pos hrest, if_pos ⟨hr ▸ hrest.2, hrest.1, htif⟩]
    refine ⟨ht, hr, ?_⟩
    rw [hr]
    exact hs.addOrder o _ ts
  · rw [if_neg hrest, if_neg fun hrest' => hrest ⟨hrest'.2.1, hr ▸ hrest'.1⟩]
    exact ⟨ht, hr, hs⟩

/-! ## What the books show -/

/-- Price and quantity of a level. -/
def BookLevel.quote (l : BookLevel) : Int × Int := (l.price, l.qty)

/-- The two books show the same prices and quantities. -/
structure SameViews (b : L3OrderBook) (ob : OrderBook) : Prop where
  bids : ∀ n, (ob.bids n).map BookLevel.quote = (b.bidDepth n).map BookLevel.quote
  asks : ∀ n, (ob.asks n).map BookLevel.quote = (b.askDepth n).map BookLevel.quote
  bestBid : ob.bestBid.map BookLevel.quote = b.bestBid.map BookLevel.quote
  bestAsk : ob.bestAsk.map BookLevel.quote = b.bestAsk.map BookLevel.quote

theorem SameLevels.quotes {levels : List (Int × OrderQueue)}
    {levels' : List (Int × OrderBook.Queue)} (h : SameLevels levels levels') :
    levels'.map (fun e => (OrderBook.bookLevel e).quote) =
      levels.map fun e => (bookLevel e).quote := by
  have hsum : ∀ {queue : OrderQueue} {queue' : OrderBook.Queue}, SameQueue queue queue' →
      (queue'.map fun n => n.val.qty) = queue.map fun n => n.val.visibleQty := by
    intro queue queue' hqueue
    induction hqueue with
    | nil => rfl
    | cons hn _ ih => rw [List.map_cons, List.map_cons, hn.qty, ih]
  unfold SameLevels Related at h
  induction h with
  | nil => rfl
  | @cons e e' _ _ he _ ih =>
    rw [List.map_cons, List.map_cons, ih]
    congr 1
    unfold BookLevel.quote OrderBook.bookLevel bookLevel
    rw [he.1, hsum he.2]
    rfl

theorem SameBook.sameViews {b : L3OrderBook} {ob : OrderBook} (h : SameBook b ob) :
    SameViews b ob := by
  have hbids := SameLevels.quotes h.bids
  have hasks := SameLevels.quotes h.asks
  refine ⟨?_, ?_, ?_, ?_⟩
  · intro n
    unfold OrderBook.bids L3OrderBook.bidDepth
    rw [List.map_map, List.map_map, List.map_take, List.map_take]
    exact congrArg (List.take n) hbids
  · intro n
    unfold OrderBook.asks L3OrderBook.askDepth
    rw [List.map_map, List.map_map, List.map_take, List.map_take]
    exact congrArg (List.take n) hasks
  · unfold OrderBook.bestBid L3OrderBook.bestBid
    rw [Option.map_map, Option.map_map, ← List.head?_map, ← List.head?_map]
    exact congrArg List.head? hbids
  · unfold OrderBook.bestAsk L3OrderBook.bestAsk
    rw [Option.map_map, Option.map_map, ← List.head?_map, ← List.head?_map]
    exact congrArg List.head? hasks

/-! ## Runs -/

/-- The two books side by side. -/
structure BookPair where
  full : L3OrderBook
  light : OrderBook

inductive PairOp
  | submit (order : Order) (ts : Timestamp)
  | cancel (id : OrderId) (ts : Timestamp)

namespace BookPair

def create (symbol : Symbol) : BookPair := ⟨.create symbol, { symbol_ := symbol }⟩

def step (s : BookPair) : PairOp → BookPair
  | .submit order ts =>
    ⟨(MachineBook.submit s.full order ts).book, (s.light.submit (order.bookOrder ts) ts).2⟩
  | .cancel id ts => ⟨(s.full.cancelOrder id ts).book, (s.light.cancelOrder id).2⟩

/-- A limit order that may rest or a market order, for a positive quantity and under an id that does
not rest; or a cancel. Quantities are `int64_t`s. -/
def Proper (s : BookPair) : PairOp → Prop
  | .submit order _ =>
    order.Plain ∧ 0 < order.quantity ∧ Machine.Fits order.quantity ∧ order.id ∉ s.full.orderIndex
  | .cancel _ _ => True

instance (s : BookPair) : ∀ op, Decidable (s.Proper op)
  | .submit _ _ => inferInstanceAs (Decidable (_ ∧ _ ∧ _ ∧ _))
  | .cancel _ _ => isTrue trivial

/-- A fill-or-kill order can be filled, and the scan does not wrap around. -/
def Fillable (s : BookPair) : PairOp → Prop
  | .submit order _ =>
    (order.tif = .fok → order.quantity ≤ s.full.tradableQty order) ∧
      MachineBook.ScanFits s.full order
  | .cancel _ _ => True

instance (s : BookPair) : ∀ op, Decidable (s.Fillable op)
  | .submit _ _ => inferInstanceAs (Decidable (_ ∧ _))
  | .cancel _ _ => isTrue trivial

/-- The calls give the same trades and remainder, or cancel in both or in neither. -/
def SameOutcome (s : BookPair) : PairOp → Prop
  | .submit order ts =>
    let r := MachineBook.submit s.full order ts
    let r' := s.light.submit (order.bookOrder ts) ts
    r'.1.1.map Trade.key = r.trades.map Trade.key ∧ r'.1.2 = r.rpt.leavesQty
  | .cancel id ts =>
    (s.full.cancelOrder id ts).rpt.status = .canceled ↔ (s.light.cancelOrder id).1 = true

/-- The call comes to the same in both books, and they show the same after it. -/
def Agree (s : BookPair) (op : PairOp) : Prop :=
  s.SameOutcome op ∧ SameViews (s.step op).full (s.step op).light

theorem agree_step {s : BookPair} (h : SameBook s.full s.light ∧ s.full.RepInv) {op : PairOp}
    (hop : s.Proper op ∧ s.Fillable op) :
    (SameBook (s.step op).full (s.step op).light ∧ (s.step op).full.RepInv) ∧ s.Agree op := by
  cases op with
  | submit o ts =>
    obtain ⟨⟨hplain, -, hq, hid⟩, hfill, hfits⟩ := hop
    obtain ⟨ht, hr, hs⟩ := h.1.submit hplain hid ts fun hkill =>
      absurd ((h.2.fok_iff o).mp hkill.2)
        (not_lt.mpr (s.full.tradableQty_eq o ▸ hfill hkill.1))
    have hexact := MachineBook.submit_of_fits h.2 hq hfits ts
    unfold Agree SameOutcome BookPair.step
    dsimp only
    rw [hexact]
    exact ⟨⟨hs, (h.2.step (.add o ts)).2⟩, ⟨ht, hr⟩, hs.sameViews⟩
  | cancel id ts =>
    obtain ⟨hc, hs⟩ := h.1.cancelOrder id ts
    exact ⟨⟨hs, (h.2.step (.cancel id ts)).2⟩, hc, hs.sameViews⟩

/-- **The two books agree** along every run of proper calls, a fill-or-kill order being one that can
be filled and whose scan does not wrap around. -/
theorem run_agree (symbol : Symbol) (ops : List PairOp)
    (h : Run.Along step (fun s op => s.Proper op ∧ s.Fillable op) (create symbol) ops) :
    Run.Along step Agree (create symbol) ops :=
  h.imp (fun _ _ hs hop => agree_step hs hop)
    ⟨⟨.nil, .nil, rfl, rfl⟩, L3OrderBook.repInv_create symbol⟩

/-- Two asks, a limit order that takes one of them and a part of the other and rests nothing, a
cancel that meets no order, a fill-or-kill market order that can be filled, and a bid. -/
theorem run_agree_mixed :
    let ask : Order := { id := 1, side := .sell, price := 10, quantity := 5 }
    let ask' : Order := { id := 2, side := .sell, price := 11, quantity := 5, tif := .gtc }
    let lim : Order := { id := 3, price := 11, quantity := 7 }
    let mkt : Order := { id := 4, type := .market, tif := .fok, quantity := 2 }
    let ops : List PairOp :=
      [.submit ask 0, .submit ask' 0, .submit lim 0, .cancel 1 0, .submit mkt 0, .submit lim 0]
    Run.Along step Agree (create {}) ops :=
  run_agree {} _ (by decide)

/-- **A fill-or-kill market order that cannot be filled** is killed by the L3 book and traded by the
lightweight one. -/
theorem killed_disagrees :
    let ask : Order := { id := 1, side := .sell, price := 10, quantity := 5 }
    let mkt : Order := { id := 2, type := .market, tif := .fok, quantity := 8 }
    let ops : List PairOp := [.submit ask 0, .submit mkt 0]
    Run.Along step Proper (create {}) ops ∧ ¬ Run.Along step Agree (create {}) ops := by
  refine ⟨by decide, ?_⟩
  rintro ⟨-, ⟨⟨-, hrem⟩, -⟩, -⟩
  exact absurd hrem (by decide)

end BookPair

end HftSdk
