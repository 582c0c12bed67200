import HftSdk.Orderbook.Levels
import HftSdk.Orderbook.Feeds

/-!
# Top of book and depth

The best levels, the depth and the top of book are read off the levels, and so off the ladder
(`RepInv.topOfBook_eq`). `add_order` publishes the top of book when it traded or its status is New,
and a cancel always: `RepInv.shown_step` says that the last one published is the current one after
every call.
-/

namespace HftSdk

open Sweep SortedMap

/-- A top of book without the time it was taken. -/
def TopOfBook.untimed (tob : TopOfBook) : TopOfBook := { tob with timestamp := 0 }

/-- The top of book of a top-of-book callback. -/
def BookEvent.tob? : BookEvent → Option TopOfBook
  | .trade _ => none
  | .topOfBook tob => some tob

/-- The tops of book that a call published. -/
def BookResult.tobs (r : BookResult) : List TopOfBook := r.events.filterMap BookEvent.tob?

namespace L3OrderBook

variable {b b' : L3OrderBook}

/-! ## What the queries read -/

/-- The levels of a side as the queries show them. -/
def shownLevels (b : L3OrderBook) (s : Side) : List BookLevel := (b.levels s).entries.map bookLevel

theorem bestBid_eq (b : L3OrderBook) : b.bestBid = (b.shownLevels .buy).head? :=
  List.head?_map.symm

theorem bestAsk_eq (b : L3OrderBook) : b.bestAsk = (b.shownLevels .sell).head? :=
  List.head?_map.symm

theorem bidDepth_eq (b : L3OrderBook) (n : Nat) : b.bidDepth n = (b.shownLevels .buy).take n :=
  List.map_take

theorem askDepth_eq (b : L3OrderBook) (n : Nat) : b.askDepth n = (b.shownLevels .sell).take n :=
  List.map_take

theorem shownLevels_unposed (b : L3OrderBook) (s : Side) :
    b.shownLevels s = (unposedLevels (b.levels s).entries).map bookLevel := by
  rw [shownLevels, unposedLevels, List.map_map]
  refine List.map_congr_left fun e _ => ?_
  simp [bookLevel, L3Order.unposed, Function.comp_def]

theorem RepInv.shownLevels_eq (h : b.RepInv) (h' : b'.RepInv) {s : Side}
    (hside : b'.ladder.side s = b.ladder.side s) : b'.shownLevels s = b.shownLevels s := by
  rw [shownLevels_unposed, shownLevels_unposed,
    unposedLevels_eq (h'.nonempty s) (h.nonempty s) hside]

theorem RepInv.topOfBook_eq (h : b.RepInv) (h' : b'.RepInv) (hsymbol : b'.symbol = b.symbol)
    (hside : ∀ s, b'.ladder.side s = b.ladder.side s) (ts : Timestamp) :
    b'.topOfBook ts = b.topOfBook ts := by
  unfold topOfBook
  rw [bestBid_eq, bestAsk_eq, h.shownLevels_eq h' (hside _), h.shownLevels_eq h' (hside _),
    ← bestBid_eq, ← bestAsk_eq, hsymbol]

@[simp] theorem topOfBook_untimed (b : L3OrderBook) (ts : Timestamp) :
    (b.topOfBook ts).untimed = b.topOfBook 0 := by
  unfold topOfBook
  cases b.bestBid <;> cases b.bestAsk <;> rfl

@[simp] theorem topOfBook_symbol (b : L3OrderBook) (ts : Timestamp) :
    (b.topOfBook ts).symbol = b.symbol := by
  unfold topOfBook
  cases b.bestBid <;> cases b.bestAsk <;> rfl

theorem topOfBook_best (b : L3OrderBook) (ts : Timestamp) :
    (b.topOfBook ts).bestBid = b.bestBid.getD {} ∧ (b.topOfBook ts).bestAsk = b.bestAsk.getD {} := by
  unfold topOfBook
  cases b.bestBid <;> cases b.bestAsk <;> exact ⟨rfl, rfl⟩

/-! ## Depth -/

/-- The orders at a price added up. -/
def levelAt (b : L3OrderBook) (s : Side) (price : Int) : BookLevel where
  price := price
  qty := ((b.ordersAtPrice s price).map L3Order.visibleQty).sum
  orderCount := (b.ordersAtPrice s price).length

theorem shownLevels_eq_levelAt (b : L3OrderBook) (s : Side) :
    b.shownLevels s = ((b.levels s).entries.map Prod.fst).map (b.levelAt s) := by
  rw [shownLevels, List.map_map]
  refine List.map_congr_left fun e he => ?_
  simp [bookLevel, levelAt, ordersAtPrice, queueAt_of_mem b he, Function.comp_def]

/-- A side of a snapshot: the first levels, best first, each with the orders at its price added up,
and nothing behind them. -/
structure ShowsDepth (b : L3OrderBook) (s : Side) (shown : Vector BookLevel MAX_DEPTH_LEVELS)
    (count : Nat) : Prop where
  size : count = min DEFAULT_L2_DEPTH (b.levels s).entries.length
  levels : shown.toList.take count =
    (((b.levels s).entries.map Prod.fst).take DEFAULT_L2_DEPTH).map (b.levelAt s)
  ordered : (shown.toList.take count).Pairwise fun l l' => s.better l.price l'.price
  rest : ∀ l ∈ shown.toList.drop count, l = {}

theorem depthArray_toList {levels : List BookLevel} (h : levels.length ≤ MAX_DEPTH_LEVELS) :
    (depthArray levels).toList =
      levels ++ List.replicate (MAX_DEPTH_LEVELS - levels.length) ({} : BookLevel) := by
  apply List.ext_getElem
  · simp
    omega
  · intro i hi _
    rw [List.getElem_append]
    split_ifs with hlt
    · simp [depthArray, hlt]
    · simp [depthArray, Nat.le_of_not_lt hlt]

theorem showsDepth (b : L3OrderBook) (s : Side) :
    b.ShowsDepth s (depthArray ((b.shownLevels s).take DEFAULT_L2_DEPTH))
      ((b.shownLevels s).take DEFAULT_L2_DEPTH).length := by
  have hlen : ((b.shownLevels s).take DEFAULT_L2_DEPTH).length ≤ MAX_DEPTH_LEVELS :=
    (List.length_take_le _ _).trans (by decide)
  have htoList := depthArray_toList hlen
  have htake : (depthArray ((b.shownLevels s).take DEFAULT_L2_DEPTH)).toList.take
      ((b.shownLevels s).take DEFAULT_L2_DEPTH).length = (b.shownLevels s).take DEFAULT_L2_DEPTH := by
    rw [htoList, List.take_left']
    rfl
  refine ⟨?_, ?_, ?_, ?_⟩
  · rw [List.length_take, shownLevels, List.length_map]
  · rw [htake, shownLevels_eq_levelAt, List.map_take]
  · rw [htake]
    apply List.Pairwise.take
    rw [shownLevels, List.pairwise_map]
    exact List.pairwise_map.mp (b.levels s).sorted
  · intro l hl
    rw [htoList, List.drop_left'] at hl
    · exact List.eq_of_mem_replicate hl
    · rfl

theorem snapshot_showsDepth (b : L3OrderBook) (ts : Timestamp) :
    let depth := ({} : L2Aggregator).snapshot b ts
    b.ShowsDepth .buy depth.bids depth.bidLevels ∧ b.ShowsDepth .sell depth.asks depth.askLevels := by
  intro depth
  have hbids := b.showsDepth .buy
  have hasks := b.showsDepth .sell
  rw [← bidDepth_eq] at hbids
  rw [← askDepth_eq] at hasks
  exact ⟨hbids, hasks⟩

theorem depthArray_zero (levels : List BookLevel) :
    (depthArray levels)[0] = levels.head?.getD {} := by
  simp [depthArray, List.head?_eq_getElem?]

theorem snapshot_best (b : L3OrderBook) (ts now : Timestamp) :
    let depth := ({} : L2Aggregator).snapshot b ts
    depth.bids[0] = (b.topOfBook now).bestBid ∧ depth.asks[0] = (b.topOfBook now).bestAsk := by
  intro depth
  rw [(b.topOfBook_best now).1, (b.topOfBook_best now).2, bestBid_eq, bestAsk_eq]
  constructor
  · refine (depthArray_zero _).trans ?_
    rw [bidDepth_eq, List.head?_take, if_neg (by decide)]
  · refine (depthArray_zero _).trans ?_
    rw [askDepth_eq, List.head?_take, if_neg (by decide)]

/-! ## What is published -/

/-- The last top of book that was published, if any, is the book's; if none was, the book is
empty. -/
def Shown (b : L3OrderBook) : Option TopOfBook → Prop
  | some tob => tob.untimed = b.topOfBook 0
  | none => b.nodes = []

theorem nodes_eq_nil (b : L3OrderBook) : b.nodes = [] ↔ ∀ s, b.ladder.side s = [] := by
  have hall : b.nodes = [] ↔ b.ladder.all = [] := by
    rw [← List.map_eq_nil_iff (f := fun n => (n.addr, n.val.unposed)), nodes_eq, List.map_eq_nil_iff]
  rw [hall, Ladder.all, List.append_eq_nil_iff]
  exact ⟨fun h s => by cases s; exacts [h.1, h.2], fun h => ⟨h .buy, h .sell⟩⟩

theorem RepInv.shown_congr (h : b.RepInv) (h' : b'.RepInv) (hsymbol : b'.symbol = b.symbol)
    (hside : ∀ s, b'.ladder.side s = b.ladder.side s) {last : Option TopOfBook}
    (hs : b.Shown last) : b'.Shown last := by
  cases last with
  | some tob => exact Eq.trans hs (h.topOfBook_eq h' hsymbol hside 0).symm
  | none =>
    refine (nodes_eq_nil b').mpr fun s => ?_
    rw [hside, (nodes_eq_nil b).mp hs]

theorem afterMatch_of_fillsOf_nil {L : Ladder} (h : L.Inv) {o : Order} (hf : L.fillsOf o = []) :
    L.afterMatch o = L := by
  have hresidue : residue Quote.openQty Quote.fill (L.demand o) (tradable o (L.side o.side.opp)) =
      tradable o (L.side o.side.opp) := by
    unfold Ladder.fillsOf at hf
    cases ht : tradable o (L.side o.side.opp) with
    | nil => rfl
    | cons q l =>
      rw [ht, fills] at hf
      split_ifs at hf with hd
      exact residue_of_nonpos _ _ (by omega) _
  rw [Ladder.afterMatch, hresidue, h.tradable_append, Ladder.set_self]

theorem tobs_addOrder {o : Order} (hid : o.id ∉ b.orderIndex) (ts : Timestamp) :
    (b.addOrder o ts).tobs =
      if (b.addOrder o ts).trades ≠ [] ∨ (b.addOrder o ts).rpt.status = .new then
        [(b.addOrder o ts).book.topOfBook ts]
      else [] := by
  obtain ⟨-, -, htrades⟩ := addOrder_of_not_mem hid ts
  rw [htrades]
  unfold addOrder
  rw [if_neg hid]
  unfold BookResult.tobs
  dsimp only
  have hnone : ∀ trades : List Trade,
      (trades.map BookEvent.trade).filterMap BookEvent.tob? = [] := fun trades =>
    List.filterMap_eq_nil_iff.mpr fun ev hev => by
      obtain ⟨t, -, rfl⟩ := List.mem_map.mp hev
      rfl
  rw [List.filterMap_append, hnone, List.nil_append]
  split_ifs <;> rfl

theorem RepInv.addOrder_silent (h : b.RepInv) {o : Order} (hid : ¬ b.ladder.Has o.id)
    {ts : Timestamp} (htrades : (b.addOrder o ts).trades = [])
    (hstatus : (b.addOrder o ts).rpt.status ≠ .new) (s : Side) :
    (b.addOrder o ts).book.ladder.side s = b.ladder.side s := by
  have hout := h.outcome hid ts
  have hf : b.ladder.fillsOf o = [] := by
    have htraded := hout.traded
    rw [htrades, List.map_nil, List.sum_nil, Ladder.remainder] at htraded
    rw [h.inv.fillsOf_eq_nil]
    omega
  have hrests : ¬ b.ladder.Rests o := by
    intro hr
    have hwhole : ¬ 0 < o.quantity - b.ladder.remainder o := by
      rw [Ladder.remainder, hf, taken_nil]
      omega
    apply hstatus
    rw [show (b.addOrder o ts).rpt.status = _ from congrArg Prod.fst hout.rpt,
      reported_of_rests hr, if_neg hwhole]
  rw [(h.addOrder o ts).ladder, Ladder.add, if_neg hid, if_neg hrests,
    afterMatch_of_fillsOf_nil h.inv hf]

theorem RepInv.shown_addOrder (h : b.RepInv) (o : Order) (ts : Timestamp) {last : Option TopOfBook}
    (hs : b.Shown last) : (b.addOrder o ts).book.Shown ((b.addOrder o ts).tobs.getLast?.or last) := by
  by_cases hid : b.ladder.Has o.id
  · rw [h.addOrder_of_has hid]
    exact hs
  · rw [tobs_addOrder (mt (h.mem_index _).mp hid)]
    split_ifs with hpub
    · exact topOfBook_untimed _ ts
    · rw [not_or, not_not] at hpub
      exact h.shown_congr (h.addOrder o ts).repInv (h.step_symbol (.add o ts))
        (h.addOrder_silent hid hpub.1 hpub.2) hs

theorem RepInv.shown_cancelOrder (h : b.RepInv) (id : OrderId) (ts : Timestamp)
    {last : Option TopOfBook} (hs : b.Shown last) :
    (b.cancelOrder id ts).book.Shown ((b.cancelOrder id ts).tobs.getLast?.or last) := by
  by_cases hid : b.ladder.Has id
  · obtain ⟨q, hq, rfl⟩ := hid
    rw [h.cancelOrder_eq hq]
    exact topOfBook_untimed _ ts
  · rw [h.cancelOrder_of_not_has hid]
    exact hs

theorem RepInv.tobs_replaceOrder (h : b.RepInv) {q : Quote} (hq : q ∈ b.ladder.all)
    {req : ReplaceRequest} (hid : q.order.id = req.orderId) (ts : Timestamp) :
    (b.replaceOrder req ts).tobs = (b.cancelOrder req.orderId ts).tobs ++
      ((b.cancelOrder req.orderId ts).book.addOrder (replacement req q.order.side ts) ts).tobs := by
  unfold BookResult.tobs
  rw [L3OrderBook.replaceOrder, ← hid, h.cancelOrder_eq hq]
  exact List.filterMap_append

theorem RepInv.shown_step (h : b.RepInv) (op : BookOp) {last : Option TopOfBook}
    (hs : b.Shown last) : (b.step op).book.Shown ((b.step op).tobs.getLast?.or last) := by
  cases op with
  | add o ts => exact h.shown_addOrder o ts hs
  | cancel id ts => exact h.shown_cancelOrder id ts hs
  | replace req ts =>
    rw [L3OrderBook.step]
    by_cases hid : b.ladder.Has req.orderId
    · -- the cancel publishes, and then the submission may
      obtain ⟨q, hq, hid⟩ := hid
      have hc := h.cancelOrder {} req.orderId ts
      have hboth := hc.repInv.shown_addOrder (replacement req q.order.side ts) ts
        (h.shown_cancelOrder req.orderId ts hs)
      rw [(h.replaceOrder_eq hq hid ts).1, h.tobs_replaceOrder hq hid, List.getLast?_append]
      rwa [← Option.or_assoc] at hboth
    · rw [h.replaceOrder_of_not_has hid]
      exact hs

theorem RepInv.tobs_symbol_addOrder (h : b.RepInv) (o : Order) (ts : Timestamp) :
    ∀ tob ∈ (b.addOrder o ts).tobs, tob.symbol = b.symbol := by
  intro tob htob
  by_cases hid : b.ladder.Has o.id
  · rw [h.addOrder_of_has hid] at htob
    exact absurd htob List.not_mem_nil
  · rw [tobs_addOrder (mt (h.mem_index _).mp hid)] at htob
    split_ifs at htob
    · rw [List.mem_singleton.mp htob, topOfBook_symbol]
      exact h.step_symbol (.add o ts)
    · exact absurd htob List.not_mem_nil

theorem RepInv.tobs_symbol_cancelOrder (h : b.RepInv) (id : OrderId) (ts : Timestamp) :
    ∀ tob ∈ (b.cancelOrder id ts).tobs, tob.symbol = b.symbol := by
  intro tob htob
  by_cases hid : b.ladder.Has id
  · have hsymbol := h.step_symbol (.cancel id ts)
    obtain ⟨q, hq, rfl⟩ := hid
    rw [L3OrderBook.step, h.cancelOrder_eq hq] at hsymbol
    rw [h.cancelOrder_eq hq] at htob
    rw [List.mem_singleton.mp htob, topOfBook_symbol]
    exact hsymbol
  · rw [h.cancelOrder_of_not_has hid] at htob
    exact absurd htob List.not_mem_nil

theorem RepInv.tobs_symbol (h : b.RepInv) (op : BookOp) :
    ∀ tob ∈ (b.step op).tobs, tob.symbol = b.symbol := by
  cases op with
  | add o ts => exact h.tobs_symbol_addOrder o ts
  | cancel id ts => exact h.tobs_symbol_cancelOrder id ts
  | replace req ts =>
    rw [L3OrderBook.step]
    by_cases hid : b.ladder.Has req.orderId
    · obtain ⟨q, hq, hid⟩ := hid
      have hc := (h.cancelOrder {} req.orderId ts).repInv
      rw [h.tobs_replaceOrder hq hid]
      intro tob htob
      rcases List.mem_append.mp htob with htob | htob
      · exact h.tobs_symbol_cancelOrder _ _ tob htob
      · exact (hc.tobs_symbol_addOrder _ _ tob htob).trans
          (h.step_symbol (.cancel req.orderId ts))
    · rw [h.replaceOrder_of_not_has hid]
      exact fun tob htob => absurd htob List.not_mem_nil

end L3OrderBook

end HftSdk
