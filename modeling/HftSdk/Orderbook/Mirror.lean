import HftSdk.Orderbook.Levels
import HftSdk.Lib.MapRelation

/-!
# Buying and selling are mirror images

Exchanging the sides and negating the prices takes a run of the book to the mirrored run: its trades,
reports, callbacks and books are the mirror images. Nearly every operation has a branch for each
side; they are the same branch under this exchange.
-/

namespace HftSdk

open SortedMap

/-! ## Mirror images -/

def L3Order.mirror (o : L3Order) : L3Order := { o with side := o.side.opp, price := -o.price }

def mirrorNode (n : ListNode L3Order) : ListNode L3Order := ⟨n.addr, n.val.mirror⟩

def mirrorQueue (queue : OrderQueue) : OrderQueue := queue.map mirrorNode

/-- The levels at the negated prices, in the same order. -/
def mirrorLevels (levels : List (Int × OrderQueue)) : List (Int × OrderQueue) :=
  levels.map (Prod.map Neg.neg mirrorQueue)

theorem mirrorLevels_cons (p : Int) (queue : OrderQueue) (levels : List (Int × OrderQueue)) :
    mirrorLevels ((p, queue) :: levels) = (-p, mirrorQueue queue) :: mirrorLevels levels := rfl

def OrderLocation.mirror (loc : OrderLocation) : OrderLocation :=
  { loc with side := loc.side.opp, price := -loc.price }

def Order.mirror (o : Order) : Order := { o with side := o.side.opp, price := -o.price }

def Trade.mirror (t : Trade) : Trade :=
  { t with aggressorSide := t.aggressorSide.opp, price := -t.price }

def BookLevel.mirror (l : BookLevel) : BookLevel := { l with price := -l.price }

def TopOfBook.mirror (t : TopOfBook) : TopOfBook :=
  { t with
    bestBid := t.bestAsk.mirror
    bestAsk := t.bestBid.mirror
    midPrice := -t.midPrice
    microPrice := -t.microPrice }

def BookEvent.mirror : BookEvent → BookEvent
  | .trade t => .trade t.mirror
  | .topOfBook tob => .topOfBook tob.mirror

def ReplaceRequest.mirror (req : ReplaceRequest) : ReplaceRequest :=
  { req with newPrice := -req.newPrice }

def BookOp.mirror : BookOp → BookOp
  | .add order ts => .add order.mirror ts
  | .cancel id ts => .cancel id ts
  | .replace req ts => .replace req.mirror ts

def Quote.mirror (q : Quote) : Quote := ⟨-q.price, q.addr, q.order.mirror⟩

/-- The rest of the book: mirrored locations, exchanged counts. -/
structure BookCore.Mirrors (c c' : BookCore) : Prop where
  symbol : c'.symbol = c.symbol
  index : ∀ id, c'.orderIndex.lookup id = (c.orderIndex.lookup id).map OrderLocation.mirror
  tradeCount : c'.tradeCount = c.tradeCount
  nextTradeId : c'.nextTradeId = c.nextTradeId
  totalVolume : c'.totalVolume = c.totalVolume
  lastTradePrice : c'.lastTradePrice = -c.lastTradePrice
  bidOrderCount : c'.bidOrderCount = c.askOrderCount
  askOrderCount : c'.askOrderCount = c.bidOrderCount
  nextAddr : c'.nextAddr = c.nextAddr

/-- **Mirrored books**: bids and asks exchanged. -/
structure L3OrderBook.Mirrors (b b' : L3OrderBook) : Prop where
  bids : b'.bids.entries = mirrorLevels b.asks.entries
  asks : b'.asks.entries = mirrorLevels b.bids.entries
  core : b.toBookCore.Mirrors b'.toBookCore

def ExecutionReport.mirror (r : ExecutionReport) : ExecutionReport :=
  { r with side := r.side.opp, price := -r.price, lastPrice := -r.lastPrice }

/-- **Mirrored reports.** The report of an order that is not known names no side. -/
structure ExecutionReport.Mirrors (r r' : ExecutionReport) : Prop where
  eq : r' = { r.mirror with side := r'.side }
  side : r.status ≠ .rejected → r'.side = r.side.opp

/-- **Mirrored results** of a call. -/
structure BookResult.Mirrors (r r' : BookResult) : Prop where
  rpt : r.rpt.Mirrors r'.rpt
  book : r.book.Mirrors r'.book
  events : r'.events = r.events.map BookEvent.mirror

theorem BookResult.Mirrors.trades {r r' : BookResult} (h : r.Mirrors r') :
    r'.trades = r.trades.map Trade.mirror := by
  unfold BookResult.trades
  rw [h.events, List.filterMap_map, List.map_filterMap]
  apply List.filterMap_congr
  rintro (t | tob) -
  · rfl
  · rfl

/-! ## The sides -/

theorem Side.better_mirror (s : Side) (p q : Int) : s.opp.better (-p) (-q) ↔ s.better p q := by
  cases s <;> simp [Side.opp, Side.better]

theorem beyondLimit_mirror (o : Order) (p : Int) :
    beyondLimit o.mirror (-p) = beyondLimit o p := by
  unfold beyondLimit Order.mirror
  cases o.side <;> simp [Side.opp]

theorem L3Order.fill_mirror (o : L3Order) (m : Int) : o.mirror.fill m = (o.fill m).mirror := by
  unfold fill replenish reduce mirror
  split_ifs <;> rfl

theorem numberQueue_mirror (queue : OrderQueue) :
    numberQueue (mirrorQueue queue) = mirrorQueue (numberQueue queue) := by
  unfold numberQueue mirrorQueue
  apply List.ext_getElem
  · simp
  · intro i _ _
    simp only [List.getElem_mapIdx, List.getElem_map]
    rfl

/-! ## Matching -/

namespace BookCore.Mirrors

variable {c c' : BookCore}

theorem tradeWith (h : c.Mirrors c') (o : Order) (p : Int) (resting : L3Order) (m : Int)
    (ts : Timestamp) :
    c'.tradeWith o.mirror (-p) resting.mirror m ts = (c.tradeWith o p resting m ts).mirror := by
  unfold BookCore.tradeWith Trade.mirror
  rw [h.symbol, h.nextTradeId]
  rfl

theorem recordTrade (h : c.Mirrors c') (p m : Int) :
    (c.recordTrade p m).Mirrors (c'.recordTrade (-p) m) where
  symbol := h.symbol
  index := h.index
  tradeCount := congrArg (· + 1) h.tradeCount
  nextTradeId := congrArg (· + 1) h.nextTradeId
  totalVolume := congrArg (· + m) h.totalVolume
  lastTradePrice := rfl
  bidOrderCount := h.bidOrderCount
  askOrderCount := h.askOrderCount
  nextAddr := h.nextAddr

theorem erase_index (h : c.Mirrors c') (id id' : OrderId) :
    (c'.orderIndex.erase id).lookup id' =
      ((c.orderIndex.erase id).lookup id').map OrderLocation.mirror := by
  by_cases hid : id' = id
  · rw [hid, Finmap.lookup_erase, Finmap.lookup_erase]
    rfl
  · rw [Finmap.lookup_erase_ne hid, Finmap.lookup_erase_ne hid, h.index]

theorem dropFilled (h : c.Mirrors c') (resting : L3Order) :
    (c.dropFilled resting).Mirrors (c'.dropFilled resting.mirror) := by
  have hbid : c'.bidOrderCount - 1 = c.askOrderCount - 1 := by rw [h.bidOrderCount]
  have hask : c'.askOrderCount - 1 = c.bidOrderCount - 1 := by rw [h.askOrderCount]
  have hindex := h.erase_index resting.id
  unfold BookCore.dropFilled L3Order.mirror
  cases resting.side with
  | buy =>
    exact ⟨h.symbol, hindex, h.tradeCount, h.nextTradeId, h.totalVolume, h.lastTradePrice,
      h.bidOrderCount, hask, h.nextAddr⟩
  | sell =>
    exact ⟨h.symbol, hindex, h.tradeCount, h.nextTradeId, h.totalVolume, h.lastTradePrice,
      hbid, h.askOrderCount, h.nextAddr⟩

theorem recordRest (h : c.Mirrors c') (o : Order) :
    (c.recordRest o).Mirrors (c'.recordRest o.mirror) := by
  have hindex : ∀ id, ((c'.recordRest o.mirror).orderIndex).lookup id =
      ((c.recordRest o).orderIndex.lookup id).map OrderLocation.mirror := by
    intro id
    change (c'.orderIndex.insert o.id _).lookup id = ((c.orderIndex.insert o.id _).lookup id).map _
    by_cases hid : id = o.id
    · rw [hid, Finmap.lookup_insert, Finmap.lookup_insert, h.nextAddr]
      rfl
    · rw [Finmap.lookup_insert_of_ne _ hid, Finmap.lookup_insert_of_ne _ hid, h.index]
  refine ⟨h.symbol, hindex, h.tradeCount, h.nextTradeId, h.totalVolume, h.lastTradePrice, ?_, ?_,
    congrArg (· + 1) h.nextAddr⟩
  · change (if o.side.opp = .buy then c'.bidOrderCount + 1 else c'.bidOrderCount) =
      if o.side = .sell then c.askOrderCount + 1 else c.askOrderCount
    rw [h.bidOrderCount]
    cases o.side <;> rfl
  · change (if o.side.opp = .sell then c'.askOrderCount + 1 else c'.askOrderCount) =
      if o.side = .buy then c.bidOrderCount + 1 else c.bidOrderCount
    rw [h.askOrderCount]
    cases o.side <;> rfl

end BookCore.Mirrors

/-- Where two mirrored loops end, `f` being the mirror image of what they walk. -/
structure Matched.Mirrors {ρ : Type} (f : ρ → ρ) (r r' : Matched ρ) : Prop where
  left : r'.left = f r.left
  core : r.core.Mirrors r'.core
  remaining : r'.remaining = r.remaining
  trades : r'.trades = r.trades.map Trade.mirror

theorem matchQueue_mirror (o : Order) (ts : Timestamp) (p : Int) (queue : OrderQueue)
    {c c' : BookCore} (h : c.Mirrors c') (demand : Int) :
    (matchQueue o ts p queue c demand).Mirrors mirrorQueue
      (matchQueue o.mirror ts (-p) (mirrorQueue queue) c' demand) := by
  induction queue generalizing c c' demand with
  | nil => exact ⟨rfl, h, rfl, rfl⟩
  | cons n queue ih =>
    rw [show mirrorQueue (n :: queue) = mirrorNode n :: mirrorQueue queue from rfl]
    unfold matchQueue
    by_cases hd : 0 < demand
    · rw [if_pos hd, if_pos hd]
      dsimp only
      rw [show min demand (mirrorNode n).val.openQty = min demand n.val.openQty from rfl]
      generalize min demand n.val.openQty = m
      have htrade : c'.tradeWith o.mirror (-p) (mirrorNode n).val m ts = _ :=
        h.tradeWith o p n.val m ts
      have hfill : (mirrorNode n).val.fill m = (n.val.fill m).mirror := n.val.fill_mirror m
      have hcore := h.recordTrade p m
      rw [htrade, hfill, show (n.val.fill m).mirror.openQty = (n.val.fill m).openQty from rfl]
      by_cases hfull : (n.val.fill m).openQty = 0
      · obtain ⟨hl, hc, hr, ht⟩ := ih (hcore.dropFilled (n.val.fill m)) (demand - m)
        rw [if_pos hfull, if_pos hfull]
        refine ⟨hl, hc, hr, ?_⟩
        rw [List.map_cons, ← ht]
      · obtain ⟨hl, hc, hr, ht⟩ := ih hcore (demand - m)
        rw [if_neg hfull, if_neg hfull]
        refine ⟨congrArg (_ :: ·) hl, hc, hr, ?_⟩
        rw [List.map_cons, ← ht]
    · rw [if_neg hd, if_neg hd]
      exact ⟨rfl, h, rfl, rfl⟩

theorem matchLevels_mirror (o : Order) (ts : Timestamp) (levels : List (Int × OrderQueue))
    {c c' : BookCore} (h : c.Mirrors c') (demand : Int) :
    (matchLevels o ts levels c demand).Mirrors mirrorLevels
      (matchLevels o.mirror ts (mirrorLevels levels) c' demand) := by
  induction levels generalizing c c' demand with
  | nil => exact ⟨rfl, h, rfl, rfl⟩
  | cons e levels ih =>
    obtain ⟨p, queue⟩ := e
    rw [mirrorLevels_cons]
    unfold matchLevels
    rw [beyondLimit_mirror]
    split_ifs with hd hb
    · exact ⟨rfl, h, rfl, rfl⟩
    · obtain ⟨hl, hc, hr, ht⟩ := matchQueue_mirror o ts p queue h demand
      obtain ⟨ihl, ihc, ihr, iht⟩ := ih hc (matchQueue o ts p queue c demand).remaining
      have hempty : (mirrorQueue (matchQueue o ts p queue c demand).left).isEmpty =
          (matchQueue o ts p queue c demand).left.isEmpty := List.isEmpty_map
      dsimp only
      rw [hl, hr, ht, hempty]
      refine ⟨?_, ihc, ihr, ?_⟩
      · dsimp only
        rw [ihl]
        split_ifs <;> rfl
      · dsimp only
        rw [iht, List.map_append]
    · exact ⟨rfl, h, rfl, rfl⟩

theorem fokAvailable_mirror (o : Order) (levels : List (Int × OrderQueue)) (available : Int) :
    fokAvailable o.mirror (mirrorLevels levels) available = fokAvailable o levels available := by
  induction levels generalizing available with
  | nil => rfl
  | cons e levels ih =>
    obtain ⟨p, queue⟩ := e
    rw [mirrorLevels_cons]
    have hsum : ((mirrorQueue queue).map fun n => n.val.openQty).sum =
        (queue.map fun n => n.val.openQty).sum := by
      rw [mirrorQueue, List.map_map]
      rfl
    unfold fokAvailable
    dsimp only
    rw [beyondLimit_mirror, hsum, ih]
    rfl

/-! ## The top of the book -/

theorem bookLevel_mirror (e : Int × OrderQueue) :
    bookLevel (Prod.map Neg.neg mirrorQueue e) = (bookLevel e).mirror := by
  unfold bookLevel BookLevel.mirror
  simp only [Prod.map_fst, Prod.map_snd, mirrorQueue, List.map_map, List.length_map]
  rfl

namespace L3OrderBook.Mirrors

variable {b b' : L3OrderBook}

theorem bestBid (h : b.Mirrors b') : b'.bestBid = b.bestAsk.map BookLevel.mirror := by
  unfold L3OrderBook.bestBid L3OrderBook.bestAsk
  rw [h.bids, mirrorLevels, List.head?_map, Option.map_map, Option.map_map]
  exact congrArg (Option.map · _) (funext bookLevel_mirror)

theorem bestAsk (h : b.Mirrors b') : b'.bestAsk = b.bestBid.map BookLevel.mirror := by
  unfold L3OrderBook.bestBid L3OrderBook.bestAsk
  rw [h.asks, mirrorLevels, List.head?_map, Option.map_map, Option.map_map]
  exact congrArg (Option.map · _) (funext bookLevel_mirror)

theorem topOfBook (h : b.Mirrors b') (ts : Timestamp) :
    b'.topOfBook ts = (b.topOfBook ts).mirror := by
  unfold L3OrderBook.topOfBook
  rw [h.bestBid, h.bestAsk, h.core.symbol]
  cases b.bestBid with
  | none => cases b.bestAsk <;> rfl
  | some bb =>
    cases b.bestAsk with
    | none => rfl
    | some ba =>
      -- the two means are of the negated prices, with the quantities exchanged
      have hmid : (-ba.price + -bb.price).tdiv 2 = -(bb.price + ba.price).tdiv 2 := by
        rw [← Int.neg_tdiv]
        congr 1
        omega
      have hmicro : (-ba.price * bb.qty + -bb.price * ba.qty).tdiv (ba.qty + bb.qty) =
          -(bb.price * ba.qty + ba.price * bb.qty).tdiv (bb.qty + ba.qty) := by
        rw [← Int.neg_tdiv, Int.add_comm ba.qty, Int.neg_mul, Int.neg_mul]
        congr 1
        omega
      have hspread : -bb.price - -ba.price = ba.price - bb.price := by omega
      refine (TopOfBook.mk.injEq ..).mpr ⟨rfl, rfl, rfl, hmid, ?_, hspread, rfl, rfl⟩
      change (if 0 < ba.qty + bb.qty then
          (-ba.price * bb.qty + -bb.price * ba.qty).tdiv (ba.qty + bb.qty)
        else (-ba.price + -bb.price).tdiv 2) = -(if 0 < bb.qty + ba.qty then _ else _)
      rw [hmicro, hmid, Int.add_comm ba.qty]
      split_ifs <;> rfl

/-! ## The operations -/

theorem levels (h : b.Mirrors b') (s : Side) :
    (b'.levels s.opp).entries = mirrorLevels (b.levels s).entries := by
  cases s
  · exact h.asks
  · exact h.bids

theorem setLevels (h : b.Mirrors b') {c c' : BookCore} (hc : c.Mirrors c') {s : Side}
    {m : PriceLevels s} {m' : PriceLevels s.opp} (hm : m'.entries = mirrorLevels m.entries) :
    ({ b.setLevels s m with toBookCore := c } : L3OrderBook).Mirrors
      { b'.setLevels s.opp m' with toBookCore := c' } := by
  cases s
  · exact ⟨h.bids, hm, hc⟩
  · exact ⟨hm, h.asks, hc⟩

theorem matchIncoming (h : b.Mirrors b') (o : Order) (ts : Timestamp) :
    let r := b.matchIncoming o ts
    let r' := b'.matchIncoming o.mirror ts
    r'.1.trades = r.1.trades.map Trade.mirror ∧ r'.1.remainingQty = r.1.remainingQty ∧
      r.2.Mirrors r'.2 := by
  have hlevels : (b'.levels o.mirror.side.opp).entries = mirrorLevels (b.levels o.side.opp).entries :=
    h.levels o.side.opp
  obtain ⟨hl, hc, hr, ht⟩ :=
    matchLevels_mirror o ts (b.levels o.side.opp).entries h.core o.quantity
  rw [← hlevels] at hl hc hr ht
  rw [matchIncoming_eq, matchIncoming_eq, hlevels, fokAvailable_mirror]
  rw [show o.mirror.tif = o.tif from rfl, show o.mirror.quantity = o.quantity from rfl]
  split_ifs
  · exact ⟨rfl, rfl, h⟩
  · exact ⟨ht, hr, h.setLevels hc hl⟩

theorem addRestingOrder (h : b.Mirrors b') (o : Order) (remaining : Int) (ts : Timestamp) :
    (b.addRestingOrder o remaining ts).Mirrors (b'.addRestingOrder o.mirror remaining ts) := by
  have hpush := push_mapped (Side.better_mirror o.side) (h.levels o.side) o.price fun pos =>
    ⟨b.nextAddr, { (Ladder.newQuote o remaining ts b.nextAddr).order with queuePos := .ofNat pos }⟩
  rw [addRestingOrder_eq, addRestingOrder_eq, h.core.nextAddr]
  exact h.setLevels (h.core.recordRest o) hpush

theorem eraseNode {s : Side} {m : PriceLevels s} {m' : PriceLevels s.opp}
    (h : m'.entries = mirrorLevels m.entries) (p : Int) (it : Nat) :
    (HftSdk.eraseNode m' (-p) it).entries = mirrorLevels (HftSdk.eraseNode m p it).entries := by
  rw [eraseNode_eq, eraseNode_eq, lookup_mapped neg_injective h]
  cases m.lookup p with
  | none => exact h
  | some queue =>
    have hunlink : ListNode.unlink it (mirrorQueue queue) = mirrorQueue (ListNode.unlink it queue) :=
      List.filter_map
    have hempty : (mirrorQueue (ListNode.unlink it queue)).isEmpty =
        (ListNode.unlink it queue).isEmpty := List.isEmpty_map
    rw [Option.map_some]
    dsimp only
    rw [hunlink, hempty, numberQueue_mirror]
    split_ifs
    · exact erase_mapped neg_injective h p
    · exact assign_mapped neg_injective h p _

/-! ## Submitting -/

end L3OrderBook.Mirrors

theorem ExecutionReport.mirrors_mirror (r : ExecutionReport) : r.Mirrors r.mirror :=
  ⟨rfl, fun _ => rfl⟩

namespace L3OrderBook

theorem matchedReport_mirror (rpt : ExecutionReport) (o : Order) {res res' : MatchResult}
    (ht : res'.trades = res.trades.map Trade.mirror) (hr : res'.remainingQty = res.remainingQty) :
    matchedReport rpt.mirror o.mirror res' = (matchedReport rpt o res).mirror := by
  unfold matchedReport
  rw [ht, hr, List.getLast?_map, show o.mirror.quantity = o.quantity from rfl]
  dsimp only
  split_ifs
  · rfl
  · cases res.trades.getLast? <;> rfl
  · rfl

theorem Mirrors.handleRemainder {b b' : L3OrderBook} (h : b.Mirrors b') (rpt : ExecutionReport)
    (o : Order) {res res' : MatchResult} (hr : res'.remainingQty = res.remainingQty)
    (ts : Timestamp) :
    (b'.handleRemainder rpt.mirror o.mirror res' ts).1 =
        (b.handleRemainder rpt o res ts).1.mirror ∧
      (b.handleRemainder rpt o res ts).2.Mirrors (b'.handleRemainder rpt.mirror o.mirror res' ts).2 := by
  unfold L3OrderBook.handleRemainder
  rw [hr, show o.mirror.type = o.type from rfl, show o.mirror.tif = o.tif from rfl]
  by_cases hrem : 0 < res.remainingQty ∧ o.type = .limit
  · rw [if_pos hrem, if_pos hrem]
    cases o.tif with
    | day => exact ⟨rfl, h.addRestingOrder o _ ts⟩
    | gtc => exact ⟨rfl, h.addRestingOrder o _ ts⟩
    | ioc => exact ⟨rfl, h⟩
    | fok => exact ⟨rfl, h⟩
  · rw [if_neg hrem, if_neg hrem]
    exact ⟨rfl, h⟩

theorem Mirrors.mem_index {b b' : L3OrderBook} (h : b.Mirrors b') (id : OrderId) :
    id ∈ b'.orderIndex ↔ id ∈ b.orderIndex := by
  rw [← Finmap.lookup_isSome, ← Finmap.lookup_isSome, h.core.index, Option.isSome_map]

theorem Mirrors.addOrder {b b' : L3OrderBook} (h : b.Mirrors b') (o : Order) (ts : Timestamp) :
    (b.addOrder o ts).Mirrors (b'.addOrder o.mirror ts) := by
  have hreport : addReport o.mirror ts = (addReport o ts).mirror := rfl
  unfold L3OrderBook.addOrder
  rw [show o.mirror.id = o.id from rfl, hreport]
  simp only [h.mem_index]
  by_cases hid : o.id ∈ b.orderIndex
  · rw [if_pos hid, if_pos hid]
    exact ⟨ExecutionReport.mirrors_mirror _, h, rfl⟩
  · rw [if_neg hid, if_neg hid]
    have hm := h.matchIncoming o ts
    generalize b.matchIncoming o ts = m, b'.matchIncoming o.mirror ts = m' at hm ⊢
    obtain ⟨res, b₁⟩ := m
    obtain ⟨res', b₁'⟩ := m'
    obtain ⟨ht, hr, hbook⟩ := hm
    dsimp only at ht hr hbook ⊢
    have hrem := hbook.handleRemainder (matchedReport (addReport o ts) o res) o hr ts
    rw [← matchedReport_mirror _ o ht hr] at hrem
    generalize b₁.handleRemainder _ o res ts = r, b₁'.handleRemainder _ o.mirror res' ts = r' at hrem ⊢
    obtain ⟨rpt, b₂⟩ := r
    obtain ⟨rpt', b₂'⟩ := r'
    obtain ⟨rfl, hbook⟩ : rpt' = rpt.mirror ∧ b₂.Mirrors b₂' := hrem
    refine ⟨rpt.mirrors_mirror, hbook, ?_⟩
    have htob : b₂'.publishTob ts = (b₂.publishTob ts).mirror :=
      congrArg BookEvent.topOfBook (hbook.topOfBook ts)
    simp only [htob, ht, List.map_append, List.map_map, ne_eq, List.map_eq_nil_iff]
    congr 1
    change (if res.trades ≠ [] ∨ rpt.status = .new then _ else _) = _
    split_ifs <;> rfl

/-! ## Canceling -/

theorem Mirrors.ladder {b b' : L3OrderBook} (h : b.Mirrors b') (s : Side) :
    b'.ladder.side s.opp = (b.ladder.side s).map Quote.mirror := by
  change quotes (b'.levels s.opp).entries = (quotes (b.levels s).entries).map Quote.mirror
  rw [h.levels]
  generalize (b.levels s).entries = levels
  induction levels with
  | nil => rfl
  | cons e levels ih =>
    obtain ⟨p, queue⟩ := e
    rw [mirrorLevels_cons, quotes_cons, quotes_cons, List.map_append, ih, mirrorQueue, List.map_map, List.map_map]
    rfl

theorem Mirrors.mem_all {b b' : L3OrderBook} (h : b.Mirrors b') {q : Quote}
    (hq : q ∈ b.ladder.all) : q.mirror ∈ b'.ladder.all := by
  obtain ⟨s, hs⟩ := Ladder.mem_all.mp hq
  apply Ladder.mem_all.mpr
  refine ⟨s.opp, ?_⟩
  rw [h.ladder]
  exact List.mem_map_of_mem hs

theorem Mirrors.cancelOrder {b b' : L3OrderBook} (h : b.Mirrors b') (hb : b.RepInv)
    (hb' : b'.RepInv) (id : OrderId) (ts : Timestamp) :
    (b.cancelOrder id ts).Mirrors (b'.cancelOrder id ts) := by
  by_cases hid : b.ladder.Has id
  · obtain ⟨q, hq, rfl⟩ := hid
    have hcancel := hb'.cancelOrder_eq (h.mem_all hq) ts
    rw [show q.mirror.order.id = q.order.id from rfl] at hcancel
    rw [hb.cancelOrder_eq hq ts, hcancel]
    have hbook : ({ b.removeAt q.entry.2 with
          orderIndex := b.orderIndex.erase q.order.id } : L3OrderBook).Mirrors
        { b'.removeAt q.mirror.entry.2 with orderIndex := b'.orderIndex.erase q.order.id } := by
      have h' := removeAt_eq b' q.mirror
      rw [show q.mirror.order.id = q.order.id from rfl] at h'
      rw [removeAt_eq, h']
      exact h.setLevels (h.core.dropFilled q.order)
        (eraseNode (h.levels q.order.side) q.price q.addr)
    refine ⟨⟨?_, fun _ => rfl⟩, hbook, ?_⟩
    · unfold canceledReport
      rw [h.core.symbol]
      rfl
    · exact congrArg (fun tob => [BookEvent.topOfBook tob]) (hbook.topOfBook ts)
  · have hid' : ¬ b'.ladder.Has id := by
      rw [← hb'.mem_index, h.mem_index, hb.mem_index]
      exact hid
    rw [hb.cancelOrder_of_not_has hid, hb'.cancelOrder_of_not_has hid']
    exact ⟨⟨rfl, fun hr => absurd rfl hr⟩, h, rfl⟩

/-! ## Replacing and runs -/

theorem Mirrors.replaceOrder {b b' : L3OrderBook} (h : b.Mirrors b') (hb : b.RepInv)
    (hb' : b'.RepInv) (req : ReplaceRequest) (ts : Timestamp) :
    (b.replaceOrder req ts).Mirrors (b'.replaceOrder req.mirror ts) := by
  have hcancel := h.cancelOrder hb hb' req.orderId ts
  have hstatus : (b'.cancelOrder req.orderId ts).rpt.status =
      (b.cancelOrder req.orderId ts).rpt.status := congrArg (·.status) hcancel.rpt.eq
  unfold L3OrderBook.replaceOrder
  rw [show req.mirror.orderId = req.orderId from rfl]
  dsimp only
  rw [hstatus]
  by_cases hc : (b.cancelOrder req.orderId ts).rpt.status = .canceled
  · have hside : (b'.cancelOrder req.orderId ts).rpt.side =
        (b.cancelOrder req.orderId ts).rpt.side.opp :=
      hcancel.rpt.side (by rw [hc]; decide)
    have hadd := hcancel.book.addOrder
      (replacement req (b.cancelOrder req.orderId ts).rpt.side ts) ts
    rw [if_neg (not_not.mpr hc), if_neg (not_not.mpr hc), hside]
    refine ⟨hadd.rpt, hadd.book, ?_⟩
    dsimp only
    rw [List.map_append, ← hcancel.events, ← hadd.events]
    rfl
  · rw [if_pos hc, if_pos hc]
    refine ⟨⟨?_, fun hr => absurd rfl hr⟩, hcancel.book, hcancel.events⟩
    exact congrArg (fun r => { r with status := OrderStatus.rejected }) hcancel.rpt.eq

theorem Mirrors.step {b b' : L3OrderBook} (h : b.Mirrors b') (hb : b.RepInv) (hb' : b'.RepInv)
    (op : BookOp) : (b.step op).Mirrors (b'.step op.mirror) := by
  cases op with
  | add o ts => exact h.addOrder o ts
  | cancel id ts => exact h.cancelOrder hb hb' id ts
  | replace req ts => exact h.replaceOrder hb hb' req ts

/-- The results of a sequence of calls. -/
def results (b : L3OrderBook) : List BookOp → List BookResult
  | [] => []
  | op :: ops => b.step op :: (b.step op).book.results ops

theorem Mirrors.results {b b' : L3OrderBook} (h : b.Mirrors b') (hb : b.RepInv) (hb' : b'.RepInv)
    (ops : List BookOp) :
    List.Forall₂ BookResult.Mirrors (b.results ops) (b'.results (ops.map BookOp.mirror)) := by
  induction ops generalizing b b' with
  | nil => exact .nil
  | cons op ops ih =>
    have hstep := h.step hb hb' op
    exact .cons hstep (ih hstep.book (hb.step op).2 (hb'.step op.mirror).2)

/-- **Mirrored calls give mirrored results**, step by step. -/
theorem results_mirror (symbol : Symbol) (ops : List BookOp) :
    List.Forall₂ (fun r r' => r'.trades = r.trades.map Trade.mirror ∧ r.Mirrors r')
      ((create symbol).results ops) ((create symbol).results (ops.map BookOp.mirror)) := by
  have hcreate : (create symbol).Mirrors (create symbol) := by
    refine ⟨rfl, rfl, rfl, fun id => ?_, rfl, rfl, rfl, rfl, rfl, rfl, rfl⟩
    rw [show (create symbol).orderIndex = ∅ from rfl, Finmap.lookup_empty]
    rfl
  have hrun := hcreate.results (repInv_create symbol) (repInv_create symbol) ops
  exact hrun.imp fun r r' hr => ⟨hr.trades, hr⟩

end L3OrderBook

end HftSdk
