import HftSdk.Orderbook.Invariants
import HftSdk.Lib.Run

/-!
# The history of a run

A run of the book together with what an observer of its calls can write down: the trades in order,
and for every id the call that last placed it, the quantity it was placed with and the quantity
traded under it since (`Life`). `History.Inv` ties the book to these notes; from it come the
conservation of quantity (`run_conserved`) and, in `Priority`, price-time priority.
-/

namespace HftSdk

open Sweep

/-! ## What is written down -/

/-- The life of an order id: the number of the call that last placed it on the book, the quantity
that call asked for, and the quantity of all trades naming it in that call and since. -/
structure Life where
  entry : Nat := 0
  placedQty : Int := 0
  traded : Int := 0

structure History where
  book : L3OrderBook
  calls : Nat := 0
  life : OrderId → Life := fun _ => {}
  trades : List Trade := []

/-- The quantity of the trades that name `id` as `party`. -/
def tradedAs (party : Trade → OrderId) (id : OrderId) (trades : List Trade) : Int :=
  ((trades.filter fun t => party t = id).map Trade.qty).sum

/-- The quantity under which a call on `b` that left `b'` placed the order `id`, if it did: an add
of an id that did not rest before and rests now, or a replace after which the id rests. -/
def placement (b : L3OrderBook) (op : BookOp) (b' : L3OrderBook) (id : OrderId) : Option Int :=
  match op with
  | .add o _ => if o.id = id ∧ id ∉ b.orderIndex ∧ id ∈ b'.orderIndex then some o.quantity else none
  | .cancel _ _ => none
  | .replace req _ => if req.orderId = id ∧ id ∈ b'.orderIndex then some req.newQty else none

/-- The lives after a call: one that was placed starts anew with the trades it made on the way in,
any other goes on with the trades it was hit by. -/
def record (life : OrderId → Life) (calls : Nat) (placed : OrderId → Option Int)
    (trades : List Trade) (id : OrderId) : Life :=
  match placed id with
  | some qty => ⟨calls, qty, tradedAs Trade.incomingId id trades⟩
  | none => { life id with traded := (life id).traded + tradedAs Trade.restingId id trades }

namespace History

def start (symbol : Symbol) : History := { book := .create symbol }

def step (h : History) (op : BookOp) : History :=
  let r := h.book.step op
  { book := r.book
    calls := h.calls + 1
    life := record h.life h.calls (placement h.book op r.book) r.trades
    trades := h.trades ++ r.trades }

def run (h : History) (ops : List BookOp) : History := ops.foldl step h

end History

/-! ## The trades of a list of fills -/

namespace BookCore

theorem tradedAs_incomingId (c : BookCore) (o : Order) (ts : Timestamp) (fs : List (Quote × Int)) :
    tradedAs Trade.incomingId o.id (c.fillTrades o ts fs) = taken fs := by
  induction fs generalizing c with
  | nil => rfl
  | cons x fs ih =>
    have := ih (c.settleOne x.1 x.2)
    simp only [tradedAs] at this
    simp [tradedAs, fillTrades, tradeWith, this]

theorem tradedAs_restingId (c : BookCore) (o : Order) (ts : Timestamp) (fs : List (Quote × Int))
    (id : OrderId) : tradedAs Trade.restingId id (c.fillTrades o ts fs) =
      given (fun q => q.order.id) id fs := by
  induction fs generalizing c with
  | nil => rfl
  | cons x fs ih =>
    have := ih (c.settleOne x.1 x.2)
    simp only [tradedAs, given] at this
    by_cases hid : x.1.order.id = id <;> simp [tradedAs, given, fillTrades, tradeWith, hid, this]

/-- The counters of the book agree with the trades made so far. -/
structure Tallies (c : BookCore) (trades : List Trade) : Prop where
  nextTradeId : c.nextTradeId = trades.length + 1
  tradeCount : c.tradeCount = trades.length
  totalVolume : c.totalVolume = (trades.map Trade.qty).sum
  ids : trades.map Trade.tradeId = List.range' 1 trades.length
  pos : ∀ t ∈ trades, 0 < t.qty

theorem Tallies.of_tape {c c' : BookCore} {trades : List Trade} (h : c.Tallies trades)
    (hc : c'.tape = c.tape) : c'.Tallies trades := by
  simp only [tape, Prod.mk.injEq] at hc
  obtain ⟨-, hn, hc, hv⟩ := hc
  exact ⟨hn ▸ h.nextTradeId, hc ▸ h.tradeCount, hv ▸ h.totalVolume, h.ids, h.pos⟩

theorem Tallies.settle {c : BookCore} {trades : List Trade} (h : c.Tallies trades) {o : Order}
    {ts : Timestamp} {fs : List (Quote × Int)} (hpos : ∀ x ∈ fs, 0 < x.2) :
    (c.settle fs).Tallies (trades ++ c.fillTrades o ts fs) := by
  induction fs generalizing c trades with
  | nil =>
    rw [fillTrades, List.append_nil]
    exact h
  | cons x fs ih =>
    obtain ⟨q, m⟩ := x
    rw [List.forall_mem_cons] at hpos
    have hone : (c.recordTrade q.price m).Tallies (trades ++ [c.tradeWith o q.price q.order m ts]) := by
      refine ⟨?_, ?_, ?_, ?_, ?_⟩
      · simp [recordTrade, h.nextTradeId]
      · simp [recordTrade, h.tradeCount]
      · simp [recordTrade, h.totalVolume, tradeWith]
      · simp [h.ids, tradeWith, h.nextTradeId, List.range'_concat, Nat.add_comm]
      · intro t ht
        rcases List.mem_append.mp ht with ht | ht
        · exact h.pos t ht
        · rw [List.mem_singleton.mp ht]
          exact hpos.1
    have := ih (hone.of_tape (c.settleOne_tape q m)) hpos.2
    rwa [List.append_assoc] at this

end BookCore

/-! ## Lives and the ladder -/

/-- The lives tell the truth about the quotes of a ladder. -/
structure Kept (L : Ladder) (life : OrderId → Life) (calls : Nat) : Prop where
  placed : ∀ q ∈ L.all, q.openQty + q.order.filledQty = (life q.order.id).placedQty
  traded : ∀ q ∈ L.all, q.order.filledQty = (life q.order.id).traded
  entered : ∀ q ∈ L.all, (life q.order.id).entry < calls
  arrival : ∀ q ∈ L.all, ∀ r ∈ L.all, q.addr < r.addr →
    (life q.order.id).entry < (life r.order.id).entry

namespace Kept

variable {L : Ladder} {life : OrderId → Life} {calls : Nat}

theorem empty (life : OrderId → Life) (calls : Nat) : Kept .empty life calls :=
  ⟨fun _ h => absurd h List.not_mem_nil, fun _ h => absurd h List.not_mem_nil,
    fun _ h => absurd h List.not_mem_nil, fun _ h => absurd h List.not_mem_nil⟩

theorem cancel (h : Kept L life calls) (id : OrderId) : Kept (L.cancel id) life calls := by
  have hsub : ∀ q ∈ (L.cancel id).all, q ∈ L.all := by
    intro q hq
    obtain ⟨s, hq⟩ := Ladder.mem_all.mp hq
    exact Ladder.mem_all.mpr ⟨s, List.mem_of_mem_filter hq⟩
  exact ⟨fun q hq => h.placed q (hsub q hq), fun q hq => h.traded q (hsub q hq),
    fun q hq => h.entered q (hsub q hq),
    fun q hq r hr => h.arrival q (hsub q hq) r (hsub r hr)⟩

theorem mono (h : Kept L life calls) : Kept L life (calls + 1) :=
  ⟨h.placed, h.traded, fun q hq => (h.entered q hq).trans (Nat.lt_succ_self calls), h.arrival⟩

theorem add (h : Kept L life calls) (hL : L.Inv) {o : Order} {ts : Timestamp}
    {placed : OrderId → Option Int} {trades : List Trade}
    (hplaced : ∀ id, placed id =
      if o.id = id ∧ ¬ L.Has id ∧ (L.add o ts).Has id then some o.quantity else none)
    (hresting : ∀ id, tradedAs Trade.restingId id trades =
      given (fun q => q.order.id) id (L.addFills o))
    (hincoming : tradedAs Trade.incomingId o.id trades = taken (L.addFills o)) :
    Kept (L.add o ts) (record life calls placed trades) (calls + 1) := by
  by_cases hid : L.Has o.id
  · -- a duplicate changes nothing
    have hlife : record life calls placed trades = life := funext fun id => by
      have hnone : placed id = none := by
        rw [hplaced, if_neg]
        rintro ⟨rfl, hnot, -⟩
        exact hnot hid
      have hzero : tradedAs Trade.restingId id trades = 0 := by
        rw [hresting, Ladder.addFills, if_pos hid]
        rfl
      rw [record, hnone, hzero, Int.add_zero]
    rw [hlife, Ladder.add, if_pos hid]
    exact h.mono
  · rw [Ladder.addFills, if_neg hid] at hincoming
    have hadd : L.addFills o = L.fillsOf o := if_neg hid
    have hold : ∀ q : Quote, q.order.id ≠ o.id → record life calls placed trades q.order.id =
        { life q.order.id with
          traded := (life q.order.id).traded + L.takenFrom o q.order.id } := by
      intro q hne
      have hnone : placed q.order.id = none := by
        rw [hplaced, if_neg fun hq => hne hq.1.symm]
      rw [record, hnone, hresting, hadd]
      rfl
    have hnew : L.Rests o → record life calls placed trades o.id =
        ⟨calls, o.quantity, taken (L.fillsOf o)⟩ := by
      intro hr
      have hsome : placed o.id = some o.quantity := by
        rw [hplaced, if_pos]
        refine ⟨rfl, hid, Ladder.newQuote o (L.remainder o) ts L.stamp, ?_, rfl⟩
        rw [Ladder.add, if_neg hid, if_pos hr]
        exact (Ladder.rest_perm _ _ _ _).mem_iff.mpr List.mem_cons_self
      rw [record, hsome, hincoming]
    have hframe : ∀ {q r : Quote}, q.frame = r.frame → q.order.id = r.order.id ∧ q.addr = r.addr :=
      fun hf => ⟨congrArg (fun q => q.order.id) hf, Quote.addr_of_frame hf⟩
    refine ⟨fun q hq => ?_, fun q hq => ?_, fun q hq => ?_, fun q hq r hr hlt => ?_⟩
    · rcases hL.mem_add hid hq with ⟨hr, rfl⟩ | ⟨hne, r, hr, hf, hopen, hfilled⟩
      · rw [show (Ladder.newQuote o _ ts L.stamp).order.id = o.id from rfl, hnew hr]
        simp [Quote.openQty, L3Order.openQty, Ladder.newQuote]
      · rw [hold q hne, (hframe hf).1, hopen, hfilled, ← h.placed r hr]
        omega
    · rcases hL.mem_add hid hq with ⟨hr, rfl⟩ | ⟨hne, r, hr, hf, hopen, hfilled⟩
      · rw [show (Ladder.newQuote o _ ts L.stamp).order.id = o.id from rfl, hnew hr]
        simp [Ladder.newQuote, Ladder.remainder]
      · rw [hold q hne, (hframe hf).1, hfilled, h.traded r hr]
    · rcases hL.mem_add hid hq with ⟨hr, rfl⟩ | ⟨hne, r, hr, hf, -, -⟩
      · rw [show (Ladder.newQuote o _ ts L.stamp).order.id = o.id from rfl, hnew hr]
        exact Nat.lt_succ_self calls
      · rw [hold q hne, (hframe hf).1]
        exact (h.entered r hr).trans (Nat.lt_succ_self calls)
    · -- a new quote has the newest node and the newest entry
      rcases hL.mem_add hid hq with ⟨hrests, rfl⟩ | ⟨hne, q', hq', hf, -, -⟩ <;>
        rcases hL.mem_add hid hr with ⟨hrests', rfl⟩ | ⟨hne', r', hr', hf', -, -⟩
      · exact absurd hlt (lt_irrefl _)
      · rw [(hframe hf').2] at hlt
        exact absurd hlt (not_lt.mpr (hL.fresh r' hr').le)
      · rw [show (Ladder.newQuote o _ ts L.stamp).order.id = o.id from rfl, hnew hrests', hold q hne,
          (hframe hf).1]
        exact h.entered q' hq'
      · rw [hold q hne, hold r hne', (hframe hf).1, (hframe hf').1]
        rw [(hframe hf).2, (hframe hf').2] at hlt
        exact h.arrival q' hq' r' hr' hlt

end Kept

/-! ## The invariant of a run -/

namespace History

/-- The book and the notes agree. -/
structure Inv (h : History) : Prop where
  rep : h.book.RepInv
  kept : Kept h.book.ladder h.life h.calls
  tallies : h.book.Tallies h.trades

theorem inv_start (symbol : Symbol) : (start symbol).Inv where
  rep := L3OrderBook.repInv_create symbol
  kept := (L3OrderBook.create_ladder symbol).symm ▸ Kept.empty _ _
  tallies := ⟨rfl, rfl, rfl, rfl, fun _ ht => absurd ht List.not_mem_nil⟩

theorem record_nil (life : OrderId → Life) (calls : Nat) {placed : OrderId → Option Int}
    (h : ∀ id, placed id = none) : record life calls placed [] = life := by
  funext id
  rw [record, h]
  simp [tradedAs]

theorem Inv.of_result {h : History} {op : BookOp} {r : BookResult} (hr : h.book.step op = r)
    (hrep : r.book.RepInv)
    (hkept : Kept r.book.ladder (record h.life h.calls (placement h.book op r.book) r.trades)
      (h.calls + 1))
    (htallies : r.book.Tallies (h.trades ++ r.trades)) : (h.step op).Inv := by
  subst hr
  exact ⟨hrep, hkept, htallies⟩

theorem Inv.step_add {h : History} (hi : h.Inv) (o : Order) (ts : Timestamp) :
    (h.step (.add o ts)).Inv := by
  have hr := hi.rep.addOrder o ts
  refine .of_result (r := h.book.addOrder o ts) rfl hr.repInv ?_ ?_
  · rw [hr.ladder, hr.trades]
    refine hi.kept.add hi.rep.inv (fun id => ?_) (BookCore.tradedAs_restingId _ _ _ _)
      (BookCore.tradedAs_incomingId _ _ _ _)
    simp only [placement, hi.rep.mem_index, hr.repInv.mem_index, hr.ladder]
  · rw [hr.trades]
    exact (hi.tallies.settle (hi.rep.inv.addFills_pos o)).of_tape hr.tape

theorem Inv.step_cancel {h : History} (hi : h.Inv) (id : OrderId) (ts : Timestamp) :
    (h.step (.cancel id ts)).Inv := by
  have hr := hi.rep.cancelOrder {} id ts
  refine .of_result (r := h.book.cancelOrder id ts) rfl hr.repInv ?_ ?_
  · rw [hr.ladder, hr.trades, BookCore.fillTrades, record_nil]
    · exact (hi.kept.cancel id).mono
    · exact fun _ => rfl
  · rw [hr.trades, BookCore.fillTrades, List.append_nil]
    exact hi.tallies.of_tape hr.tape

theorem Inv.step_replace {h : History} (hi : h.Inv) (req : ReplaceRequest) (ts : Timestamp) :
    (h.step (.replace req ts)).Inv := by
  refine .of_result (r := h.book.replaceOrder req ts) rfl (hi.rep.replaceOrder req ts).2 ?_ ?_
  all_goals by_cases hid : h.book.ladder.Has req.orderId
  · obtain ⟨q, hq, hqid⟩ := hid
    have hc := hi.rep.cancelOrder {} req.orderId ts
    have hr := hc.repInv.addOrder (L3OrderBook.replacement req q.order.side ts) ts
    obtain ⟨hbook, htrades, -⟩ := hi.rep.replaceOrder_eq hq hqid ts
    rw [hbook, htrades, hr.ladder, hr.trades]
    refine Kept.add (hc.ladder ▸ hi.kept.cancel req.orderId) hc.repInv.inv (fun id => ?_)
      (BookCore.tradedAs_restingId _ _ _ _) (BookCore.tradedAs_incomingId _ _ _ _)
    -- the old order is gone, so whatever rests under its id was placed by this call
    have hnot : req.orderId = id → ¬ (h.book.ladder.cancel req.orderId).Has id := by
      rintro rfl
      exact Ladder.not_has_cancel _ _
    simp only [placement, hr.repInv.mem_index, hr.ladder, hc.ladder]
    refine if_congr ?_ rfl rfl
    exact ⟨fun ⟨h1, h2⟩ => ⟨h1, hnot h1, h2⟩, fun ⟨h1, _, h2⟩ => ⟨h1, h2⟩⟩
  · rw [hi.rep.replaceOrder_of_not_has hid]
    refine (record_nil h.life h.calls fun id => if_neg ?_).symm ▸ hi.kept.mono
    rintro ⟨rfl, hhas⟩
    exact hid ((hi.rep.mem_index _).mp hhas)
  · obtain ⟨q, hq, hqid⟩ := hid
    have hc := hi.rep.cancelOrder {} req.orderId ts
    have hr := hc.repInv.addOrder (L3OrderBook.replacement req q.order.side ts) ts
    obtain ⟨hbook, htrades, -⟩ := hi.rep.replaceOrder_eq hq hqid ts
    rw [hbook, htrades, hr.trades]
    exact ((hi.tallies.of_tape hc.tape).settle (hc.repInv.inv.addFills_pos _)).of_tape hr.tape
  · rw [hi.rep.replaceOrder_of_not_has hid]
    exact (List.append_nil _).symm ▸ hi.tallies

theorem Inv.step {h : History} (hi : h.Inv) (op : BookOp) : (h.step op).Inv := by
  cases op with
  | add o ts => exact hi.step_add o ts
  | cancel id ts => exact hi.step_cancel id ts
  | replace req ts => exact hi.step_replace req ts

theorem Inv.run {h : History} (hi : h.Inv) (ops : List BookOp) : (h.run ops).Inv :=
  Run.invariant (fun _ op hi => hi.step op) ops hi

/-! ## Conservation of quantity -/

/-- No quantity is created or lost. -/
structure Conserved (h : History) : Prop where
  /-- Open and filled make up the quantity an order was placed with. -/
  placed : ∀ s, ∀ e ∈ (h.book.levels s).entries, ∀ n ∈ e.2,
    n.val.visibleQty + n.val.hiddenQty + n.val.filledQty = (h.life n.val.id).placedQty
  /-- What is filled was traded. -/
  traded : ∀ s, ∀ e ∈ (h.book.levels s).entries, ∀ n ∈ e.2,
    n.val.filledQty = (h.life n.val.id).traded
  /-- A cancel reports what was placed and what was traded. -/
  canceled : ∀ id ts, (h.book.cancelOrder id ts).rpt.status = .canceled →
    (h.book.cancelOrder id ts).rpt.orderQty = (h.life id).placedQty ∧
      (h.book.cancelOrder id ts).rpt.filledQty = (h.life id).traded
  pos : ∀ t ∈ h.trades, 0 < t.qty
  /-- The trades are numbered from 1 without gaps. -/
  ids : h.trades.map Trade.tradeId = List.range' 1 h.trades.length
  tradeCount : h.book.tradeCount = h.trades.length
  totalVolume : h.book.totalVolume = (h.trades.map Trade.qty).sum

theorem Inv.conserved {h : History} (hi : h.Inv) : h.Conserved where
  placed s e he n hn := hi.kept.placed (.of (e.1, n))
    (Ladder.mem_all.mpr ⟨s, mem_quotes.mpr ⟨e, he, n, hn, rfl⟩⟩)
  traded s e he n hn := hi.kept.traded (.of (e.1, n))
    (Ladder.mem_all.mpr ⟨s, mem_quotes.mpr ⟨e, he, n, hn, rfl⟩⟩)
  canceled id ts hc := by
    by_cases hid : h.book.ladder.Has id
    · obtain ⟨q, hq, rfl⟩ := hid
      rw [hi.rep.cancelOrder_eq hq]
      exact ⟨hi.kept.placed q hq, hi.kept.traded q hq⟩
    · rw [hi.rep.cancelOrder_of_not_has hid] at hc
      cases hc
  pos := hi.tallies.pos
  ids := hi.tallies.ids
  tradeCount := hi.tallies.tradeCount
  totalVolume := hi.tallies.totalVolume

/-- **Quantity is conserved** over every run, and the trades are numbered and counted. -/
theorem run_conserved (symbol : Symbol) (ops : List BookOp) : ((start symbol).run ops).Conserved :=
  ((inv_start symbol).run ops).conserved

end History

end HftSdk
