import HftSdk.Market.Sessions
import HftSdk.Orderbook.Reports

/-!
# Rejections

A request is rejected at many depths: an unknown symbol, a risk check, an id that rests already or
does not rest, a fill-or-kill order that cannot be filled. Wherever it happens, nothing was changed
before (`session_rejected`): the fill-or-kill check comes before the matching loops, and a replace
whose cancel half succeeded submits a Day order, which is not rejected any more.
-/

namespace HftSdk

open Sweep

/-! ## Books -/

namespace L3OrderBook

variable {b : L3OrderBook}

theorem RepInv.addOrder_rejected (h : b.RepInv) {o : Order} {ts : Timestamp}
    (hrej : (b.addOrder o ts).rpt.status = .rejected) :
    (b.addOrder o ts).book = b ∧ (b.addOrder o ts).trades = [] ∧
      (b.addOrder o ts).rpt.filledQty = 0 := by
  by_cases hid : b.ladder.Has o.id
  · rw [h.addOrder_of_has hid]
    exact ⟨rfl, rfl, rfl⟩
  · have hrpt := (h.outcome hid ts).rpt
    have hstatus : (reported o (b.ladder.remainder o)).1 = .rejected :=
      (congrArg Prod.fst hrpt).symm.trans hrej
    obtain ⟨hrem, htype, htif⟩ := (reported_rejected_iff _ _).mp hstatus
    have hshort := (h.inv.remainder_pos_iff o).mp hrem
    have hfilled : (b.addOrder o ts).rpt.filledQty = 0 := by
      have := congrArg (fun x => x.2.1) hrpt
      rwa [reported, if_neg hrem.ne', if_neg (by simp [htif]), if_pos ⟨hrem, htype, htif⟩] at this
    -- the check came before the loops
    have hkilled : b.matchIncoming o ts = ({ remainingQty := o.quantity }, b) := by
      rw [matchIncoming_eq, if_pos ⟨htif, (h.fok_iff o).mpr hshort⟩]
    obtain ⟨-, hbook, htrades⟩ := addOrder_of_not_mem (mt (h.mem_index o.id).mp hid) ts
    rw [hkilled] at hbook htrades
    refine ⟨?_, htrades, hfilled⟩
    rw [hbook, handleRemainder_book, if_neg]
    rintro ⟨-, -, hday | hgtc⟩
    · simp [htif] at hday
    · simp [htif] at hgtc

theorem RepInv.step_rejected (h : b.RepInv) {op : BookOp} (hrej : (b.step op).rpt.status = .rejected) :
    (b.step op).book = b ∧ (b.step op).trades = [] ∧ (b.step op).rpt.filledQty = 0 := by
  cases op with
  | add o ts => exact h.addOrder_rejected hrej
  | cancel id ts =>
    rw [L3OrderBook.step] at hrej ⊢
    by_cases hid : b.ladder.Has id
    · obtain ⟨q, hq, rfl⟩ := hid
      rw [h.cancelOrder_eq hq] at hrej
      cases hrej
    · rw [h.cancelOrder_of_not_has hid]
      exact ⟨rfl, rfl, rfl⟩
  | replace req ts =>
    rw [L3OrderBook.step] at hrej ⊢
    by_cases hid : b.ladder.Has req.orderId
    · obtain ⟨q, hq, hid⟩ := hid
      have hc := h.cancelOrder {} req.orderId ts
      set o := replacement req q.order.side ts
      have hnew : ¬ (b.cancelOrder req.orderId ts).book.ladder.Has o.id := by
        rw [hc.ladder]
        exact Ladder.not_has_cancel _ _
      rw [(h.replaceOrder_eq hq hid ts).2.2] at hrej
      have hstatus := (congrArg Prod.fst (hc.repInv.outcome hnew ts).rpt).symm.trans hrej
      obtain ⟨-, -, htif⟩ := (reported_rejected_iff _ _).mp hstatus
      cases htif
    · rw [h.replaceOrder_of_not_has hid]
      exact ⟨rfl, rfl, rfl⟩

end L3OrderBook

/-! ## Requests -/

namespace MatchingEngine

/-- The report that a request returns. -/
def reportOf (e : MatchingEngine) : EngineOp → Option ExecutionReport
  | .newOrder order ts publishedAt => some (e.processNewOrder order ts publishedAt).rpt
  | .cancel req ts publishedAt => some (e.processCancel req ts publishedAt).rpt
  | .replace req ts publishedAt => some (e.processReplace req ts publishedAt).rpt
  | _ => none

/-- The engines have the same books, index and risk positions. -/
structure Same (e e' : MatchingEngine) : Prop where
  books : ∀ s, e'.book s = e.book s
  index : e'.orderSymbolIndex = e.orderSymbolIndex
  risk : Option.Rel RiskEngine.Agrees e.riskEngine e'.riskEngine

theorem reportOf_eq (e : MatchingEngine) (op : EngineOp) :
    e.reportOf op = (e.request op).map EngineResult.rpt := by
  cases op <;> rfl

theorem reportOf_of_dispatch {e : MatchingEngine} {op : EngineOp} {c : BookCall}
    (h : e.dispatch op = some c) : e.reportOf op = some (c.book.step c.op).rpt := by
  obtain ⟨state, -, -, hr⟩ := (reaches_of_dispatch h).request
  rw [reportOf_eq, hr]
  rfl

theorem risk_of_dispatch {e : MatchingEngine} {op : EngineOp} {c : BookCall}
    (h : e.dispatch op = some c) (hfilled : (c.book.step c.op).rpt.filledQty = 0) :
    Option.Rel RiskEngine.Agrees e.riskEngine (e.step op).riskEngine := by
  have hreach := reaches_of_dispatch h
  obtain ⟨state, -, -, hr⟩ := hreach.request
  rw [step, perform_of_request hr]
  dsimp only
  rw [riskEngine_report]
  cases hreach with
  | newOrder hb hok =>
    rw [settle, fillRisk, if_neg (not_lt.mpr hfilled.le), riskEngine_trackOrder,
      riskEngine_afterCall]
    exact e.countOrder.checkRisk_agrees _
  | cancel hroute hb =>
    apply rel_of_eq
    rw [settle, riskEngine_untrackOrder, riskEngine_afterCall]
  | replace hb => exact rel_of_eq (riskEngine_afterCall _ _ _ _)

theorem BooksReachable.rejected {e : MatchingEngine} (h : e.BooksReachable) {op : EngineOp}
    {rpt : ExecutionReport} (hrpt : e.reportOf op = some rpt) (hrej : rpt.status = .rejected) :
    e.Same (e.step op) ∧ e.tradesOf op = [] := by
  cases hd : e.dispatch op with
  | none =>
    obtain ⟨r, hr, rfl⟩ := Option.map_eq_some_iff.mp ((e.reportOf_eq op).symm.trans hrpt)
    have hrefuses := refuses_of_dispatch_none hd hr
    refine ⟨?_, (dispatch_none hd).1⟩
    rw [MatchingEngine.step, perform_of_request hr]
    exact ⟨fun s => by rw [book, hrefuses.symbols, book], hrefuses.index, hrefuses.risk⟩
  | some c =>
    have hc := dispatch_some hd
    have hrep := h.repInv hc.here
    obtain rfl := Option.some_inj.mp ((reportOf_of_dispatch hd).symm.trans hrpt)
    obtain ⟨hbook, htrades, hfilled⟩ := hrep.step_rejected hrej
    refine ⟨⟨fun s => ?_, ?_, risk_of_dispatch hd hfilled⟩, hc.trades.trans htrades⟩
    · rw [hc.books, hbook]
      split_ifs with hs
      · rw [hs, hc.here]
      · rfl
    · rw [index_of_dispatch hd, indexAfter]
      split
      · exact if_neg fun htracked => htracked.1 hrej
      · exact if_neg fun hcanceled => OrderStatus.noConfusion (hrej.symm.trans hcanceled)
      · rfl

end MatchingEngine

end HftSdk
