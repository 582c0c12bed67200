import HftSdk.Market.Dispatch

/-!
# Sessions

The engine holds its risk engine by pointer, so it may be attached, replaced, or changed from outside
between any two calls. In a session every call comes with the risk engine that it finds attached, if
any: an engine without one, and one whose risk engine was attached from the start, are special cases.

What does not depend on the checks holds all along a session (`books_session`). A call that reaches
a book leaves the state that `exists_ends` describes, with the index of `index_of_dispatch`; one that
reaches none leaves the index and the feeds as they are (`symbols_of_dispatch_none`).
-/

namespace HftSdk

/-- A call on the engine, and the risk engine attached when it is made. -/
structure SessionCall where
  risk : Option RiskEngine
  op : EngineOp

namespace MatchingEngine

def withRisk (e : MatchingEngine) (risk : Option RiskEngine) : MatchingEngine :=
  { e with riskEngine := risk }

def stepCall (e : MatchingEngine) (call : SessionCall) : MatchingEngine :=
  (e.withRisk call.risk).step call.op

/-- The engine after a session. -/
def session (calls : List SessionCall) : MatchingEngine := calls.foldl stepCall {}

/-! ## Books -/

/-- **A property of every state of a session** that an invariant of reachable books stands for holds
exactly along the sessions whose calls keep the invariant. -/
theorem along_stepCall_iff {P J : MatchingEngine → Prop} {C : MatchingEngine → EngineOp → Prop}
    (hview : ∀ e, e.BooksReachable → (P e ↔ J e)) (hrisk : ∀ e risk, J e → J (e.withRisk risk))
    (hstep : ∀ e, e.BooksReachable → J e → ∀ op, J (e.step op) ↔ C e op) (hstart : J {})
    (calls : List SessionCall) :
    Run.Along stepCall (fun e call => P (e.stepCall call)) {} calls ↔
      Run.Along stepCall (fun e call => C (e.withRisk call.risk) call.op) {} calls := by
  have hbooks : ∀ (e : MatchingEngine) (call : SessionCall), e.BooksReachable →
      (e.stepCall call).BooksReachable :=
    fun e call h => BooksReachable.step (e := e.withRisk call.risk) h call.op
  have hkeeps : ∀ (e : MatchingEngine) (call : SessionCall), e.BooksReachable ∧ J e →
      (J (e.stepCall call) ↔ C (e.withRisk call.risk) call.op) :=
    fun e call h => hstep (e.withRisk call.risk) h.1 (hrisk e call.risk h.2) call.op
  apply Run.along_congr (I := fun e => e.BooksReachable ∧ J e)
  · intro e call h
    exact (hview _ (hbooks e call h.1)).trans (hkeeps e call h)
  · intro e call h hkeep
    exact ⟨hbooks e call h.1, (hkeeps e call h).mpr hkeep⟩
  · exact ⟨fun _ _ h => absurd h nofun, hstart⟩

/-! ## What a call that reaches a book does -/

/-- An order with this report is tracked for cancel routing. -/
def Tracked (rpt : ExecutionReport) : Prop := rpt.status ≠ .rejected ∧ rpt.status ≠ .filled

instance (rpt : ExecutionReport) : Decidable (Tracked rpt) := inferInstanceAs (Decidable (_ ∧ _))

/-- What a call on a book makes of the index: an order that is neither rejected nor filled is
tracked, and a canceled one is forgotten. -/
def indexAfter (e : MatchingEngine) (c : BookCall) : Finmap fun _ : OrderId => Symbol :=
  match c.op with
  | .add order _ =>
    if Tracked (c.book.step c.op).rpt then e.orderSymbolIndex.insert order.id c.symbol
    else e.orderSymbolIndex
  | .cancel id _ =>
    if (c.book.step c.op).rpt.status = .canceled then e.orderSymbolIndex.erase id
    else e.orderSymbolIndex
  | .replace _ _ => e.orderSymbolIndex

theorem indexAfter_add (e : MatchingEngine) (symbol : Symbol) (b : L3OrderBook) (order : Order)
    (ts : Timestamp) : e.indexAfter ⟨symbol, b, .add order ts⟩ =
      if Tracked (b.addOrder order ts).rpt then e.orderSymbolIndex.insert order.id symbol
      else e.orderSymbolIndex := rfl

theorem indexAfter_cancel (e : MatchingEngine) (symbol : Symbol) (b : L3OrderBook) (id : OrderId)
    (ts : Timestamp) : e.indexAfter ⟨symbol, b, .cancel id ts⟩ =
      if (b.cancelOrder id ts).rpt.status = .canceled then e.orderSymbolIndex.erase id
      else e.orderSymbolIndex := rfl

theorem foldl_onBookEvent_symbols (evs : List BookEvent) (e : MatchingEngine) :
    (evs.foldl onBookEvent e).orderSymbolIndex = e.orderSymbolIndex ∧
      ∀ e' : MatchingEngine, e'.symbols = e.symbols →
        (evs.foldl onBookEvent e').symbols = (evs.foldl onBookEvent e).symbols := by
  induction evs generalizing e with
  | nil => exact ⟨rfl, fun _ h => h⟩
  | cons ev evs ih =>
    have hindex : (e.onBookEvent ev).orderSymbolIndex = e.orderSymbolIndex := by
      cases ev with
      | topOfBook tob => rfl
      | trade t =>
        unfold onBookEvent
        dsimp only
        cases e.symbols.lookup t.symbol <;> rfl
    have hsymbols : ∀ e' : MatchingEngine, e'.symbols = e.symbols →
        (e'.onBookEvent ev).symbols = (e.onBookEvent ev).symbols := by
      intro e' h
      cases ev with
      | topOfBook tob => exact h
      | trade t =>
        unfold onBookEvent
        dsimp only
        rw [h]
        cases e.symbols.lookup t.symbol <;> rfl
    exact ⟨(ih _).1.trans hindex, fun e' h => (ih _).2 _ (hsymbols e' h)⟩

/-- A call that reaches a book ends with a report from an engine `e'` whose books and feeds are
those that the call on the book leaves. -/
structure Ends (e : MatchingEngine) (op : EngineOp) (c : BookCall) (state : SymbolState)
    (e' : MatchingEngine) : Prop where
  here : e.symbols.lookup c.symbol = some state
  book : state.book = c.book
  symbols : e'.symbols = (e.afterCall c.symbol state (c.book.step c.op)).symbols
  index : e'.orderSymbolIndex = e.indexAfter c
  perform : e.perform op = ((e'.report c.symbol (c.book.step c.op) (publishTime op)).engine,
    (e'.report c.symbol (c.book.step c.op) (publishTime op)).events)

theorem index_trackOrder (e : MatchingEngine) (order : Order) (rpt : ExecutionReport) :
    (e.trackOrder order rpt).orderSymbolIndex =
      if Tracked rpt then e.orderSymbolIndex.insert order.id order.symbol
      else e.orderSymbolIndex := by
  unfold trackOrder
  by_cases h : Tracked rpt
  · rw [if_pos h]
    exact congrArg orderSymbolIndex (if_pos h)
  · rw [if_neg h]
    exact congrArg orderSymbolIndex (if_neg h)

theorem index_untrackOrder (e : MatchingEngine) (id : OrderId) (rpt : ExecutionReport) :
    (e.untrackOrder id rpt).orderSymbolIndex =
      if rpt.status = .canceled then e.orderSymbolIndex.erase id else e.orderSymbolIndex := by
  unfold untrackOrder
  split_ifs <;> rfl

theorem symbols_settle {e : MatchingEngine} {op : EngineOp} {c : BookCall} (h : e.Reaches op c)
    (state : SymbolState) (r : BookResult) :
    (e.settle op c.symbol state r).symbols = (e.afterCall c.symbol state r).symbols := by
  cases h with
  | @newOrder order _ _ b hb hok =>
    have hafter : ∀ (e : MatchingEngine) (rpt : ExecutionReport),
        ((e.trackOrder order rpt).fillRisk order rpt).symbols = e.symbols := by
      intro e rpt
      unfold fillRisk trackOrder
      split_ifs <;> rfl
    rw [settle, hafter]
    apply (foldl_onBookEvent_symbols r.events _).2
    dsimp only
    rw [(e.countOrder.checkRisk_frame order).1]
    rfl
  | cancel hroute hb =>
    unfold settle untrackOrder
    dsimp only
    split_ifs <;> rfl
  | replace hb => rfl

theorem index_settle {e : MatchingEngine} {op : EngineOp} {c : BookCall} (h : e.Reaches op c)
    (state : SymbolState) :
    (e.settle op c.symbol state (c.book.step c.op)).orderSymbolIndex = e.indexAfter c := by
  have hcall : ∀ e : MatchingEngine, (e.afterCall c.symbol state (c.book.step c.op)).orderSymbolIndex =
      e.orderSymbolIndex := fun _ => (foldl_onBookEvent_symbols _ _).1
  cases h with
  | @newOrder order ts _ b hb hok =>
    have hfill : ∀ (e : MatchingEngine) (rpt : ExecutionReport),
        (e.fillRisk order rpt).orderSymbolIndex = e.orderSymbolIndex := by
      intro e rpt
      unfold fillRisk
      split_ifs <;> rfl
    rw [settle, hfill, index_trackOrder, hcall, (e.countOrder.checkRisk_frame order).2]
    rfl
  | cancel hroute hb =>
    rw [settle, index_untrackOrder, hcall]
    rfl
  | replace hb => exact hcall e

theorem exists_ends {e : MatchingEngine} {op : EngineOp} {c : BookCall}
    (h : e.dispatch op = some c) : ∃ state e', e.Ends op c state e' := by
  have hreach := reaches_of_dispatch h
  obtain ⟨state, hs, hbook, hr⟩ := hreach.request
  exact ⟨state, e.settle op c.symbol state (c.book.step c.op), hs, hbook,
    symbols_settle hreach _ _, index_settle hreach _, perform_of_request hr⟩

@[simp] theorem index_report (e : MatchingEngine) (symbol : Symbol) (r : BookResult)
    (ts : Timestamp) : (e.report symbol r ts).engine.orderSymbolIndex = e.orderSymbolIndex := by
  unfold report publishMarketData
  cases e.symbols.lookup symbol <;> rfl

theorem index_of_dispatch {e : MatchingEngine} {op : EngineOp} {c : BookCall}
    (h : e.dispatch op = some c) : (e.step op).orderSymbolIndex = e.indexAfter c := by
  obtain ⟨state, e', hends⟩ := exists_ends h
  rw [step, hends.perform]
  dsimp only
  rw [index_report, hends.index]

theorem symbols_of_request_none {e : MatchingEngine} {op : EngineOp}
    (hadd : ∀ s, op ≠ .addSymbol s) (h : e.dispatch op = none) :
    (e.step op).orderSymbolIndex = e.orderSymbolIndex ∧ (e.step op).symbols = e.symbols ∧
      ∀ tob, .l1 tob ∉ (e.perform op).2 := by
  cases hr : e.request op with
  | some r =>
    have hrefuses := refuses_of_dispatch_none h hr
    rw [step, perform_of_request hr]
    refine ⟨hrefuses.index, hrefuses.symbols, fun tob hmem => ?_⟩
    cases hrefuses.events _ hmem
  | none =>
    cases op with
    | addSymbol symbol => exact absurd rfl (hadd symbol)
    | newOrder | cancel | replace => cases hr
    | _ => exact ⟨rfl, rfl, fun _ => List.not_mem_nil⟩

theorem symbols_of_dispatch_none {e : MatchingEngine} {op : EngineOp} (h : e.dispatch op = none) :
    (e.step op).orderSymbolIndex = e.orderSymbolIndex ∧
      (∀ s state, e.symbols.lookup s = some state → (e.step op).symbols.lookup s = some state) ∧
      ∀ tob, .l1 tob ∉ (e.perform op).2 := by
  by_cases hadd : ∀ s, op ≠ .addSymbol s
  · obtain ⟨hindex, hsymbols, hl1⟩ := symbols_of_request_none hadd h
    exact ⟨hindex, fun s state hs => by rw [hsymbols, hs], hl1⟩
  · push Not at hadd
    obtain ⟨symbol, rfl⟩ := hadd
    rw [step, perform, addSymbol]
    split_ifs with hmem
    · exact ⟨rfl, fun _ _ h => h, fun _ => List.not_mem_nil⟩
    · refine ⟨rfl, fun s state hs => ?_, fun _ => List.not_mem_nil⟩
      dsimp only
      rw [Finmap.lookup_insert_of_ne, hs]
      rintro rfl
      exact hmem (Finmap.mem_of_lookup_eq_some hs)

end MatchingEngine

end HftSdk
