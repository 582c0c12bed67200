import HftSdk.Market.Sessions

/-!
# The execution stream

A subscriber of the execution callback sees a request only if the path that the request takes calls
it. A request that reaches a book does, and so does a new order that the engine rejects; a cancel or
a replace that the engine rejects is answered to its caller alone. `session_answered_iff` says that
these are all: along any session a request is answered once on the stream exactly when it is a new
order or finds its book (`Addressed`).
-/

namespace HftSdk

/-- The report of an execution callback. -/
def EngineEvent.execution? : EngineEvent → Option ExecutionReport
  | .execution rpt => some rpt
  | _ => none

namespace MatchingEngine

/-- The execution callback is invoked once in a request, with the report that the request returns. -/
def AnsweredOnce (e : MatchingEngine) (op : EngineOp) : Prop :=
  ∀ r, e.request op = some r → r.events.filterMap EngineEvent.execution? = [r.rpt]

/-- A cancel names a known symbol, or an id that is tracked under one; a replace names a known
symbol. -/
def Addressed (e : MatchingEngine) : EngineOp → Prop
  | .cancel req _ _ => ∃ symbol, e.route req = some symbol ∧ symbol ∈ e.symbols
  | .replace req _ _ => req.symbol ∈ e.symbols
  | _ => True

/-! ## One request -/

theorem executions_report (e : MatchingEngine) (symbol : Symbol) (r : BookResult) (ts : Timestamp) :
    (e.report symbol r ts).events.filterMap EngineEvent.execution? = [r.rpt] := by
  have hforward : (r.events.map forward).filterMap EngineEvent.execution? = [] := by
    rw [List.filterMap_map, List.filterMap_eq_nil_iff]
    intro ev _
    cases ev <;> rfl
  unfold report publishMarketData
  rw [List.filterMap_append, hforward]
  cases e.symbols.lookup symbol <;> rfl

theorem events_of_refused_order {e : MatchingEngine} {order : Order} {ts publishedAt : Timestamp}
    (h : e.dispatch (.newOrder order ts publishedAt) = none) :
    (e.processNewOrder order ts publishedAt).events =
      [.execution (e.processNewOrder order ts publishedAt).rpt] := by
  cases hs : e.symbols.lookup order.symbol with
  | none =>
    unfold processNewOrder
    simp only [show e.countOrder.symbols.lookup order.symbol = none from hs]
    rfl
  | some state =>
    have hbad : (e.checkRisk order).1 ≠ .none := by
      intro hok
      rw [dispatch, book, hs] at h
      simp [hok] at h
    rw [processNewOrder_eq hs, if_neg hbad]
    rfl

theorem addressed_iff {e : MatchingEngine} {op : EngineOp} {r : EngineResult}
    (hr : e.request op = some r) (hop : ∀ order ts publishedAt, op ≠ .newOrder order ts publishedAt) :
    e.Addressed op ↔ e.dispatch op ≠ none := by
  have hmem : ∀ s, s ∈ e.symbols ↔ e.book s ≠ none := by
    intro s
    rw [ne_eq, book_eq_none, Finmap.lookup_eq_none, not_not]
  cases op with
  | newOrder order ts publishedAt => exact absurd rfl (hop order ts publishedAt)
  | cancel req ts publishedAt =>
    unfold Addressed dispatch
    simp only [hmem]
    cases e.route req with
    | none => simp
    | some symbol => cases e.book symbol <;> simp
  | replace req ts publishedAt =>
    unfold Addressed dispatch
    simp only [hmem]
    cases e.book req.symbol <;> simp
  | _ => cases hr

theorem events_of_unaddressed {e : MatchingEngine} {op : EngineOp} {r : EngineResult}
    (hd : e.dispatch op = none) (hr : e.request op = some r)
    (hop : ∀ order ts publishedAt, op ≠ .newOrder order ts publishedAt) : r.events = [] := by
  cases op with
  | newOrder order ts publishedAt => exact absurd rfl (hop order ts publishedAt)
  | cancel req ts publishedAt =>
    obtain rfl := Option.some_inj.mp hr
    rw [processCancel]
    cases hroute : e.route req with
    | none => rfl
    | some symbol =>
      cases hs : e.symbols.lookup symbol with
      | none =>
        dsimp only
        rw [hs]
      | some state => simp [dispatch, hroute, book, hs] at hd
  | replace req ts publishedAt =>
    obtain rfl := Option.some_inj.mp hr
    rw [processReplace]
    cases hs : e.symbols.lookup req.symbol with
    | none => rfl
    | some state => simp [dispatch, book, hs] at hd
  | _ => cases hr

theorem answeredOnce_iff (e : MatchingEngine) (op : EngineOp) : e.AnsweredOnce op ↔ e.Addressed op := by
  cases hr : e.request op with
  | none =>
    refine iff_of_true (fun r hr' => absurd (hr.symm.trans hr') nofun) ?_
    cases op with
    | newOrder | cancel | replace => cases hr
    | _ => trivial
  | some r =>
    have hone : e.AnsweredOnce op ↔ r.events.filterMap EngineEvent.execution? = [r.rpt] :=
      ⟨fun h => h r hr, fun h r' hr' => Option.some_inj.mp (hr.symm.trans hr') ▸ h⟩
    rw [hone]
    by_cases hop : ∃ order ts publishedAt, op = .newOrder order ts publishedAt
    · obtain ⟨order, ts, publishedAt, rfl⟩ := hop
      refine iff_of_true ?_ trivial
      cases hd : e.dispatch (.newOrder order ts publishedAt) with
      | none =>
        obtain rfl := Option.some_inj.mp hr
        rw [events_of_refused_order hd]
        rfl
      | some c =>
        obtain ⟨state, -, -, hreport⟩ := (reaches_of_dispatch hd).request
        obtain rfl := Option.some_inj.mp (hr.symm.trans hreport)
        exact executions_report _ _ _ _
    · push Not at hop
      rw [addressed_iff hr hop]
      cases hd : e.dispatch op with
      | none =>
        rw [events_of_unaddressed hd hr hop]
        exact iff_of_false nofun fun h => h rfl
      | some c =>
        obtain ⟨state, -, -, hreport⟩ := (reaches_of_dispatch hd).request
        obtain rfl := Option.some_inj.mp (hr.symm.trans hreport)
        exact iff_of_true (executions_report _ _ _ _) nofun

/-! ## Sessions -/

/-- **Every request is answered once on the execution stream** if and only if it is a new order or is
addressed to a book: in every state that a session reaches, and so all along a session. -/
theorem session_answered_iff (calls : List SessionCall) :
    (∀ call : SessionCall, ((session calls).withRisk call.risk).AnsweredOnce call.op ↔
      ((session calls).withRisk call.risk).Addressed call.op) ∧
      (Run.Along stepCall (fun e call => (e.withRisk call.risk).AnsweredOnce call.op) {} calls ↔
        Run.Along stepCall (fun e call => (e.withRisk call.risk).Addressed call.op) {} calls) := by
  refine ⟨fun call => answeredOnce_iff _ _, ?_⟩
  apply Run.along_congr (I := fun _ => True)
  · exact fun e call _ => answeredOnce_iff _ _
  · exact fun _ _ _ _ => trivial
  · trivial

/-- A cancel without a symbol, for an id that is not tracked, is answered to its caller only. -/
theorem cancel_not_on_stream :
    ¬ ∀ (calls : List SessionCall) (call : SessionCall),
      ((session calls).withRisk call.risk).AnsweredOnce call.op := by
  intro h
  exact absurd (h [] ⟨none, .cancel { orderId := 1 } 0 0⟩ _ rfl) (by decide)

end MatchingEngine

end HftSdk
