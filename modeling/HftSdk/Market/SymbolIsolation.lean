import HftSdk.Lib.Noninterference
import HftSdk.Market.DropCopy

/-!
# Symbols are isolated from each other

An engine without a risk engine keeps one book with its feeds for each symbol, and two things for all
of them: its counters, and the index that routes a cancel which names no symbol. `symbol_isolated`:
in a run whose cancels name their symbols, the requests for other symbols may be left out. Every
request for a symbol returns the same report and makes the same callbacks, and the book and the feeds
of the symbol, rolling statistics included, end up the same.
-/

namespace HftSdk

/-- The symbol that an operation is about. -/
def EngineOp.symbol? : EngineOp → Option Symbol
  | .addSymbol symbol => some symbol
  | .newOrder order _ _ => some order.symbol
  | .cancel req _ _ => some req.symbol
  | .replace req _ _ => some req.symbol
  | _ => none

/-- An operation that does not leave it to the index where it goes. -/
structure NamedOp where
  op : EngineOp
  named : ∀ req ts publishedAt, op = .cancel req ts publishedAt → req.symbol ≠ {}

def NamedOp.Concerns (s : Symbol) (x : NamedOp) : Prop := x.op.symbol? = some s

instance (s : Symbol) : DecidablePred (NamedOp.Concerns s) := fun x =>
  inferInstanceAs (Decidable (x.op.symbol? = some s))

/-- The book and the feeds of a symbol after a call on the book. -/
def SymbolState.after (state : SymbolState) (r : BookResult) (publishedAt : Timestamp) : SymbolState :=
  { state with
    book := r.book
    l1 := (r.trades.foldl (fun l1 t => l1.recordTrade t.price t.qty) state.l1).update r.book
      publishedAt }

namespace MatchingEngine

/-! ## What a request does to the symbols -/

theorem lookup_foldl_onBookEvent {symbol : Symbol} (events : List BookEvent)
    (hs : ∀ t ∈ events.filterMap BookEvent.trade?, t.symbol = symbol) {e : MatchingEngine}
    {state : SymbolState} (hstate : e.symbols.lookup symbol = some state) (s : Symbol) :
    (events.foldl onBookEvent e).symbols.lookup s =
      if s = symbol then
        some { state with
          l1 := (events.filterMap BookEvent.trade?).foldl (fun l1 t => l1.recordTrade t.price t.qty)
            state.l1 }
      else e.symbols.lookup s := by
  induction events generalizing e state with
  | nil =>
    split_ifs with h
    · rw [h]
      exact hstate
    · rfl
  | cons ev events ih =>
    cases ev with
    | topOfBook tob => exact ih hs hstate
    | trade t =>
      rw [List.filterMap_cons] at hs ⊢
      dsimp only [BookEvent.trade?] at hs ⊢
      rw [List.forall_mem_cons] at hs
      have hone : (e.onBookEvent (.trade t)).symbols =
          e.symbols.insert symbol { state with l1 := state.l1.recordTrade t.price t.qty } := by
        unfold onBookEvent
        dsimp only
        rw [hs.1, hstate]
      rw [List.foldl_cons, ih hs.2 (by rw [hone, Finmap.lookup_insert]), hone]
      split_ifs with h
      · rfl
      · rw [Finmap.lookup_insert_of_ne _ h]

theorem BooksReachable.lookup_of_dispatch {e : MatchingEngine} (h : e.BooksReachable) {op : EngineOp}
    {c : BookCall} (hd : e.dispatch op = some c) :
    ∃ state, e.symbols.lookup c.symbol = some state ∧ state.book = c.book ∧
      (∀ s, (e.step op).symbols.lookup s =
        if s = c.symbol then some (state.after (c.book.step c.op) (publishTime op))
        else e.symbols.lookup s) ∧
      (e.perform op).2 = (c.book.step c.op).events.map forward ++
        [.execution (c.book.step c.op).rpt,
          .l2 (state.l2.snapshot (c.book.step c.op).book (publishTime op))] := by
  obtain ⟨state, e', hends⟩ := exists_ends hd
  have hbook := (reaches_of_dispatch hd).here
  have htrades := (h.repInv hbook).symbol_trades c.op
  rw [h.symbol hbook] at htrades
  have hafter : ∀ s, e'.symbols.lookup s =
      if s = c.symbol then
        some { state with
          book := (c.book.step c.op).book
          l1 := (c.book.step c.op).trades.foldl (fun l1 t => l1.recordTrade t.price t.qty) state.l1 }
      else e.symbols.lookup s := by
    intro s
    rw [hends.symbols, afterCall, lookup_foldl_onBookEvent _ htrades (Finmap.lookup_insert _)]
    split_ifs with hs
    · rfl
    · rw [Finmap.lookup_insert_of_ne _ hs]
  have hhere := (hafter c.symbol).trans (if_pos rfl)
  refine ⟨state, hends.here, hends.book, fun s => ?_, ?_⟩
  · rw [MatchingEngine.step, hends.perform]
    unfold report publishMarketData
    rw [hhere]
    dsimp only
    split_ifs with hs
    · rw [hs, Finmap.lookup_insert]
      rfl
    · rw [Finmap.lookup_insert_of_ne _ hs, hafter, if_neg hs]
  · rw [hends.perform]
    unfold report publishMarketData
    rw [hhere]

/-! ## Runs of an engine without a risk engine -/

/-- What an operation returns and calls back. -/
def respond (e : MatchingEngine) (x : NamedOp) :
    (Option ExecutionReport × List EngineEvent) × MatchingEngine :=
  ((e.reportOf x.op, (e.perform x.op).2), e.step x.op)

/-- No risk engine is attached, and the books are those of runs. -/
structure Unchecked (e : MatchingEngine) : Prop where
  risk : e.riskEngine = none
  books : e.BooksReachable

theorem checkRisk_unchecked {e : MatchingEngine} (h : e.riskEngine = none) (order : Order) :
    e.checkRisk order = (.none, e) := by
  unfold checkRisk
  rw [h]

theorem Unchecked.step {e : MatchingEngine} (h : e.Unchecked) (op : EngineOp) :
    (e.step op).Unchecked := by
  refine ⟨?_, h.books.step op⟩
  cases hr : e.request op with
  | none =>
    cases op with
    | addSymbol symbol =>
      rw [MatchingEngine.step, perform, addSymbol]
      split_ifs <;> exact h.risk
    | newOrder | cancel | replace => cases hr
    | _ =>
      rw [MatchingEngine.step, perform, onRisk, h.risk]
      rfl
  | some r =>
    rw [MatchingEngine.step, perform_of_request hr]
    dsimp only
    cases hd : e.dispatch op with
    | none =>
      have hrel := (refuses_of_dispatch_none hd hr).risk
      rw [h.risk] at hrel
      cases hr' : r.engine.riskEngine with
      | none => rfl
      | some risk =>
        rw [hr'] at hrel
        cases hrel
    | some c =>
      have hreach := reaches_of_dispatch hd
      obtain ⟨state, -, -, hr'⟩ := hreach.request
      obtain rfl := Option.some_inj.mp (hr.symm.trans hr')
      rw [riskEngine_report]
      cases hreach with
      | @newOrder order ts _ b hb hok =>
        have hcount : e.countOrder.riskEngine = none := h.risk
        rw [settle, fillRisk, checkRisk_unchecked hcount]
        split_ifs
        · dsimp only
          rw [riskEngine_trackOrder, riskEngine_afterCall, hcount]
          rfl
        · rw [riskEngine_trackOrder, riskEngine_afterCall, hcount]
      | cancel hroute hb => rw [settle, riskEngine_untrackOrder, riskEngine_afterCall, h.risk]
      | replace hb => exact (riskEngine_afterCall _ _ _ _).trans h.risk

theorem symbol_of_dispatch {e : MatchingEngine} (x : NamedOp) {c : BookCall}
    (hd : e.dispatch x.op = some c) : x.op.symbol? = some c.symbol := by
  obtain ⟨op, hnamed⟩ := x
  have hreach := reaches_of_dispatch hd
  cases hreach with
  | newOrder hb hok => rfl
  | @cancel req ts publishedAt symbol b hroute hb =>
    rw [route, if_neg (hnamed req ts publishedAt rfl)] at hroute
    exact hroute
  | replace hb => rfl

theorem dispatch_congr {e e' : MatchingEngine} (h : e.Unchecked) (h' : e'.Unchecked) (x : NamedOp)
    {s : Symbol} (hx : x.Concerns s) (hs : e.symbols.lookup s = e'.symbols.lookup s) :
    e.dispatch x.op = e'.dispatch x.op := by
  obtain ⟨op, hnamed⟩ := x
  have hbook : e.book s = e'.book s := congrArg (Option.map SymbolState.book) hs
  cases op with
  | newOrder order ts publishedAt =>
    obtain rfl := Option.some_inj.mp hx
    dsimp only
    rw [dispatch, dispatch, hbook, checkRisk_unchecked h.risk, checkRisk_unchecked h'.risk]
  | cancel req ts publishedAt =>
    obtain rfl := Option.some_inj.mp hx
    have hne := hnamed req ts publishedAt rfl
    dsimp only
    rw [dispatch, dispatch, route, route, if_neg hne, if_neg hne, Option.bind_some, Option.bind_some,
      hbook]
  | replace req ts publishedAt =>
    obtain rfl := Option.some_inj.mp hx
    dsimp only
    rw [dispatch, dispatch, hbook]
  | _ => rfl

theorem respond_of_unknown {e : MatchingEngine} (x : NamedOp) {s : Symbol} (hx : x.Concerns s)
    (hadd : x.op ≠ .addSymbol s) (hs : e.symbols.lookup s = none) {e' : MatchingEngine}
    (hs' : e'.symbols.lookup s = none) : (e.respond x).1 = (e'.respond x).1 := by
  obtain ⟨op, hnamed⟩ := x
  cases op with
  | addSymbol symbol => exact absurd (congrArg EngineOp.addSymbol (Option.some_inj.mp hx)) hadd
  | newOrder order ts publishedAt =>
    obtain rfl := Option.some_inj.mp hx
    have hrefused : ∀ e : MatchingEngine, e.symbols.lookup order.symbol = none →
        e.processNewOrder order ts publishedAt = e.countOrder.rejectOrder order .unknownSymbol ts := by
      intro e hs
      unfold processNewOrder
      simp only [show e.countOrder.symbols.lookup order.symbol = none from hs]
    unfold respond reportOf perform
    dsimp only
    rw [hrefused e hs, hrefused e' hs']
    rfl
  | cancel req ts publishedAt =>
    obtain rfl := Option.some_inj.mp hx
    have hne := hnamed req ts publishedAt rfl
    unfold respond reportOf perform processCancel route
    dsimp only
    simp only [if_neg hne, hs, hs']
  | replace req ts publishedAt =>
    obtain rfl := Option.some_inj.mp hx
    unfold respond reportOf perform processReplace
    dsimp only
    simp only [hs, hs']
  | _ => cases hx

/-! ## Operations for other symbols -/

theorem Unchecked.lookup_step_of_not_concerns {e : MatchingEngine} (h : e.Unchecked) {x : NamedOp}
    {s : Symbol} (hx : ¬ x.Concerns s) : (e.step x.op).symbols.lookup s = e.symbols.lookup s := by
  cases hd : e.dispatch x.op with
  | some c =>
    obtain ⟨_, -, -, hlookup, -⟩ := h.books.lookup_of_dispatch hd
    rw [hlookup, if_neg]
    rintro rfl
    exact hx (symbol_of_dispatch x hd)
  | none =>
    by_cases hadd : ∀ s', x.op ≠ .addSymbol s'
    · rw [(symbols_of_request_none hadd hd).2.1]
    · push Not at hadd
      obtain ⟨symbol, hop⟩ := hadd
      have hne : s ≠ symbol := by
        rintro rfl
        exact hx (by rw [NamedOp.Concerns, hop]; rfl)
      rw [hop, MatchingEngine.step, perform, addSymbol]
      split_ifs
      · rfl
      · exact Finmap.lookup_insert_of_ne _ hne

/-! ## Operations for the symbol -/

theorem lookup_addSymbol (e : MatchingEngine) (s : Symbol) : (e.addSymbol s).symbols.lookup s =
    some ((e.symbols.lookup s).getD { book := .create s }) := by
  unfold addSymbol
  by_cases hmem : s ∈ e.symbols
  · obtain ⟨state, hstate⟩ := Finmap.mem_iff.mp hmem
    rw [if_pos hmem, hstate]
    rfl
  · rw [if_neg hmem, Finmap.lookup_eq_none.mpr hmem]
    exact Finmap.lookup_insert _

theorem Unchecked.lookup_of_dispatch_none {e : MatchingEngine} (h : e.Unchecked) {x : NamedOp}
    {s : Symbol} (hx : x.Concerns s) (hadd : x.op ≠ .addSymbol s) (hd : e.dispatch x.op = none) :
    e.symbols.lookup s = none := by
  rw [← book_eq_none]
  cases hb : e.book s with
  | none => rfl
  | some b =>
    obtain ⟨op, hnamed⟩ := x
    cases op with
    | addSymbol symbol => exact absurd (congrArg EngineOp.addSymbol (Option.some_inj.mp hx)) hadd
    | newOrder order ts publishedAt =>
      obtain rfl := Option.some_inj.mp hx
      refine absurd (Reaches.newOrder hb ?_) (not_reaches hd _)
      rw [checkRisk_unchecked h.risk]
    | cancel req ts publishedAt =>
      obtain rfl := Option.some_inj.mp hx
      exact absurd (Reaches.cancel (if_neg (hnamed req ts publishedAt rfl)) hb) (not_reaches hd _)
    | replace req ts publishedAt =>
      obtain rfl := Option.some_inj.mp hx
      exact absurd (Reaches.replace hb) (not_reaches hd _)
    | _ => cases hx

theorem lookup_step_of_dispatch_none {e : MatchingEngine} {x : NamedOp} {s : Symbol}
    (hx : x.Concerns s) (hadd : x.op ≠ .addSymbol s) (hd : e.dispatch x.op = none) :
    (e.step x.op).symbols.lookup s = e.symbols.lookup s := by
  have hother : ∀ s', x.op ≠ .addSymbol s' := by
    rintro s' hop
    have hs' : s' = s := by
      rw [NamedOp.Concerns, hop] at hx
      exact Option.some_inj.mp hx
    exact hadd (hs' ▸ hop)
  rw [(symbols_of_request_none hother hd).2.1]

section Congruence
variable {e e' : MatchingEngine} (h : e.Unchecked) (h' : e'.Unchecked) {x : NamedOp} {s : Symbol}
  (hx : x.Concerns s) (hview : e.symbols.lookup s = e'.symbols.lookup s)
include h h' hx hview

theorem respond_congr_of_dispatch {c : BookCall} (hd : e.dispatch x.op = some c) :
    (e.respond x).1 = (e'.respond x).1 ∧
      (e.step x.op).symbols.lookup s = (e'.step x.op).symbols.lookup s := by
  have hd' := (dispatch_congr h h' x hx hview).symm.trans hd
  have hsymbol : c.symbol = s := Option.some_inj.mp ((symbol_of_dispatch x hd).symm.trans hx)
  obtain ⟨state, hstate, -, hlookup, hevents⟩ := h.books.lookup_of_dispatch hd
  obtain ⟨state', hstate', -, hlookup', hevents'⟩ := h'.books.lookup_of_dispatch hd'
  rw [hsymbol] at hstate hstate'
  obtain rfl := Option.some_inj.mp (hstate.symm.trans (hview.trans hstate'))
  constructor
  · unfold respond
    rw [hevents, hevents', reportOf_of_dispatch hd, reportOf_of_dispatch hd']
  · rw [hlookup, hlookup', if_pos hsymbol.symm, if_pos hsymbol.symm]

theorem respond_congr_of_dispatch_none (hd : e.dispatch x.op = none) :
    (e.respond x).1 = (e'.respond x).1 ∧
      (e.step x.op).symbols.lookup s = (e'.step x.op).symbols.lookup s := by
  have hd' := (dispatch_congr h h' x hx hview).symm.trans hd
  by_cases hadd : x.op = .addSymbol s
  · have hstep : ∀ e : MatchingEngine, (e.step x.op).symbols.lookup s =
        some ((e.symbols.lookup s).getD { book := .create s }) := by
      intro e
      rw [hadd]
      exact lookup_addSymbol e s
    refine ⟨by rw [respond, respond, hadd]; rfl, ?_⟩
    rw [hstep, hstep, hview]
  · have hs := h.lookup_of_dispatch_none hx hadd hd
    have hs' := h'.lookup_of_dispatch_none hx hadd hd'
    refine ⟨respond_of_unknown x hx hadd hs hs', ?_⟩
    rw [lookup_step_of_dispatch_none hx hadd hd, lookup_step_of_dispatch_none hx hadd hd', hview]

end Congruence

/-! ## Isolation -/

theorem unwinding_symbol (s : Symbol) :
    Run.Unwinding respond (NamedOp.Concerns s) Unchecked fun e => e.symbols.lookup s where
  keeps _ x h := h.step x.op
  respects _ _ h hx := h.lookup_step_of_not_concerns hx
  consistent e _ x h h' hview hx := by
    cases hd : e.dispatch x.op with
    | some c => exact respond_congr_of_dispatch h h' hx hview hd
    | none => exact respond_congr_of_dispatch_none h h' hx hview hd

theorem unchecked_empty : ({} : MatchingEngine).Unchecked where
  risk := rfl
  books _ _ h := absurd h nofun

/-- **A symbol does not see the others**: without the operations for other symbols, those for it
return the same reports and make the same callbacks, and leave it with the same book and feeds. -/
theorem symbol_isolated (ops : List NamedOp) (s : Symbol) :
    Run.observed respond (NamedOp.Concerns s) {} ops =
        Run.outputs respond {} (ops.filter fun x => x.Concerns s) ∧
      (Run.final respond {} ops).symbols.lookup s =
        (Run.final respond {} (ops.filter fun x => x.Concerns s)).symbols.lookup s :=
  (unwinding_symbol s).observed_eq unchecked_empty ops

/-- An order trades on the second of two symbols between one on the first and its cancel. -/
theorem symbol_isolated_two :
    let first : Symbol := ⟨.replicate 8 65⟩
    let second : Symbol := ⟨.replicate 8 66⟩
    let order (id : OrderId) (symbol : Symbol) (side : Side) : NamedOp :=
      ⟨.newOrder { id, symbol, side, price := 10, quantity := 5 } 0 0, fun _ _ _ h => by cases h⟩
    let ops := [⟨.addSymbol first, fun _ _ _ h => by cases h⟩,
      ⟨.addSymbol second, fun _ _ _ h => by cases h⟩, order 1 first .buy, order 1 second .buy,
      order 2 second .sell,
      ⟨.cancel { orderId := 1, symbol := first } 1 1, fun _ _ _ h => by cases h; decide⟩]
    Run.observed respond (NamedOp.Concerns first) {} ops =
        Run.outputs respond {} (ops.filter fun x => x.Concerns first) ∧
      (Run.final respond {} ops).symbols.lookup first =
        (Run.final respond {} (ops.filter fun x => x.Concerns first)).symbols.lookup first :=
  symbol_isolated _ _

end MatchingEngine

end HftSdk
